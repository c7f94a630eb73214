import StateHistory.Proofs.Store.Growth

/-!
# What is recorded lies inside the bounds

Nothing should be recorded at a time that point queries refuse. Writes see to this, because they
move recording to their time. An amendment has no time: a state that it brings into being starts
where recording stands, and at zero while recording has not started, and the bounds are not told. So
all that is recorded lies inside the bounds if its first record does (`Anchored`), and that can only
be amiss where something was amended too early and recording did not come to span zero:
`inside_iff`.
-/

namespace StateHistory.Store

/-! ## Times inside the bounds -/

/-- Both bounds are set, and `t` lies between them. -/
def Inside (s : Store) (t : Time) : Prop :=
  ∃ start stop, s.start = some start ∧ s.stop = some stop ∧ start ≤ t ∧ t ≤ stop

/-- What is recorded of `q` lies inside the bounds. -/
structure Holds (s : Store) (q : Quark) : Prop where
  closed : ∀ iv ∈ (s.timelineOf q).closed, s.Inside iv.start ∧ s.Inside iv.stop
  ongoing : ∀ o, (s.timelineOf q).ongoing = some o → s.Inside o.start

/-- The call amends an attribute while recording has not started. -/
def Call.AmendsEarly (s : Store) : Call → Prop
  | .step (.amend _ q) => s.tree.contains q = true ∧ s.start = none
  | _ => False

/-- Some amendment in the run of some calls is made while recording has not started. -/
def AmendsEarly (s : Store) : List Call → Prop
  | [] => False
  | c :: calls => c.AmendsEarly s ∨ AmendsEarly (c.after s) calls

section
variable {s s' : Store} {a : Step} {steps : List Step} {q : Quark} {t first : Time} {early : Prop}

theorem Extends.inside (he : s.Extends s') (h : s.Inside t) : s'.Inside t := by
  obtain ⟨start, stop, hstart, hstop, hlo, hhi⟩ := h
  obtain ⟨stop', hstop', hle⟩ := he.stop_le stop hstop
  exact ⟨start, stop', he.start_eq start hstart, hstop', hlo, Int.le_trans hhi hle⟩

/-- From a time inside the bounds on, all is inside up to the end. -/
theorem Inside.until (h : s.Inside first) (hle : first ≤ t)
    (hstop : ∃ stop, s.stop = some stop ∧ t ≤ stop) :
    s.Inside t := by
  obtain ⟨start, _, hstart, -, hlo, -⟩ := h
  obtain ⟨stop, hstop, hhi⟩ := hstop
  exact ⟨start, stop, hstart, hstop, Int.le_trans hlo hle, hhi⟩

theorem Writable.inside (hw : s.Writable q t) (h : s.Framed) (v : Value) :
    (s.wrote t v q).Inside t := by
  obtain ⟨last, hlast, hle, -⟩ := stop_reach h.started t
  refine ⟨s.start.getD t, last, start_wrote, (stop_wrote s t v q).trans hlast, ?_, hle⟩
  cases hs : s.start with
  | none => exact Int.le_refl t
  | some start => exact hw.start_le start hs

/-! ## First records -/

/-- Where a step starts to record `q` if nothing of it is recorded yet. -/
def Step.starts (s : Store) (q : Quark) : Step → Option Time
  | .write t _ p => if q = p then some t else none
  | .amend _ p => if q = p then some ((s.stop.or s.start).getD 0) else none
  | .add .. | .advance _ | .close _ => none

/-- The first record of an attribute stays where it is. -/
theorem Covered.start?_takes (h : s.Covered) (ha : a.Takes s s') (q : Quark) :
    (s'.timelineOf q).start? = (s.timelineOf q).start?.or (a.starts s q) := by
  cases ha with
  | add _ => rw [timelineOf_grown, Step.starts, Option.or_none]
  | advance _ => rw [timelineOf_reach, Step.starts, Option.or_none]
  | @write t v p hw =>
    rw [timelineOf_wrote hw.covered, Step.starts]
    by_cases hq : q = p
    · subst hq
      rw [if_pos rfl, if_pos rfl, Timeline.start?_opened hw.onTime, Option.or_some]
    · rw [if_neg hq, if_neg hq, Option.or_none]
  | @amend v p hp =>
    rw [timelineOf_amended (h.contains_iff.1 hp), Step.starts]
    by_cases hq : q = p
    · subst hq
      rw [if_pos rfl, if_pos rfl, Timeline.start?_amend, Option.or_some]
    · rw [if_neg hq, if_neg hq, Option.or_none]
  | close _ => rw [timelineOf_ended, Timeline.start?_close, Step.starts, Option.or_none]

theorem Trail.start?_eq (ht : Trail s steps s') (h : s.Covered)
    (hfirst : (s.timelineOf q).start? = some first) :
    (s'.timelineOf q).start? = some first := by
  refine (ht.induct (P := fun s => s.Covered ∧ (s.timelineOf q).start? = some first) ?_
    ⟨h, hfirst⟩).2
  rintro s₁ s₂ a ⟨h₁, hfirst⟩ ha
  exact ⟨h₁.takes ha, by rw [h₁.start?_takes ha, hfirst, Option.some_or]⟩

/-- Each attribute is first recorded inside the bounds, or else at zero, if that may be. -/
def Anchored (s : Store) (early : Prop) : Prop :=
  ∀ q first, (s.timelineOf q).start? = some first → early ∧ first = 0 ∨ s.Inside first

theorem anchored_new (early : Prop) : new.Anchored early := by
  intro q first hfirst
  rw [timelineOf_new] at hfirst
  cases hfirst

theorem Anchored.takes (h : s.Anchored early) (hl : s.Lawful) (ha : a.Takes s s')
    (hearly : (Call.step a).AmendsEarly s → early) : s'.Anchored early := by
  intro p first hfirst
  rw [hl.covered.start?_takes ha, Option.or_eq_some_iff] at hfirst
  rcases hfirst with hfirst | ⟨-, hstarts⟩
  · exact (h p first hfirst).imp_right (hl.extends ha).inside
  · cases ha with
    | add _ | advance _ | close _ => cases hstarts
    | @write t v q hw =>
      obtain ⟨-, rfl⟩ : p = q ∧ t = first := by simpa [Step.starts] using hstarts
      exact Or.inr (hw.inside hl.toFramed v)
    | @amend v q hq =>
      obtain ⟨-, rfl⟩ : p = q ∧ (s.stop.or s.start).getD 0 = first := by
        simpa [Step.starts] using hstarts
      cases hs : s.start with
      | none => exact Or.inl ⟨hearly ⟨hq, hs⟩, by rw [hl.stop_eq_none hs]; rfl⟩
      | some start =>
        obtain ⟨stop, hstop, hle⟩ := hl.exists_stop hs
        rw [hstop]
        exact Or.inr ⟨start, stop, hs, hstop, hle, Int.le_refl stop⟩

theorem Anchored.call (h : s.Anchored early) (hl : s.Lawful) (c : Call)
    (hearly : c.AmendsEarly s → early) :
    (c.after s).Lawful ∧ (c.after s).Anchored early := by
  refine Call.induct (P := fun s => s.Lawful ∧ s.Anchored early) hl.covered c ⟨hl, h⟩ ?_
  rintro a s₁ s₂ hplain ⟨hl, h⟩ ha
  refine ⟨hl.takes ha, h.takes hl ha fun hamend => ?_⟩
  rcases hplain with hplain | ⟨rfl, rfl⟩
  · cases a with
    | amend _ _ => exact hplain.elim
    | _ => exact hamend.elim
  · exact hearly hamend

theorem Anchored.run (h : s.Anchored early) (hl : s.Lawful) (calls : List Call)
    (hearly : s.AmendsEarly calls → early) :
    (s.run calls).Anchored early := by
  induction calls generalizing s with
  | nil => exact h
  | cons c calls ih =>
    obtain ⟨hl', h'⟩ := h.call hl c fun hc => hearly (Or.inl hc)
    exact ih h' hl' fun hcalls => hearly (Or.inr hcalls)

/-- While recording has not started, zero is the only place for a record. -/
theorem Anchored.start?_amended (h : s.Anchored early) (hl : s.Lawful) (hs : s.start = none)
    (hq : s.tree.contains q = true) (v : Value) :
    ((s.amended v q).timelineOf q).start? = some 0 := by
  rw [hl.covered.start?_takes (.amend hq), Step.starts, if_pos rfl, hl.stop_eq_none hs, hs]
  cases hfirst : (s.timelineOf q).start? with
  | none => rfl
  | some first =>
    rcases h q first hfirst with ⟨-, rfl⟩ | ⟨start, -, hstart, -⟩
    · rfl
    · rw [hs] at hstart
      cases hstart

/-- What is amended too early is first recorded at zero, for ever. -/
theorem Anchored.start?_eq_zero (h : s.Anchored True) (hl : s.Lawful) (calls : List Call)
    (hearly : s.AmendsEarly calls) :
    ∃ q, ((s.run calls).timelineOf q).start? = some 0 := by
  induction calls generalizing s with
  | nil => exact hearly.elim
  | cons c calls ih =>
    obtain ⟨hl', h'⟩ := h.call hl c fun _ => trivial
    rcases hearly with hc | hcalls
    · cases c with
      | step a =>
        cases a with
        | amend v q =>
          obtain ⟨hq, hs⟩ := hc
          refine ⟨q, (trail_run hl'.covered calls).start?_eq hl'.covered ?_⟩
          rw [Call.after_of_edit (a := .amend v q) (amend_ok_iff.2 ⟨hq, rfl⟩)]
          exact h.start?_amended hl hs hq v
        | _ => exact hc.elim
      | _ => exact hc.elim
    · exact ih h' hl' hcalls

/-! ## All that is recorded -/

/-- A store that a call has just closed has no ongoing state. -/
theorem Call.ended_after (hs : s.Covered) (hopen : s.closed = false) (c : Call) (q : Quark) :
    (c.after s).closed = true → ((c.after s).timelineOf q).ongoing = none := by
  refine Call.induct (P := fun s => s.closed = true → (s.timelineOf q).ongoing = none) hs c ?_ ?_
  · intro hc
    rw [hopen] at hc
    cases hc
  · intro a s₁ s₂ hplain h ha hc
    cases ha with
    | add _ =>
      rw [timelineOf_grown]
      exact h hc
    | advance ho =>
      rw [closed_reach, ho.building] at hc
      cases hc
    | write hw =>
      rw [closed_wrote, hw.building] at hc
      cases hc
    | amend _ =>
      rcases hplain with hplain | ⟨-, rfl⟩
      · exact hplain.elim
      · change s₁.closed = true at hc
        rw [hopen] at hc
        cases hc
    | close _ =>
      rw [timelineOf_ended]
      exact Timeline.close_ongoing _

theorem ended_run (calls : List Call) (hopen : (new.run calls.dropLast).closed = false)
    (hc : (new.run calls).closed = true) (q : Quark) :
    ((new.run calls).timelineOf q).ongoing = none := by
  rcases List.eq_nil_or_concat calls with rfl | ⟨before, c, rfl⟩
  · rw [run, timelineOf_new]
  · rw [List.concat_eq_append] at hopen hc ⊢
    rw [List.dropLast_concat] at hopen
    rw [run_append] at hc ⊢
    exact Call.ended_after (covered_run before) hopen c q hc

/-- Where the first records lie inside the bounds, everything does. -/
theorem Anchored.holds (h : s.Anchored early) (hl : s.Lawful) (hzero : early → s.Inside 0)
    (hbounded : s.closed = false → s.Bounded)
    (hended : s.closed = true → ∀ q, (s.timelineOf q).ongoing = none) (q : Quark) : s.Holds q := by
  have hinside : ∀ first, (s.timelineOf q).start? = some first → s.Inside first := by
    intro first hfirst
    rcases h q first hfirst with ⟨he, rfl⟩ | hin
    · exact hzero he
    · exact hin
  have hs := hl.seamless q
  constructor
  · intro iv hiv
    obtain ⟨first, hfirst⟩ := Timeline.start?_isSome_of_closed hiv
    have hlo := hs.start?_le_closed hfirst hiv
    have hle := hs.start_le iv hiv
    obtain ⟨stop, hstop, hhi⟩ := hl.closed_le q iv hiv
    have hin := (hinside first hfirst).until hlo ⟨stop, hstop, Int.le_trans hle hhi⟩
    exact ⟨hin, hin.until hle ⟨stop, hstop, hhi⟩⟩
  · intro o ho
    have hopen : s.closed = false := by
      refine Bool.eq_false_iff.2 fun hc => ?_
      rw [hended hc q] at ho
      cases ho
    rcases Nat.eq_zero_or_pos (s.timelineOf q).closed.size with h0 | hpos
    · exact hinside o.start (by rw [Timeline.start?_of_empty h0, ho]; rfl)
    · -- it follows the last closed interval, which ends before recording does
      have hlast := Timeline.last?_isSome hpos
      have hstart := hs.ongoing_start o _ ho hlast
      obtain ⟨stop, hstop, hlt⟩ :=
        ((hbounded hopen).within q).closed_lt _ (Array.mem_of_back? hlast)
      obtain ⟨first, hfirst⟩ := Timeline.start?_isSome_of_ongoing ho
      refine (hinside first hfirst).until (hs.start?_le_ongoing hfirst ho) ⟨stop, hstop, ?_⟩
      lia

theorem Holds.inside_start? (h : s.Holds q) (hfirst : (s.timelineOf q).start? = some first) :
    s.Inside first := by
  rcases Nat.eq_zero_or_pos (s.timelineOf q).closed.size with h0 | hpos
  · rw [Timeline.start?_of_empty h0, Option.map_eq_some_iff] at hfirst
    obtain ⟨o, ho, rfl⟩ := hfirst
    exact h.ongoing o ho
  · rw [Timeline.start?_of_closed hpos, Option.some.injEq] at hfirst
    subst hfirst
    exact (h.closed _ (Array.getElem_mem hpos)).1

/-- A time inside the bounds can be asked for. -/
theorem Inside.inReach (h : s.Inside t) : s.InReach t := by
  obtain ⟨start, stop, hstart, hstop, hlo, hhi⟩ := h
  refine ⟨⟨start, hstart, hlo⟩, fun _ last hlast => ?_⟩
  obtain rfl : stop = last := by simpa [hstop] using hlast
  exact hhi

/-- An attribute with a record is one of the tree. -/
theorem Covered.contains_of_start? (h : s.Covered) (hfirst : (s.timelineOf q).start? = some first) :
    s.tree.contains q = true := by
  refine h.contains_iff.2 (Nat.lt_of_not_le fun hle => ?_)
  rw [timelineOf_outside hle] at hfirst
  cases hfirst

/-- What lies inside the bounds can be asked for, and is the answer. -/
theorem Holds.answered (h : s.Holds q) (hl : s.Lawful) :
    (∀ iv ∈ (s.timelineOf q).closed, ∀ t, iv.start ≤ t → t ≤ iv.stop → single t q s = .ok iv) ∧
    ∀ o, (s.timelineOf q).ongoing = some o →
      ∃ iv, single o.start q s = .ok iv ∧ iv.start = o.start ∧ iv.value = o.value := by
  have hs := hl.seamless q
  constructor
  · intro iv hiv t hlo hhi
    obtain ⟨first, hfirst⟩ := Timeline.start?_isSome_of_closed hiv
    obtain ⟨hin, _, stop, -, hstop, -, hle⟩ := h.closed iv hiv
    have hint := hin.until hlo ⟨stop, hstop, Int.le_trans hhi hle⟩
    exact single_ok_iff.2 ⟨hl.covered.contains_of_start? hfirst, hint.inReach,
      (intervalAt_of_closed hs hiv hlo hhi).symm⟩
  · intro o ho
    obtain ⟨first, hfirst⟩ := Timeline.start?_isSome_of_ongoing ho
    refine ⟨s.presented q o o.start,
      single_ok_iff.2 ⟨hl.covered.contains_of_start? hfirst, (h.ongoing o ho).inReach,
      (intervalAt_of_ongoing hs ho (Int.le_refl _)).symm⟩, rfl, rfl⟩

end

/-- **What is recorded lies inside the bounds**, up to the call that closes the store, exactly if no
attribute is amended while recording has not started, or recording comes to span zero, where such a
state starts. Point queries answer with what is recorded inside the bounds: with a closed interval
at each of its times, and with an ongoing state from its start on. -/
theorem inside_iff (calls : List Call) (hopen : (new.run calls.dropLast).closed = false) :
    ((∀ q, (new.run calls).Holds q) ↔ (new.AmendsEarly calls → (new.run calls).Inside 0)) ∧
    ∀ q, (new.run calls).Holds q →
      (∀ iv ∈ ((new.run calls).timelineOf q).closed, ∀ t, iv.start ≤ t → t ≤ iv.stop →
        single t q (new.run calls) = .ok iv) ∧
      ∀ o, ((new.run calls).timelineOf q).ongoing = some o →
        ∃ iv, single o.start q (new.run calls) = .ok iv ∧ iv.start = o.start ∧
        iv.value = o.value := by
  have hl := lawful_run calls
  refine ⟨⟨fun hholds hearly => ?_, fun hzero q => ?_⟩, fun q hq => hq.answered hl⟩
  · obtain ⟨q, hfirst⟩ := (anchored_new True).start?_eq_zero lawful_new calls hearly
    exact (hholds q).inside_start? hfirst
  · exact ((anchored_new _).run lawful_new calls id).holds hl hzero (bounded_run calls)
      (ended_run calls hopen) q

/-- An attribute that is amended before recording starts, and recording that spans the state. -/
def amendedThenSpanned : List Call :=
  [.step (.add ⟨0⟩ ["a"]), .step (.amend (.int 7) ⟨1⟩), .step (.advance (-5)),
    .step (.write 8 (.int 2) ⟨1⟩), .step (.close 20)]

theorem inside_iff_spanned :
    (new.run amendedThenSpanned).Holds ⟨1⟩ ∧
      single 3 ⟨1⟩ (new.run amendedThenSpanned) = .ok ⟨⟨1⟩, 0, 7, .int 7⟩ := by
  have hopen : (new.run amendedThenSpanned.dropLast).closed = false := by decide +kernel
  obtain ⟨hiff, hsingle⟩ := inside_iff amendedThenSpanned hopen
  have hzero : (new.run amendedThenSpanned).Inside 0 :=
    ⟨-5, 19, by decide +kernel, by decide +kernel, by decide, by decide⟩
  have hholds := hiff.2 (fun _ => hzero) ⟨1⟩
  refine ⟨hholds, (hsingle ⟨1⟩ hholds).1 ⟨⟨1⟩, 0, 7, .int 7⟩ ?_ 3 (by decide) (by decide)⟩
  decide +kernel

/-- An attribute that is amended before recording starts. -/
def amendedAtOnce : List Call := [.step (.add ⟨0⟩ ["a"]), .step (.amend (.int 7) ⟨1⟩)]

/-- **Bug.** The amended state starts at zero with no bounds set, and its own start cannot be asked
for; nor can it once recording has started later, and closing keeps it outside the bounds for
good. -/
theorem amended_outside :
    (new.run amendedAtOnce).closed = false ∧
    ((new.run amendedAtOnce).timelineOf ⟨1⟩).ongoing = some ⟨0, .int 7⟩ ∧
    (new.run amendedAtOnce).start = none ∧
    single 0 ⟨1⟩ (new.run amendedAtOnce) = .error (.timeRange 0 none none) ∧
    ((new.run (amendedAtOnce ++ [.step (.close 100)])).timelineOf ⟨1⟩).closed =
      #[⟨⟨1⟩, 0, 99, .int 7⟩] ∧
    single 50 ⟨1⟩ (new.run (amendedAtOnce ++ [.step (.close 100)])) =
      .error (.timeRange 50 (some 100) (some 100)) ∧
    ¬ ∀ calls : List Call, (new.run calls.dropLast).closed = false → ∀ q,
      (new.run calls).Holds q := by
  have hongoing : ((new.run amendedAtOnce).timelineOf ⟨1⟩).ongoing = some ⟨0, .int 7⟩ := by
    decide +kernel
  have hstart : (new.run amendedAtOnce).start = none := by decide +kernel
  refine ⟨by decide +kernel, hongoing, hstart, by decide +kernel, by decide +kernel, by
    decide +kernel, ?_⟩
  intro hall
  obtain ⟨start, -, hsome, -⟩ := (hall amendedAtOnce (by decide +kernel) ⟨1⟩).ongoing _ hongoing
  rw [hstart] at hsome
  cases hsome

end StateHistory.Store

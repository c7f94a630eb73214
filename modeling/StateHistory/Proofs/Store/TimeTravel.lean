import StateHistory.Proofs.Store.PointQuery

/-!
# Point queries travel in time

The writes that a store accepts form a log for each attribute. The timelines forget the log: they
keep intervals, rewrite in place what is written twice at one time, and cut what is ongoing when
they are closed. Point queries answer as if the log were still there, `single_run`: with the value
of its last entry up to the time that is asked for.
-/

namespace StateHistory

/-- Values with the times they were written at, in the order of writing. -/
abbrev Log := List (Time × Value)

namespace Log

/-- The value of the last entry up to `t`, null if there is none. -/
def valueAt (log : Log) (t : Time) : Value :=
  match (log.filter fun entry => entry.1 ≤ t).getLast? with
  | some entry => entry.2
  | none => .null

/-- The log with another value in its last entry. -/
def amend (log : Log) (v : Value) : Log :=
  match log.getLast? with
  | some entry => log.dropLast ++ [(entry.1, v)]
  | none => log

theorem valueAt_append (log : Log) (t₀ : Time) (v : Value) (t : Time) :
    valueAt (log ++ [(t₀, v)]) t = if t₀ ≤ t then v else log.valueAt t := by
  unfold valueAt
  by_cases hle : t₀ ≤ t <;> simp [List.filter_append, hle]

theorem amend_eq {log : Log} {entry : Time × Value} (h : log.getLast? = some entry) (v : Value) :
    log.amend v = log.dropLast ++ [(entry.1, v)] := by
  simp [amend, h]

theorem getLast?_amend {log : Log} {entry : Time × Value} (h : log.getLast? = some entry)
    (v : Value) :
    (log.amend v).getLast? = some (entry.1, v) := by
  simp [amend_eq h]

theorem valueAt_amend {log : Log} {entry : Time × Value} (h : log.getLast? = some entry) (v : Value)
    (t : Time) : (log.amend v).valueAt t = if entry.1 ≤ t then v else log.valueAt t := by
  obtain ⟨init, rfl⟩ := List.getLast?_eq_some_iff.1 h
  rw [amend_eq h, List.dropLast_concat, valueAt_append, valueAt_append]
  split <;> rfl

end Log

namespace Store

/-- The log of `q` after a step that succeeds. -/
def Step.note (q : Quark) (log : Log) : Step → Log
  | .write t v p => if p = q then log ++ [(t, v)] else log
  | .amend v p => if p = q then log.amend v else log
  | .add .. | .advance _ | .close _ => log

/-- The log of `q` after some steps. -/
def noted (q : Quark) (steps : List Step) : Log := steps.foldl (fun log a => a.note q log) []

/-- The log of `q` after some calls on a new store. -/
def log (calls : List Call) (q : Quark) : Log := noted q (new.trace calls)

/-- An amendment is made only where a state is ongoing. -/
def Call.AmendsOngoing (s : Store) : Call → Prop
  | .step (.amend _ q) => s.tree.contains q = true → (s.timelineOf q).ongoing ≠ none
  | _ => True

/-- All amendments in the run of some calls are made where a state is ongoing. -/
def AmendOngoing (s : Store) : List Call → Prop
  | [] => True
  | c :: calls => c.AmendsOngoing s ∧ AmendOngoing (c.after s) calls

/-! ## Logs and timelines say the same -/

/-- The timelines of a growing store hold what its logs say, and go on from where these end. -/
structure Follows (s : Store) (log : Quark → Log) : Prop where
  sound : s.Sound
  ongoing_eq : ∀ q, (s.timelineOf q).ongoing = (log q).getLast?.map fun entry => ⟨entry.1, entry.2⟩
  valueAt_eq : ∀ q t, (s.timelineOf q).valueAt t = (log q).valueAt t

section
variable {s s' : Store} {a : Step} {steps : List Step} {log : Quark → Log}

theorem follows_new : new.Follows fun _ => [] := by
  refine ⟨sound_new, fun q => ?_, fun q t => ?_⟩ <;> rw [timelineOf_new]
  · rfl
  · exact (Timeline.seamless_empty q).valueAt_of_none (by simp) (by simp)

/-- What is ongoing is the last entry of the log. -/
theorem Follows.last_of_ongoing (h : s.Follows log) {q : Quark}
    (hne : (s.timelineOf q).ongoing ≠ none) :
    ∃ entry, (log q).getLast? = some entry ∧
      (s.timelineOf q).ongoing = some ⟨entry.1, entry.2⟩ := by
  have hlast := h.ongoing_eq q
  cases hl : (log q).getLast? with
  | none =>
    rw [hl] at hlast
    exact absurd hlast hne
  | some entry =>
    rw [hl] at hlast
    exact ⟨entry, rfl, hlast⟩

/-- A step changes the timelines as it changes the logs. -/
theorem Follows.takes (h : s.Follows log) (ha : a.Takes s s') (hc : s'.closed = false)
    (hamend : ∀ v q, a = .amend v q → (s.timelineOf q).ongoing ≠ none) :
    s'.Follows fun q => a.note q (log q) := by
  refine ⟨h.sound.takes ha, fun p => ?_, fun p t => ?_⟩
  · cases ha with
    | add hb => simp only [timelineOf_grown]; exact h.ongoing_eq p
    | advance ho => simp only [timelineOf_reach]; exact h.ongoing_eq p
    | write hw =>
      rename_i q
      simp only [timelineOf_wrote hw.covered, Step.note, eq_comm (a := q)]
      split
      · simp [Timeline.opened]
      · exact h.ongoing_eq p
    | amend hq =>
      rename_i v q
      simp only [timelineOf_amended (h.sound.covered.contains_iff.1 hq), Step.note,
        eq_comm (a := q)]
      split
      · subst p
        obtain ⟨entry, hl, ho⟩ := h.last_of_ongoing (hamend v q rfl)
        simp [Timeline.amend, ho, Log.getLast?_amend hl]
      · exact h.ongoing_eq p
    | close hle => cases hc
  · cases ha with
    | add hb => simp only [timelineOf_grown]; exact h.valueAt_eq p t
    | advance ho => simp only [timelineOf_reach]; exact h.valueAt_eq p t
    | write hw =>
      rename_i q
      simp only [timelineOf_wrote hw.covered, Step.note, eq_comm (a := q)]
      split
      · subst p
        rw [(h.sound.seamless q).valueAt_opened (h.sound.growing hw.building q) _ hw.onTime,
          Log.valueAt_append, h.valueAt_eq]
      · exact h.valueAt_eq p t
    | amend hq =>
      rename_i v q
      simp only [timelineOf_amended (h.sound.covered.contains_iff.1 hq), Step.note,
        eq_comm (a := q)]
      split
      · subst p
        obtain ⟨entry, hl, ho⟩ := h.last_of_ongoing (hamend v q rfl)
        rw [(h.sound.seamless q).valueAt_amend ho, Log.valueAt_amend hl, h.valueAt_eq]
      · exact h.valueAt_eq p t
    | close hle => cases hc

theorem Follows.trail (ht : Trail s steps s') (h : s.Follows log) (hc : s'.closed = false)
    (hno : ∀ v q, .amend v q ∉ steps) :
    s'.Follows fun q => steps.foldl (fun log a => a.note q log) (log q) := by
  induction ht generalizing log with
  | nil => exact h
  | cons head rest ih =>
    have htakes := Step.takes_of_edit head
    refine ih (h.takes htakes (rest.building hc) ?_) hc ?_
    · rintro v q rfl
      exact absurd (List.mem_cons_self ..) (hno v q)
    · intro v q hm
      exact hno v q (List.mem_cons_of_mem _ hm)

theorem Follows.call (h : s.Follows log) (c : Call) (hc : (c.after s).closed = false)
    (hamend : c.AmendsOngoing s) :
    (c.after s).Follows fun q => (c.steps s).foldl (fun log a => a.note q log) (log q) := by
  have ht := Call.trail h.sound.covered c
  cases c with
  | step a =>
    cases he : a.edit s with
    | ok u s' =>
      have hsteps : (Call.step a).steps s = [a] := by simp [Call.steps, Call.edit, Call.parts, he]
      have hafter : (Call.step a).after s = s' := by simp [Call.after, Edit.after, Call.edit, he]
      rw [hafter] at hc ⊢
      rw [hsteps]
      have htakes := Step.takes_of_edit he
      refine h.takes htakes hc ?_
      rintro v q rfl
      exact hamend (amend_ok_iff.1 he).1
    | error e s' =>
      have hsteps : (Call.step a).steps s = [] := by simp [Call.steps, Call.edit, Call.leftover, he]
      have hafter : (Call.step a).after s = s := by
        simp [Call.after, Edit.after, Call.edit, he, Step.edit_error he]
      rw [hafter, hsteps]
      exact h
  | _ => exact Follows.trail ht h hc fun v q hm => Call.plain_of_mem_steps (by simp) hm

theorem follows_run (calls : List Call) (h : s.Follows log) (hamend : s.AmendOngoing calls)
    (hc : (s.run calls).closed = false) :
    (s.run calls).Follows fun q => (s.trace calls).foldl (fun log a => a.note q log) (log q) := by
  induction calls generalizing s log with
  | nil => exact h
  | cons c calls ih =>
    have ht := Call.trail h.sound.covered c
    have hc' := (trail_run (ht.covered h.sound.covered) calls).building hc
    have := ih (h.call c hc' hamend.1) hamend.2 hc
    simpa only [run, trace, List.foldl_append] using this

end

/-- **Point queries are time travel.** In a store that is still growing, and in the one that closing
it leads to, a point query answers with the value of the last entry of the log up to its time; this
holds for every time from the start on, in the closed store up to the time of closing. -/
theorem single_run (calls : List Call) (hamend : new.AmendOngoing calls)
    (hopen : (new.run calls).closed = false) (q : Quark)
    (hq : (new.run calls).tree.contains q = true) :
    (∀ start t, (new.run calls).start = some start → start ≤ t →
      ∃ iv, single t q (new.run calls) = .ok iv ∧ iv.value = (log calls q).valueAt t) ∧
    ∀ stop s' start t, close stop (new.run calls) = .ok () s' → s'.start = some start →
      start ≤ t → t < stop →
      ∃ iv, single t q s' = .ok iv ∧ iv.value = (log calls q).valueAt t := by
  have h := follows_run calls follows_new hamend hopen
  constructor
  · intro start t hs hle
    refine ⟨_, single_ok_iff.2 ⟨hq, ⟨⟨start, hs, hle⟩, fun hc => ?_⟩, rfl⟩, ?_⟩
    · rw [hopen] at hc
      cases hc
    · rw [intervalAt_value]
      exact h.valueAt_eq q t
  · intro stop s' start t hclose hs hle hlt
    obtain ⟨-, rfl⟩ := close_ok_iff.1 hclose
    refine ⟨_, single_ok_iff.2 ⟨hq, ⟨⟨start, hs, hle⟩, fun _ last hl => ?_⟩, rfl⟩, ?_⟩
    · rw [stop_ended, Option.some.injEq] at hl
      have := sub_one_le_lastTime (new.run calls) stop
      lia
    · rw [intervalAt_value, timelineOf_ended, (h.sound.seamless q).valueAt_close hlt]
      exact h.valueAt_eq q t

/-- A write, its amendment, a push onto the same attribute, a write that is refused, and an
addition. -/
def sample : List Call :=
  [.step (.add ⟨0⟩ ["a"]), .step (.write 10 (.int 1) ⟨1⟩), .step (.amend (.int 2) ⟨1⟩),
    .push 20 (.int 5) ⟨1⟩, .step (.write 15 (.int 9) ⟨1⟩), .addLong 30 ⟨1⟩ 4]

theorem single_run_sample :
    (∃ iv, single 25 ⟨1⟩ (new.run sample) = .ok iv ∧ iv.value = .int 3) ∧
    ∃ s' iv, close 31 (new.run sample) = .ok () s' ∧ single 30 ⟨1⟩ s' = .ok iv ∧
    iv.value = .long 7 := by
  have hamend : new.AmendOngoing sample := by
    refine ⟨trivial, trivial, fun _ => ?_, trivial, trivial, trivial, trivial⟩
    decide +kernel
  have hopen : (new.run sample).closed = false := by decide +kernel
  have hq : (new.run sample).tree.contains ⟨1⟩ = true := by decide +kernel
  have hlog : log sample ⟨1⟩ = [(10, .int 2), (20, .int 3), (30, .long 7)] := by decide +kernel
  obtain ⟨hgrowing, hclosed⟩ := single_run sample hamend hopen ⟨1⟩ hq
  rw [hlog] at hgrowing hclosed
  have hclose : close 31 (new.run sample) = .ok () ((new.run sample).ended 31) := by
    refine close_ok_iff.2 ⟨?_, rfl⟩
    decide +kernel
  constructor
  · exact hgrowing 10 25 (by decide +kernel) (by decide)
  · obtain ⟨iv, hiv, hv⟩ := hclosed 31 _ 10 30 hclose (by decide +kernel) (by decide) (by decide)
    exact ⟨_, iv, hclose, hiv, hv⟩

end Store

end StateHistory

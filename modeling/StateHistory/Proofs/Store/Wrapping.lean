import StateHistory.Proofs.Store.Frozen
import StateHistory.Proofs.Store.Parts
import StateHistory.Proofs.Store.Scan
import StateHistory.Proofs.Timeline.Overrun

/-!
# Range queries in 64 bits

Only an amendment can go past the latest time, and only in a store that was closed. In 64 bits the
state then starts at the earliest time, so that the timeline is out of order from there on
(`Timeline.Overrun`), and a range query finds what it should not. As long as no amendment comes to
that, a timeline stays in order, and its range queries are right; and if none does on any attribute,
the store is the one that exact times lead to. `ranges_in_order_iff` puts this together.
-/

namespace StateHistory

namespace Store

/-! ## Calls -/

/-- The edits of a store, in 64 bits. -/
def Parts.wrapping : Parts Edit := { Parts.plain with amend := amendWrapping }

/-- The store after the call, in 64 bits. -/
def Call.afterWrapping (c : Call) (s : Store) : Store := (Parts.wrapping.edit c).after s

/-- The store after some calls in 64 bits, whether they succeed or fail. -/
def runWrapping (s : Store) : List Call → Store
  | [] => s
  | c :: calls => (c.afterWrapping s).runWrapping calls

/-- The call amends `q` past the latest time. -/
def Call.PassesLatest (s : Store) (q : Quark) : Call → Prop
  | .step (.amend _ p) => p = q ∧ (s.timelineOf q).Full
  | _ => False

/-- One of the calls amends `q` past the latest time. -/
def PassesLatest (s : Store) (q : Quark) : List Call → Prop
  | [] => False
  | c :: calls => c.PassesLatest s q ∨ (c.afterWrapping s).PassesLatest q calls

instance (s : Store) (q : Quark) : DecidablePred (Call.PassesLatest s q)
  | .step (.amend _ p) => inferInstanceAs (Decidable (p = q ∧ _))
  | .step (.add ..) | .step (.advance ..) | .step (.write ..) | .step (.close ..) | .push ..
  | .pop .. | .addLong .. | .addInt .. | .addDouble .. | .clear .. | .offer .. | .poll .. =>
    inferInstanceAs (Decidable False)

instance decidablePassesLatest :
    ∀ (s : Store) (q : Quark) (calls : List Call), Decidable (s.PassesLatest q calls)
  | _, _, [] => inferInstanceAs (Decidable False)
  | s, q, c :: calls =>
    have := decidablePassesLatest (c.afterWrapping s) q calls
    inferInstanceAs (Decidable (_ ∨ _))

/-- The store after an amendment of `q` in 64 bits. -/
def amendedWrapping (s : Store) (v : Value) (q : Quark) : Store :=
  (s.amended v q).setTimeline q ((s.amended v q).timelineOf q).wrapped

section
variable {s s' : Store} {p q : Quark} {v : Value} {c : Call} {calls : List Call}

theorem amendWrapping_ok_iff :
    amendWrapping v q s = .ok () s' ↔ s.tree.contains q = true ∧ s' = s.amendedWrapping v q := by
  refine Edit.bind_ok.trans ⟨?_, ?_⟩
  · rintro ⟨_, s₁, hamend, hwrapped⟩
    obtain ⟨hq, rfl⟩ := amend_ok_iff.1 hamend
    exact ⟨hq, Edit.modify_ok.1 hwrapped⟩
  · rintro ⟨hq, rfl⟩
    exact ⟨(), _, amend_ok_iff.2 ⟨hq, rfl⟩, rfl⟩

theorem amendWrapping_error {e : Failure} (h : amendWrapping v q s = .error e s') : s' = s := by
  rcases Edit.bind_error.1 h with h | ⟨_, _, _, h⟩
  · exact amend_error h
  · cases h

theorem Parts.occupied_wrapping : ∀ qs : List Quark, wrapping.occupied qs = plain.occupied qs
  | [] => rfl
  | q :: qs => by
    rw [occupied, occupied, Parts.occupied_wrapping qs]
    rfl

theorem Parts.slotsFrom_wrapping (q : Quark) : ∀ fuel place : Nat,
    wrapping.slotsFrom q fuel place = plain.slotsFrom q fuel place
  | 0, _ => rfl
  | fuel + 1, place => by
    rw [slotsFrom, slotsFrom, Parts.slotsFrom_wrapping q fuel (place + 1)]
    rfl

theorem Parts.slots_wrapping (q : Quark) : wrapping.slots q = plain.slots q :=
  bind_congr fun size => slotsFrom_wrapping q size 1

/-- Only amendments go on in another way in 64 bits. -/
theorem Call.afterWrapping_of_ne_amend (hne : ∀ v q, c ≠ .step (.amend v q)) :
    c.afterWrapping s = c.after s := by
  have hsame : Parts.wrapping.edit c = Parts.plain.edit c := by
    cases c with
    | step a =>
      cases a with
      | amend v q => exact absurd rfl (hne v q)
      | _ => rfl
    | clear t q =>
      refine bind_congr fun below => ?_
      rw [Parts.occupied_wrapping]
      rfl
    | offer t v q =>
      refine bind_congr fun _ => ?_
      rw [Parts.slots_wrapping]
      rfl
    | poll t q =>
      change Parts.wrapping.poll t q >>= _ = Parts.plain.poll t q >>= _
      rw [Parts.poll, Parts.poll, Parts.slots_wrapping]
      rfl
    | _ => rfl
  rw [Call.afterWrapping, hsame, Parts.edit_plain, Call.after]

theorem Call.afterWrapping_amend (v : Value) (q : Quark) (s : Store) :
    (Call.step (.amend v q)).afterWrapping s =
      if s.tree.contains q then s.amendedWrapping v q else s := by
  change (amendWrapping v q).after s = _
  unfold Edit.after
  by_cases hq : s.tree.contains q = true
  · rw [amendWrapping_ok_iff.2 ⟨hq, rfl⟩, if_pos hq]
  · rw [if_neg hq]
    cases hedit : amendWrapping v q s with
    | ok u s' => exact absurd (amendWrapping_ok_iff.1 hedit).1 hq
    | error e s' => exact amendWrapping_error hedit

/-- A call amends an attribute that is there, or goes on as with exact times; then it does not amend,
or is refused. -/
theorem Call.afterWrapping_cases (c : Call) (s : Store) :
    (∃ v q, c = .step (.amend v q) ∧ s.tree.contains q = true ∧
      c.afterWrapping s = s.amendedWrapping v q) ∨
    (c.afterWrapping s = c.after s ∧ ((∀ v q, c ≠ .step (.amend v q)) ∨ c.after s = s)) := by
  by_cases hamend : ∃ v q, c = .step (.amend v q)
  · obtain ⟨v, q, rfl⟩ := hamend
    by_cases hq : s.tree.contains q = true
    · exact Or.inl ⟨v, q, rfl, hq, by rw [afterWrapping_amend, if_pos hq]⟩
    · have hsame : (Call.step (.amend v q)).after s = s := by
        rcases Call.after_step (.amend v q) s with hok | ⟨-, hsame⟩
        · exact absurd (amend_ok_iff.1 hok).1 hq
        · exact hsame
      exact Or.inr ⟨by rw [afterWrapping_amend, if_neg hq, hsame], Or.inr hsame⟩
  · have hne : ∀ v q, c ≠ .step (.amend v q) := fun v q heq => hamend ⟨v, q, heq⟩
    exact Or.inr ⟨afterWrapping_of_ne_amend hne, Or.inl hne⟩

theorem timelineOf_amendedWrapping (hq : q.index < s.timelines.size) :
    (s.amendedWrapping v q).timelineOf p =
    if p = q then ((s.timelineOf q).amend v ((s.stop.or s.start).getD 0)).wrapped
      else s.timelineOf p := by
  have hq' : q.index < (s.amended v q).timelines.size := by simpa [amended, setTimeline] using hq
  rw [amendedWrapping, timelineOf_setTimeline _ hq', timelineOf_amended hq, timelineOf_amended hq]
  split <;> simp

/-! ## What a call does to a timeline -/

/-- A step changes a timeline as a call on that timeline does, if at all. -/
theorem Step.Takes.timelineOf {a : Step} (ha : a.Takes s s') (hcov : s.Covered) (q : Quark) :
    ∃ cs : List Timeline.Call, s'.timelineOf q = (s.timelineOf q).run cs := by
  cases ha with
  | add _ => exact ⟨[], timelineOf_grown⟩
  | advance _ => exact ⟨[], timelineOf_reach⟩
  | @write t v p hw =>
    rw [timelineOf_wrote hw.covered]
    split
    · rename_i heq
      subst heq
      refine ⟨[.write q t v], ?_⟩
      simp [Timeline.run, Timeline.Call.after, Timeline.write_eq_opened v hw.onTime]
    · exact ⟨[], rfl⟩
  | @amend v p hp =>
    rw [timelineOf_amended (hcov.contains_iff.1 hp)]
    split
    · rename_i heq
      subst heq
      exact ⟨[.amend v _], rfl⟩
    · exact ⟨[], rfl⟩
  | @close t _ => exact ⟨[.close q t], timelineOf_ended⟩

/-- Each attribute of the store has a timeline, and the times fit into 64 bits. -/
structure Fitting (s : Store) : Prop extends s.Ranged where
  covered : s.Covered

theorem Fitting.amendedWrapping (h : s.Fitting) (hq : s.tree.contains q = true) (v : Value) :
    (s.amendedWrapping v q).Fitting := by
  refine ⟨⟨h.start_inRange, h.stop_inRange, fun p => ?_⟩, ?_⟩
  · rw [timelineOf_amendedWrapping (h.covered.contains_iff.1 hq)]
    split
    · exact (h.timelines q).wrapped v _
    · exact h.timelines p
  · simpa [Covered, Store.amendedWrapping, amended, setTimeline] using h.covered

theorem Fitting.afterWrapping (h : s.Fitting) (hc : c.InRange) : (c.afterWrapping s).Fitting := by
  rcases c.afterWrapping_cases s with ⟨v, q, -, hq, heq⟩ | ⟨heq, hne | hsame⟩
  · exact heq ▸ h.amendedWrapping hq v
  · rw [heq]
    exact ⟨h.toRanged.after_of_ne_amend h.covered hc hne,
      (Call.trail h.covered c).covered h.covered⟩
  · rwa [heq, hsame]

theorem Fitting.runWrapping (h : s.Fitting) (hr : ∀ c ∈ calls, c.InRange) :
    (s.runWrapping calls).Fitting := by
  induction calls generalizing s with
  | nil => exact h
  | cons c calls ih =>
    exact ih (h.afterWrapping (hr c (List.mem_cons_self ..))) fun d hd =>
      hr d (List.mem_cons_of_mem _ hd)

end

end Store

end StateHistory

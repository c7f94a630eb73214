import StateHistory.Proofs.Store.Frozen
import StateHistory.Proofs.Store.Slots

/-!
# What a refused offer leaves

The other calls that write several attributes ask first whether all of them can be written, and a
refusal leaves nothing behind. An offer adds its slot first and asks afterwards. Where the slot was
there already this makes no difference, so it shows just where the slot is new: then the only reason
to refuse the write is that recording cannot go on at its time (`refused_iff_of_new`).
`refused_offer_eq_iff` says when the store is what it was, and what it is otherwise.
-/

namespace StateHistory.Store

section
variable {s s' : Store} {q slot : Quark} {path : List String} {t : Time} {v : Value} {e : Failure}

open Edit Call

/-- What a refused offer leads to. -/
theorem eq_of_offer_error (h : offer t v q s = .error e s') :
    s' = if s.tree.contains q = true then s.grown q (nextSlot s q) else s := by
  have ht := offer_error h
  simp only [leftover] at ht
  split
  · rename_i hq
    rw [if_pos hq] at ht
    cases ht with
    | cons head rest => rw [rest.eq_of_nil, (Step.add_edit_ok_iff.1 head).2]
  · rename_i hq
    rw [if_neg hq] at ht
    exact ht.eq_of_nil

theorem Lawful.eq_self_of_offer_error_iff (hs : s.Lawful) (h : offer t v q s = .error e s') :
    s' = s ↔ ¬ s.tree.contains q = true ∨ s.tree.descend q (nextSlot s q) ≠ none := by
  rw [eq_of_offer_error h]
  by_cases hq : s.tree.contains q = true
  · rw [if_pos hq, hs.grown_eq_iff hq]
    simp [hq]
  · simp [hq]

/-! ## New slots -/

theorem size_grow_slot (hnone : s.tree.descend q (nextSlot s q) = none) :
    (s.tree.grow q (nextSlot s q)).1 = ⟨s.tree.size⟩ ∧
      (s.tree.grow q (nextSlot s q)).2.size = s.tree.size + 1 := by
  simp only [nextSlot, slotName, Tree.descend, Tree.grow] at hnone ⊢
  cases hc : s.tree.child? q (toString ((s.slots q).length + 1 : Int)) with
  | some c => rw [hc] at hnone; cases hnone
  | none => exact ⟨rfl, Tree.size_addChild ..⟩

/-- An offer that needs a new slot is refused only where recording cannot go on. -/
theorem Covered.refused_iff_of_new (hs : s.Covered) (hq : s.tree.contains q = true)
    (hnone : s.tree.descend q (nextSlot s q) = none) :
    (∃ e s', offer t v q s = .error e s') ↔ ¬ s.Open t := by
  cases hres : offer t v q s with
  | ok u s' =>
    obtain ⟨-, hw, -⟩ := offer_ok_iff.1 hres
    have ho : s.Open t := ⟨hw.building, hw.start_le⟩
    simp [ho]
  | error e s' =>
    refine iff_of_true ⟨e, s', rfl⟩ fun ho => ?_
    rcases hs.slot_cases q ((s.slots q).length + 1) ho with hsame | hw
    · have hsame : s.grown q (nextSlot s q) = s := hsame
      have hsize := (size_grow_slot hnone).2
      rw [← tree_grown, hsame] at hsize
      exact absurd hsize (Nat.ne_of_lt (Nat.lt_succ_self _))
    · rw [offer_ok_iff.2 ⟨hq, hw, rfl⟩] at hres
      cases hres

end

/-- **A refused offer leaves its slot.** The store after it is the one before it exactly if the
attribute is unknown or the slot was there already. Otherwise the store is closed, or the time is
before its start, and the slot stays: there is one more attribute, at the next free quark, and
nothing is written. -/
theorem refused_offer_eq_iff (calls : List Call) {t : Time} {v : Value} {q : Quark} {e : Failure}
    {s' : Store} (h : offer t v q (new.run calls) = .error e s') :
    let s := new.run calls
    (s' = s ↔ ¬ s.tree.contains q = true ∨ s.tree.descend q (Call.nextSlot s q) ≠ none) ∧
      (s' ≠ s → ¬ s.Open t ∧ s' = s.grown q (Call.nextSlot s q) ∧
        s'.tree.size = s.tree.size + 1 ∧
        s'.tree.descend q (Call.nextSlot s q) = some ⟨s.tree.size⟩) := by
  intro s
  have hs : s.Lawful := lawful_run calls
  have hiff := hs.eq_self_of_offer_error_iff h
  refine ⟨hiff, fun hne => ?_⟩
  rw [Ne, hiff, not_or, not_not, not_not] at hne
  obtain ⟨hq, hnone⟩ := hne
  have hs' : s' = s.grown q (Call.nextSlot s q) := by rw [eq_of_offer_error h, if_pos hq]
  obtain ⟨hslot, hsize⟩ := size_grow_slot hnone
  refine ⟨(hs.covered.refused_iff_of_new hq hnone).1 ⟨e, s', h⟩, hs', hs' ▸ hsize, ?_⟩
  rw [hs', tree_grown, hs.grown.descend_grow_self hq, hslot]

/-- An attribute that has recorded up to ten, with one slot written at twenty. -/
def oneSlot : List Call :=
  [.step (.add ⟨0⟩ ["q"]), .step (.advance 10), .offer 20 (.int 1) ⟨1⟩, .poll 20 ⟨1⟩]

/-- The slot is there, so its refusal changes nothing. -/
theorem refused_offer_eq_iff_oneSlot :
    ∃ e s', offer 15 (.int 2) ⟨1⟩ (new.run oneSlot) = .error e s' ∧
    s' = new.run oneSlot := by
  have h : offer 15 (.int 2) ⟨1⟩ (new.run oneSlot) = .error (.orderingViolation (some ⟨2⟩) 15 20)
      (new.run oneSlot) := rfl
  exact ⟨_, _, h, (refused_offer_eq_iff oneSlot h).1.2 (Or.inr (by decide +kernel))⟩

/-- **Bug.** An offer before the start of recording is refused, and still the store has a new
attribute, so the next one that is added gets another quark; a push in its place would have left no
trace. -/
theorem refused_offer_leaves_slot :
    let s := new.run [.step (.add ⟨0⟩ ["q"]), .step (.advance 10)]
    ∃ e s', offer 5 (.int 1) ⟨1⟩ s = .error e s' ∧ s' ≠ s ∧ s.tree.size = 2 ∧ s'.tree.size = 3 ∧
      s'.tree.find? ⟨1⟩ ["1"] = some ⟨2⟩ ∧
      (s.tree.grow .root ["b"]).1 = ⟨2⟩ ∧ (s'.tree.grow .root ["b"]).1 = ⟨3⟩ ∧
      (Call.push 5 (.int 1) ⟨1⟩).after s = s := by
  refine ⟨.orderingViolation (some ⟨2⟩) 5 10, _, rfl, fun h => ?_, by decide +kernel, by
    decide +kernel,
    by decide +kernel, by decide +kernel, by decide +kernel, by decide +kernel⟩
  have hsize := congrArg (fun s => s.tree.size) h
  revert hsize
  decide +kernel

end StateHistory.Store

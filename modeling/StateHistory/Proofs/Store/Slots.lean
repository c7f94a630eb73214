import StateHistory.Proofs.Store.Batch
import StateHistory.Proofs.Store.Stacked

/-!
# The slots of a queue

The length of a queue is found anew for each call, by asking for its children by name up to the
first that is missing or null. The walk stops there and nowhere else, since the slots are different
attributes and fewer than there are (`slot?_slots`, `slot?_length_slots`). `offer_ok_iff` and
`poll_of_writable` then say what the two calls do, without a monad.
-/

namespace StateHistory.Store

open Edit Call

section
variable {s s' : Store} {x c : Quark} {fuel place i : Nat} {t : Time} {v : Value}

theorem slot?_eq_some_iff (hx : s.tree.contains x = true) :
    s.slot? x place = some c ↔ slotOf s.tree x place = some c ∧ s.valueOf c ≠ .null := by
  rw [slot?, find?_slotName hx, Option.filter_eq_some_iff, Bool.not_eq_true', ← Bool.not_eq_true,
    Value.isNull_iff]

/-! ## How far the walk goes -/

theorem slot?_of_getElem? :
    ∀ {fuel place i : Nat}, (s.slotsFrom x fuel place)[i]? = some c → s.slot? x (place + i) = some c
  | 0, _, _, h => by cases h
  | fuel + 1, place, i, h => by
    unfold slotsFrom at h
    cases hp : s.slot? x place with
    | none => rw [hp] at h; cases h
    | some c' =>
      rw [hp] at h
      cases i with
      | zero =>
        rw [List.getElem?_cons_zero] at h
        exact hp.trans h
      | succ i =>
        rw [List.getElem?_cons_succ] at h
        rw [← Nat.add_assoc, Nat.add_right_comm]
        exact slot?_of_getElem? h

/-- A walk that ends early ends at a place without a value. -/
theorem slot?_of_length_lt : ∀ {fuel place : Nat}, (s.slotsFrom x fuel place).length < fuel →
    s.slot? x (place + (s.slotsFrom x fuel place).length) = none
  | 0, _, h => absurd h (Nat.not_lt_zero _)
  | fuel + 1, place, h => by
    unfold slotsFrom at h ⊢
    cases hp : s.slot? x place with
    | none => exact hp
    | some c =>
      rw [hp] at h
      simp only [List.length_cons] at h ⊢
      rw [← Nat.add_assoc, Nat.add_right_comm]
      exact slot?_of_length_lt (Nat.lt_of_succ_lt_succ h)

theorem slot?_slots (h : (s.slots x)[i]? = some c) : s.slot? x (i + 1) = some c := by
  rw [Nat.add_comm]
  exact slot?_of_getElem? h

theorem slotOf_slots (hx : s.tree.contains x = true) (h : (s.slots x)[i]? = some c) :
    slotOf s.tree x (i + 1) = some c :=
  ((slot?_eq_some_iff hx).1 (slot?_slots h)).1

theorem mem_childrenOf_of_mem_slots (hx : s.tree.contains x = true) (hc : c ∈ s.slots x) :
    c ∈ s.tree.childrenOf x := by
  obtain ⟨i, hi⟩ := List.mem_iff_getElem?.1 hc
  exact mem_of_slotOf (slotOf_slots hx hi)

theorem nodup_slots (hx : s.tree.contains x = true) : (s.slots x).Nodup := by
  rw [List.nodup_iff_getElem?_ne_getElem?]
  intro i j hij hj heq
  obtain ⟨c, hc⟩ : ∃ c, (s.slots x)[j]? = some c := ⟨_, List.getElem?_eq_getElem hj⟩
  have hsame := slotOf_inj (slotOf_slots hx (heq.trans hc)) (slotOf_slots hx hc)
  omega

/-- The slots are followed by a place without a value: there are fewer slots than attributes, and so
the walk does not run out of places before that. -/
theorem slot?_length_slots (h : s.tree.Linked) (hx : s.tree.contains x = true) :
    s.slot? x ((s.slots x).length + 1) = none := by
  have hmem : ∀ c ∈ s.slots x, c ∈ s.tree.childrenOf x := fun c hc =>
    mem_childrenOf_of_mem_slots hx hc
  have hnodup : (x :: s.slots x).Nodup :=
    List.nodup_cons.2 ⟨fun hself => h.ne_of_mem (hmem x hself) rfl, nodup_slots hx⟩
  have hin : ∀ q ∈ x :: s.slots x, s.tree.contains q = true := by
    intro q hq
    rcases List.mem_cons.1 hq with rfl | hq
    · exact hx
    · exact h.contains_of_mem (hmem q hq)
  have hle := Tree.length_le_size hnodup hin
  rw [List.length_cons] at hle
  rw [Nat.add_comm]
  exact slot?_of_length_lt hle

/-! ## What offers and polls do -/

theorem offer_ok_iff : offer t v x s = .ok () s' ↔ s.tree.contains x = true ∧
    (s.grown x (nextSlot s x)).Writable (s.tree.grow x (nextSlot s x)).1 t ∧
    s' = (s.grown x (nextSlot s x)).wrote t v (s.tree.grow x (nextSlot s x)).1 := by
  simp only [offer, bind_ok, ask_ok, get_ok, add_ok_iff, checkQuark_ok_iff, write_ok_iff]
  constructor
  · rintro ⟨-, _, ⟨hq, rfl⟩, _, _, ⟨rfl, rfl⟩, _, _, ⟨-, rfl, rfl⟩, hw, rfl⟩
    exact ⟨hq, hw, rfl⟩
  · rintro ⟨hq, hw, rfl⟩
    exact ⟨(), s, ⟨hq, rfl⟩, s, s, ⟨rfl, rfl⟩, _, _, ⟨hq, rfl, rfl⟩, hw, rfl⟩

theorem fst_shifted : (shifted s x).map Prod.fst = s.slots x := by
  rw [shifted, List.map_fst_zip]
  simp
  omega

theorem nodup_shifted (hx : s.tree.contains x = true) : ((shifted s x).map Prod.fst).Nodup := by
  rw [fst_shifted]
  exact nodup_slots hx

/-- A poll of slots that can all be written gives the first value and moves each other one place
forward. -/
theorem poll_of_writable (hx : s.tree.contains x = true) (hw : ∀ c ∈ s.slots x, s.Writable c t) :
    poll t x s = .ok (((s.slots x).map s.valueOf).headD .null) (s.wroteAll t (shifted s x)) := by
  have hshifted : ∀ w ∈ shifted s x, s.Writable w.1 t := fun w hmem => hw _ (List.of_mem_zip hmem).1
  simp only [poll, bind_ok, ask_ok, get_ok, pure_ok, checkQuark_ok_iff]
  refine ⟨(), s, ⟨hx, rfl⟩, s, s, ⟨rfl, rfl⟩, (), s, ?_, (), _, ?_, rfl, rfl⟩
  · exact forM_ask_ok_iff.2 ⟨rfl, fun c hc => checkWritable_ok_iff.2 (hw c hc)⟩
  · refine (forM_write_ok_iff (f := Prod.snd) (g := Prod.fst) hshifted).2 ?_
    simp [shifted]

end

end StateHistory.Store

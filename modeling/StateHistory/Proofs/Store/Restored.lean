import StateHistory.Proofs.Store.Attributes
import StateHistory.Proofs.Store.Intervals
import StateHistory.Store.Query

/-!
# A closed store comes back from its image

An image keeps neither the lists of children nor what is ongoing. Both can be spared: the tree of a
store has grown, so its entries determine it, and closing leaves no state ongoing. So what is
restored from the image of a store that was just closed is that very store, `ofImage_closed`.
-/

namespace StateHistory.Store

/-- A closed store without ongoing states is restored to itself. -/
theorem ofImage_of_settled {s : Store} (h : s.tree.Grown) (hc : s.Covered)
    (hclosed : s.closed = true) (ho : ∀ q, (s.timelineOf q).ongoing = none) :
    ofImage s.image = .ok s := by
  rw [ofImage_of_entries h.ofEntries_entries hc]
  have hid : ∀ l ∈ s.timelines, { l with ongoing := none } = id l := by
    intro l hl
    obtain ⟨i, hi, rfl⟩ := Array.mem_iff_getElem.1 hl
    have hnone := ho ⟨i⟩
    rw [timelineOf_eq hi] at hnone
    cases hli : s.timelines[i]
    simp_all
  have hsame : (s.timelines.map fun l => { l with ongoing := none }) = s.timelines := by
    rw [Array.map_congr_left hid, Array.map_id]
  rw [hsame, ← hclosed]

/-- **A store that was just closed comes back from its image.** Restoring succeeds and leads to the
store itself: the same tree, with its children in the same order, the same timelines and the same
bounds. So every question to the tree and every query has the answer that it had before, failures
included, and the image of what was restored is the image that it was restored from. -/
theorem ofImage_closed (calls : List Call) {t : Time} {s : Store}
    (hclose : close t (new.run calls) = .ok () s) :
    ofImage s.image = .ok s := by
  obtain ⟨-, rfl⟩ := close_ok_iff.1 hclose
  refine ofImage_of_settled (grown_run calls) ?_ rfl ?_
  · exact (covered_run calls).takes (.close (close_ok_iff.1 hclose).1)
  · intro q
    rw [timelineOf_ended]
    exact Timeline.close_ongoing t

/-- A stack and a counter beside it, and an attribute that is never written. -/
def stackAndCounter : List Call :=
  [.step (.add ⟨0⟩ ["p", "stack"]), .step (.add ⟨0⟩ ["n"]), .push 10 (.int 1) ⟨2⟩,
    .addLong 15 ⟨3⟩ 4, .push 20 .null ⟨2⟩, .pop 25 ⟨2⟩]

theorem ofImage_closed_stackAndCounter :
    ∃ s r, close 31 (new.run stackAndCounter) = .ok () s ∧ ofImage s.image = .ok r ∧
      r.tree.find? ⟨0⟩ ["p", "stack", "2"] = some ⟨5⟩ ∧
      top 22 ⟨2⟩ r = .ok (some ⟨⟨5⟩, 20, 24, .null⟩) ∧
      single 31 ⟨3⟩ r = .error (.timeRange 31 (some 10) (some 30)) := by
  have hclose : close 31 (new.run stackAndCounter) =
      .ok () ((new.run stackAndCounter).ended 31) := by
    refine close_ok_iff.2 ⟨?_, rfl⟩
    decide +kernel
  refine ⟨_, _, hclose, ofImage_closed stackAndCounter hclose, ?_, ?_, ?_⟩ <;> decide +kernel

end StateHistory.Store

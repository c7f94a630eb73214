import StateHistory.Proofs.Store.Composed
import StateHistory.Proofs.Timeline.Position

/-!
# The intervals of a store

Whatever a writer calls, each attribute keeps one seamless timeline. The invariant behind this is
`Sound`: as long as the store grows, whatever is closed is followed by an ongoing state, so that no
write can leave a hole; once the store is closed, only amending starts a state, and it starts it
where the last interval ended.
-/

namespace StateHistory.Store

/-- Each attribute has one timeline, without overlaps and holes, and as long as the store grows so
do its timelines. -/
structure Sound (s : Store) : Prop where
  covered : s.Covered
  seamless : ∀ q, (s.timelineOf q).Seamless q
  growing : s.closed = false → ∀ q, (s.timelineOf q).Growing

section
variable {s s' : Store} {a : Step}

theorem timelineOf_new (q : Quark) : new.timelineOf q = {} := by
  rcases Nat.lt_or_ge q.index new.timelines.size with h | h
  · rw [timelineOf_eq h]
    simp [new]
  · exact timelineOf_outside h

theorem sound_new : new.Sound := by
  refine ⟨covered_new, fun q => ?_, fun _ q => ?_⟩ <;> rw [timelineOf_new]
  · exact Timeline.seamless_empty q
  · exact Timeline.growing_empty

theorem Sound.takes (h : s.Sound) (ha : a.Takes s s') : s'.Sound := by
  refine ⟨h.covered.takes ha, fun p => ?_, fun hc p => ?_⟩
  · cases ha with
    | add hb => rw [timelineOf_grown]; exact h.seamless p
    | advance ho => rw [timelineOf_reach]; exact h.seamless p
    | write hw =>
      rw [timelineOf_wrote hw.covered]
      split
      · subst p
        exact (h.seamless _).opened (h.growing hw.building _) _ hw.onTime
      · exact h.seamless p
    | amend hq =>
      rw [timelineOf_amended (h.covered.contains_iff.1 hq)]
      split
      · subst p
        exact (h.seamless _).amend _ _
      · exact h.seamless p
    | close hle => rw [timelineOf_ended]; exact (h.seamless p).close _
  · cases ha with
    | add hb => rw [timelineOf_grown]; exact h.growing hc p
    | advance ho => rw [timelineOf_reach]; exact h.growing ho.building p
    | write hw =>
      rw [timelineOf_wrote hw.covered]
      split
      · exact Timeline.growing_opened _ _
      · exact h.growing hw.building p
    | amend hq =>
      rw [timelineOf_amended (h.covered.contains_iff.1 hq)]
      split
      · exact Timeline.growing_amend _ _
      · exact h.growing hc p
    | close hle => cases hc

theorem sound_run (calls : List Call) : (new.run calls).Sound :=
  run_induct sound_new Sound.takes calls

end

/-- **No overlaps and no holes.** After any calls there is one timeline for each attribute, its
closed intervals follow one another without a gap, the ongoing state follows the last of them, and
closing the store leaves no state ongoing. -/
theorem run_intervals (calls : List Call) :
    (new.run calls).timelines.size = (new.run calls).tree.size ∧
    (∀ q l, (new.run calls).timeline q = .ok l →
      (∀ iv ∈ l.closed, iv.quark = q ∧ iv.start ≤ iv.stop) ∧
      (∀ i a b, l.closed[i]? = some a → l.closed[i + 1]? = some b → a.stop + 1 = b.start) ∧
      l.closed.toList.Pairwise (fun a b => a.stop < b.start) ∧
      (∀ a ∈ l.closed, ∀ b ∈ l.closed, ∀ t, a.start ≤ t → t ≤ b.stop →
        ∃ iv ∈ l.closed, iv.start ≤ t ∧ t ≤ iv.stop) ∧
      ∀ o last, l.ongoing = some o → l.closed.back? = some last → o.start = last.stop + 1) ∧
    ∀ t s', close t (new.run calls) = .ok () s' → ∀ q l, s'.timeline q = .ok l →
      l.ongoing = none := by
  have hs := sound_run calls
  refine ⟨hs.covered, ?_, ?_⟩
  · intro q l hl
    obtain ⟨-, rfl⟩ := timeline_eq_ok_iff.1 hl
    have h := hs.seamless q
    refine ⟨fun iv hiv => ⟨h.quark_eq iv hiv, h.start_le iv hiv⟩, ?_, h.pairwise,
      fun a ha b hb t hat htb => h.no_hole ha hb hat htb, h.ongoing_start⟩
    intro i a b ha hb
    obtain ⟨hi, rfl⟩ := Array.getElem?_eq_some_iff.1 ha
    obtain ⟨hj, rfl⟩ := Array.getElem?_eq_some_iff.1 hb
    exact h.adjacent i hj
  · intro t s' hclose q l hl
    obtain ⟨-, rfl⟩ := close_ok_iff.1 hclose
    obtain ⟨-, rfl⟩ := timeline_eq_ok_iff.1 hl
    rw [timelineOf_ended]
    exact Timeline.close_ongoing t

end StateHistory.Store

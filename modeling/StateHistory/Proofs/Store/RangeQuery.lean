import StateHistory.Proofs.Store.Intervals
import StateHistory.Proofs.StateSystem.Question

/-!
# Range queries

A range query cuts a slice out of the closed intervals by two searches: one among their ends for the
first interval that does not end too early, one among their starts for the first that starts too
late. In an ordered timeline the slice is what filtering all closed intervals leaves
(`Ordered.closedWithin_eq`), whatever the bounds are, and the ongoing state comes last. So the
answer is a sublist of all that is recorded of an attribute (`range_eq`), in the order of time
(`recorded_pairwise`).
-/

namespace StateHistory

/-- Filtering by a property of the elements at the places from `i` up to `j` cuts these places
out. -/
theorem filter_eq_slice {α : Type} (p : α → Bool) : ∀ (xs : List α) (i j : Nat),
    (∀ k (hk : k < xs.length), p xs[k] = true ↔ i ≤ k ∧ k < j) → xs.filter p = (xs.take j).drop i
  | [], i, j, _ => by simp
  | x :: xs, i, 0, h => by
    have hnone : ∀ y ∈ x :: xs, ¬ p y = true := by
      intro y hy
      obtain ⟨k, hk, rfl⟩ := List.mem_iff_getElem.1 hy
      rw [h k hk]
      omega
    simpa using hnone
  | x :: xs, 0, j + 1, h => by
    have hx : p x = true := (h 0 (by simp)).2 (by omega)
    have htail := filter_eq_slice p xs 0 j fun k hk => by
      have := h (k + 1) (by simpa using hk)
      simpa using this
    simpa [hx] using htail
  | x :: xs, i + 1, j + 1, h => by
    have hx : p x = false := by
      have := h 0 (by simp)
      simpa using this
    have htail := filter_eq_slice p xs i j fun k hk => by
      have := h (k + 1) (by simpa using hk)
      simpa using this
    simpa [hx] using htail

namespace Timeline

section
variable {l : Timeline} {t : Time}

/-- A predicate on the starts holds for the intervals up to some position. -/
theorem Ordered.closedAt_start_mono (h : l.Ordered) (t : Time) :
    ∀ i j, i ≤ j → j < l.closed.size → l.closedAt (fun iv => iv.start ≤ t) j = true →
      l.closedAt (fun iv => iv.start ≤ t) i = true := by
  intro i j hij hj hp
  rw [closedAt_eq _ hj, decide_eq_true_eq] at hp
  rw [closedAt_eq _ (Nat.lt_of_le_of_lt hij hj), decide_eq_true_eq]
  rcases Nat.lt_or_eq_of_le hij with hlt | rfl
  · have := h.stop_lt_start hlt hj
    have := h.start_le_stop (Nat.lt_trans hlt hj)
    lia
  · exact hp

theorem Ordered.start_le_iff (h : l.Ordered) {i : Nat} (hi : i < l.closed.size) :
    l.closed[i].start ≤ t ↔ i < l.startedBy t := by
  constructor
  · intro hle
    by_contra hnot
    have := partitionPoint_from (h.closedAt_start_mono t) (Nat.not_lt.1 hnot) hi
    rw [closedAt_eq _ hi, decide_eq_false_iff_not] at this
    exact this hle
  · intro hlt
    have := partitionPoint_before (h.closedAt_start_mono t) hlt
    rwa [closedAt_eq _ hi, decide_eq_true_eq] at this

theorem Ordered.le_stop_iff (h : l.Ordered) {i : Nat} (hi : i < l.closed.size) :
    t ≤ l.closed[i].stop ↔ l.endedBefore t ≤ i := by
  constructor
  · intro hle
    by_contra hnot
    have := h.stop_lt_of_endedBefore hi (Nat.not_le.1 hnot)
    lia
  · exact h.le_stop_of_endedBefore hi

/-- **Two searches cut out what intersects the bounds**, whichever of the bounds comes first. -/
theorem Ordered.closedWithin_eq (h : l.Ordered) (start stop : Time) :
    l.closedWithin start stop = l.closed.toList.filter (·.intersects start stop) := by
  have hplaces : ∀ k (hk : k < l.closed.toList.length),
      l.closed.toList[k].intersects start stop = true ↔
      l.endedBefore start ≤ k ∧ k < l.startedBy stop := by
    intro k hk
    have hk' : k < l.closed.size := by simpa using hk
    rw [Array.getElem_toList, Interval.intersects, Bool.and_eq_true, decide_eq_true_eq,
      decide_eq_true_eq, h.start_le_iff hk', h.le_stop_iff hk', and_comm]
  rw [filter_eq_slice _ _ _ _ hplaces, closedWithin, Array.toList_extract,
    List.extract_eq_drop_take']

end

end Timeline

namespace Store

/-- All that is recorded of `q`, in the order of time: the closed intervals, and the ongoing state
as it is shown. -/
def recorded (s : Store) (q : Quark) : List Interval :=
  (s.timelineOf q).closed.toList ++
    ((s.timelineOf q).ongoing.map fun o => s.presented q o o.start).toList

section
variable {s : Store} {q : Quark} {qs : List Quark} {iv : Interval} {start stop : Time}

theorem mem_recorded : iv ∈ s.recorded q ↔
    iv ∈ (s.timelineOf q).closed ∨ ∃ o, (s.timelineOf q).ongoing = some o ∧
    iv = s.presented q o o.start := by
  unfold recorded
  cases (s.timelineOf q).ongoing <;> simp

/-- What is recorded is in order and does not overlap. -/
theorem recorded_pairwise (h : (s.timelineOf q).Ordered) :
    (s.recorded q).Pairwise fun a b => a.stop < b.start := by
  refine List.pairwise_append.2 ⟨h.pairwise, ?_, ?_⟩
  · cases (s.timelineOf q).ongoing <;> simp
  · intro a ha b hb
    simp only [Option.mem_toList, Option.map_eq_some_iff] at hb
    obtain ⟨o, ho, rfl⟩ := hb
    exact h.stop_lt_ongoing (by simpa using ha) ho

/-- The answer to a range query in terms of what is recorded. -/
theorem range_eq (h : (s.timelineOf q).Ordered) (hq : q.index < s.timelines.size)
    (start stop : Time) :
    s.range q start stop = .ok ((s.recorded q).filter (·.intersects start stop)) := by
  rw [range, timeline_eq_ok_iff.2 ⟨hq, rfl⟩, recorded, List.filter_append, ← h.closedWithin_eq]
  rfl

/-- Bounds in the wrong order are refused by a reader. -/
theorem history_eq {sys : StateSystem} (hlive : sys.live = .ok s)
    (h : s.range q start stop = .ok ((s.recorded q).filter (·.intersects start stop))) :
    sys.history q start stop =
      if stop < start then .error (.timeRange stop (some start) s.stop)
      else .ok ((s.recorded q).filter (·.intersects start stop)) := by
  rw [StateSystem.history, hlive]
  by_cases hinverted : stop < start
  · rw [if_pos hinverted]
    simp only [bind, Except.bind, if_pos hinverted]
    rfl
  · rw [if_neg hinverted, ← h]
    simp [bind, Except.bind, hinverted]

end

end Store

end StateHistory

import StateHistory.Proofs.Bisection
import StateHistory.Timeline.Basic

/-!
# Timelines in the order of time

In an ordered timeline the closed intervals stand in the order of time and apart from each other,
and the ongoing state begins after all of them. There may be holes: a timeline that was closed can
be opened again later. The order is all that bisection needs: the intervals that it passes over end
before the time that is searched for (`Ordered.stop_lt_of_passed`), the others do not
(`Ordered.le_stop_of_ahead`), and a lookup sees just those on either side (`lookup_eq`).
-/

namespace StateHistory

theorem Interval.contains_iff {iv : Interval} {t : Time} :
    iv.contains t = true ↔ iv.start ≤ t ∧ t ≤ iv.stop := by
  rw [Interval.contains, Bool.and_eq_true, decide_eq_true_eq, decide_eq_true_eq]

namespace Timeline

/-- No closed interval is empty, each ends before the next one starts, and the ongoing state starts
after the last one. -/
structure Ordered (l : Timeline) : Prop where
  start_le : ∀ iv ∈ l.closed, iv.start ≤ iv.stop
  pairwise : l.closed.toList.Pairwise fun a b => a.stop < b.start
  last_lt : ∀ o iv, l.ongoing = some o → l.last? = some iv → iv.stop < o.start

/-- The closed intervals that a search for `t` passes over. -/
def passed (l : Timeline) (t : Time) : List Interval := l.closed.toList.take (l.endedBefore t)

/-- The closed intervals from where a search for `t` ends. -/
def ahead (l : Timeline) (t : Time) : List Interval := l.closed.toList.drop (l.endedBefore t)

section
variable {l : Timeline} {t : Time}

/-! ## The last closed interval -/

theorem last?_eq_some {iv : Interval} (h : l.last? = some iv) :
    ∃ hs : l.closed.size - 1 < l.closed.size, l.closed[l.closed.size - 1] = iv := by
  rw [last?, Array.back?_eq_getElem?] at h
  exact Array.getElem?_eq_some_iff.1 h

theorem last?_isSome (h : 0 < l.closed.size) : l.last? = some l.closed[l.closed.size - 1] := by
  rw [last?, Array.back?_eq_getElem?]
  exact Array.getElem?_eq_getElem _

theorem last?_of_mem {iv : Interval} (h : iv ∈ l.closed) : ∃ last, l.last? = some last := by
  obtain ⟨i, hi, -⟩ := Array.mem_iff_getElem.1 h
  exact ⟨_, last?_isSome (by omega)⟩

/-! ## The order of the closed intervals -/

theorem Ordered.start_le_stop (h : l.Ordered) {i : Nat} (hi : i < l.closed.size) :
    l.closed[i].start ≤ l.closed[i].stop := h.start_le _ (Array.getElem_mem hi)

theorem Ordered.stop_lt_start (h : l.Ordered) {i j : Nat} (hij : i < j) (hj : j < l.closed.size) :
    l.closed[i].stop < l.closed[j].start :=
  List.pairwise_iff_getElem.1 h.pairwise i j (by simpa using Nat.lt_trans hij hj)
    (by simpa using hj) hij

/-- Two closed intervals that share a time are the same. -/
theorem Ordered.eq_of_share (h : l.Ordered) {a b : Interval} (ha : a ∈ l.closed) (hb : b ∈ l.closed)
    (hab : a.start ≤ b.stop) (hba : b.start ≤ a.stop) : a = b := by
  obtain ⟨i, hi, rfl⟩ := Array.mem_iff_getElem.1 ha
  obtain ⟨j, hj, rfl⟩ := Array.mem_iff_getElem.1 hb
  rcases Nat.lt_trichotomy i j with hij | rfl | hij
  · have := h.stop_lt_start hij hj; lia
  · rfl
  · have := h.stop_lt_start hij hi; lia

theorem Ordered.stop_le_last (h : l.Ordered) {iv last : Interval} (hiv : iv ∈ l.closed)
    (hl : l.last? = some last) : iv.stop ≤ last.stop := by
  obtain ⟨i, hi, rfl⟩ := Array.mem_iff_getElem.1 hiv
  obtain ⟨hs, rfl⟩ := last?_eq_some hl
  rcases Nat.lt_or_eq_of_le (Nat.le_sub_one_of_lt hi) with hlt | heq
  · have := h.stop_lt_start hlt hs
    have := h.start_le_stop hs
    lia
  · simp [heq]

theorem Ordered.stop_lt_ongoing (h : l.Ordered) {iv : Interval} {o : Ongoing} (hiv : iv ∈ l.closed)
    (ho : l.ongoing = some o) : iv.stop < o.start := by
  obtain ⟨last, hl⟩ := last?_of_mem hiv
  have := h.stop_le_last hiv hl
  have := h.last_lt o last ho hl
  lia

/-! ## The search -/

theorem closedAt_eq (p : Interval → Bool) {i : Nat} (hi : i < l.closed.size) :
    l.closedAt p i = p l.closed[i] := by
  simp [closedAt, Array.getElem?_eq_getElem hi]

/-- A predicate on the ends holds for the intervals up to some position. -/
theorem Ordered.closedAt_stop_mono (h : l.Ordered) (t : Time) :
    ∀ i j, i ≤ j → j < l.closed.size → l.closedAt (fun iv => iv.stop < t) j = true →
      l.closedAt (fun iv => iv.stop < t) i = true := by
  intro i j hij hj hp
  rw [closedAt_eq _ hj, decide_eq_true_eq] at hp
  rw [closedAt_eq _ (Nat.lt_of_le_of_lt hij hj), decide_eq_true_eq]
  rcases Nat.lt_or_eq_of_le hij with hlt | rfl
  · have := h.stop_lt_start hlt hj
    have := h.start_le_stop hj
    lia
  · exact hp

theorem endedBefore_le (l : Timeline) (t : Time) : l.endedBefore t ≤ l.closed.size :=
  partitionPoint_le

theorem Ordered.stop_lt_of_endedBefore (h : l.Ordered) {i : Nat} (hi : i < l.closed.size)
    (hlt : i < l.endedBefore t) : l.closed[i].stop < t := by
  have := partitionPoint_before (h.closedAt_stop_mono t) hlt
  rwa [closedAt_eq _ hi, decide_eq_true_eq] at this

theorem Ordered.le_stop_of_endedBefore (h : l.Ordered) {i : Nat} (hi : i < l.closed.size)
    (hle : l.endedBefore t ≤ i) : t ≤ l.closed[i].stop := by
  have := partitionPoint_from (h.closedAt_stop_mono t) hle hi
  rw [closedAt_eq _ hi, decide_eq_false_iff_not] at this
  lia

/-! ## What the search passes over -/

theorem passed_append_ahead (l : Timeline) (t : Time) : l.passed t ++ l.ahead t = l.closed.toList :=
  List.take_append_drop ..

/-- A lookup sees no more of the closed intervals than the last that is passed over and the first
that is not. -/
theorem lookup_eq (l : Timeline) (t : Time) : l.lookup t =
    match (l.ahead t).head?.filter fun iv => iv.start ≤ t with
    | some iv => .closed iv
    | none =>
      match l.ongoing.filter fun o => o.start ≤ t with
      | some o => .ongoing o
      | none => .gap ((l.passed t).getLast?.map (·.stop))
          (((l.ahead t).head?.map (·.start)).or (l.ongoing.map (·.start))) := by
  have hnext : l.closed[l.endedBefore t]? = (l.ahead t).head? := by
    rw [ahead, List.head?_drop, Array.getElem?_toList]
  have hprevious : (if l.endedBefore t = 0 then none else l.closed[l.endedBefore t - 1]?) =
      (l.passed t).getLast? := by
    rw [passed, List.getLast?_take, Array.getElem?_toList]
    split
    · rfl
    · have hlt : l.endedBefore t - 1 < l.closed.size := by
        have := l.endedBefore_le t
        omega
      rw [Array.getElem?_eq_getElem hlt]
      rfl
  rw [← hnext, ← hprevious]
  rfl

theorem Ordered.stop_lt_of_passed (h : l.Ordered) {iv : Interval} (hiv : iv ∈ l.passed t) :
    iv.stop < t := by
  obtain ⟨i, hi, rfl⟩ := List.mem_take_iff_getElem.1 hiv
  have hsize : i < l.closed.size := by
    rw [Array.length_toList] at hi
    omega
  rw [Array.getElem_toList]
  exact h.stop_lt_of_endedBefore hsize (by omega)

theorem Ordered.le_stop_of_ahead (h : l.Ordered) {iv : Interval} (hiv : iv ∈ l.ahead t) :
    t ≤ iv.stop := by
  obtain ⟨i, hi, rfl⟩ := List.mem_drop_iff_getElem.1 hiv
  rw [Array.getElem_toList]
  exact h.le_stop_of_endedBefore (by rwa [Nat.add_comm] at hi) (by omega)

theorem Ordered.pairwise_split (h : l.Ordered) (t : Time) :
    (l.passed t).Pairwise (fun a b => a.stop < b.start) ∧ (l.ahead t).Pairwise fun a b =>
      a.stop < b.start := by
  have hpairwise := h.pairwise
  rw [← passed_append_ahead l t, List.pairwise_append] at hpairwise
  exact ⟨hpairwise.1, hpairwise.2.1⟩

theorem mem_closed_of_passed {iv : Interval} (hiv : iv ∈ l.passed t) : iv ∈ l.closed :=
  Array.mem_toList_iff.1 (List.mem_of_mem_take hiv)

theorem mem_closed_of_ahead {iv : Interval} (hiv : iv ∈ l.ahead t) : iv ∈ l.closed :=
  Array.mem_toList_iff.1 (List.mem_of_mem_drop hiv)

end

end Timeline

end StateHistory

import Mathlib.Data.List.Basic
import StateHistory.Time

/-!
# Stable sorting by time

A list in order of time is told by its elements of each time (`eq_of_filter_time`). So the stable
sort is the one list in order that has them as the given list has (`eq_sortedBy`), and whatever is
told element by element can be done before sorting or after it.
-/

namespace StateHistory

/-- Sorting by a time that leaves the elements of one time as they were. -/
def sortedBy {α : Type} (time : α → Time) (l : List α) : List α :=
  l.mergeSort fun a b => time a ≤ time b

section
variable {α : Type} {time : α → Time} {a : α} {l l' : List α}

/-- In a list in order, the first element comes no later than any. -/
theorem head_le_of_mem (h : (a :: l).Pairwise (time · ≤ time ·)) :
    ∀ b ∈ a :: l, time a ≤ time b := by
  intro b hb
  rcases List.mem_cons.1 hb with rfl | hb
  · exact Int.le_refl _
  · exact (List.pairwise_cons.1 h).1 b hb

theorem mem_iff_of_filter_time (hsame : ∀ t, l.filter (time · = t) = l'.filter (time · = t)) :
    a ∈ l ↔ a ∈ l' := by
  simpa using congrArg (a ∈ ·) (hsame (time a))

/-- **Lists in order are equal when they have the same elements of each time, in the same
order.** -/
theorem eq_of_filter_time (h : l.Pairwise (time · ≤ time ·)) (h' : l'.Pairwise (time · ≤ time ·))
    (hsame : ∀ t, l.filter (time · = t) = l'.filter (time · = t)) : l = l' := by
  induction l generalizing l' with
  | nil =>
    cases l' with
    | nil => rfl
    | cons b l' =>
      exact absurd ((mem_iff_of_filter_time hsame).2 (List.mem_cons_self ..)) List.not_mem_nil
  | cons a l ih =>
    cases l' with
    | nil =>
      exact absurd ((mem_iff_of_filter_time hsame).1 (List.mem_cons_self ..)) List.not_mem_nil
    | cons b l' =>
      have htime : time a = time b :=
        Int.le_antisymm
          (head_le_of_mem h b ((mem_iff_of_filter_time hsame).2 (List.mem_cons_self ..)))
          (head_le_of_mem h' a ((mem_iff_of_filter_time hsame).1 (List.mem_cons_self ..)))
      have hhead := hsame (time a)
      simp only [List.filter_cons, htime, decide_true, ↓reduceIte] at hhead
      obtain ⟨rfl, -⟩ := List.cons.inj hhead
      refine congrArg _ (ih (List.pairwise_cons.1 h).2 (List.pairwise_cons.1 h').2 fun t => ?_)
      have hrest := hsame t
      simp only [List.filter_cons] at hrest
      split at hrest
      · exact (List.cons.inj hrest).2
      · exact hrest

/-! ## Sorting -/

theorem time_le_trans (a b c : α) (hab : decide (time a ≤ time b) = true)
    (hbc : decide (time b ≤ time c) = true) :
    decide (time a ≤ time c) = true := by
  simp only [decide_eq_true_eq] at hab hbc ⊢
  exact Int.le_trans hab hbc

theorem time_le_total (a b : α) :
    (decide (time a ≤ time b) || decide (time b ≤ time a)) = true := by
  simpa using Int.le_total (time a) (time b)

theorem pairwise_sortedBy (time : α → Time) (l : List α) :
    (sortedBy time l).Pairwise (time · ≤ time ·) :=
  (List.pairwise_mergeSort time_le_trans time_le_total l).imp fun h => by simpa using h

/-- Sorting is stable: it leaves the elements of one time as they were. -/
theorem filter_time_sortedBy (time : α → Time) (l : List α) (t : Time) :
    (sortedBy time l).filter (time · = t) = l.filter (time · = t) := by
  have hpairwise : (l.filter (time · = t)).Pairwise fun a b => decide (time a ≤ time b) = true := by
    refine List.pairwise_of_forall_mem_list fun a ha b hb => ?_
    have ha : time a = t := by simpa using (List.mem_filter.1 ha).2
    have hb : time b = t := by simpa using (List.mem_filter.1 hb).2
    simp [ha, hb]
  have hsub : (l.filter (time · = t)).Sublist (sortedBy time l) :=
    List.sublist_mergeSort time_le_trans time_le_total hpairwise List.filter_sublist
  have hsub' : (l.filter (time · = t)).Sublist ((sortedBy time l).filter (time · = t)) := by
    simpa using hsub.filter (time · = t)
  have hperm : ((sortedBy time l).filter (time · = t)).Perm (l.filter (time · = t)) :=
    (List.mergeSort_perm l _).filter _
  exact (hsub'.eq_of_length hperm.length_eq.symm).symm

/-- **The stable sort of a list is the list in order with the same elements of each time.** -/
theorem eq_sortedBy (h : l.Pairwise (time · ≤ time ·))
    (hsame : ∀ t, l.filter (time · = t) = l'.filter (time · = t)) : l = sortedBy time l' :=
  eq_of_filter_time h (pairwise_sortedBy time l') fun t =>
    (hsame t).trans (filter_time_sortedBy time l' t).symm

theorem sortedBy_of_pairwise (h : l.Pairwise (time · ≤ time ·)) : sortedBy time l = l :=
  (eq_sortedBy h fun _ => rfl).symm

@[simp] theorem sortedBy_nil (time : α → Time) : sortedBy time [] = [] := List.mergeSort_nil

@[simp] theorem mem_sortedBy : a ∈ sortedBy time l ↔ a ∈ l := List.mem_mergeSort

/-! ## What can be done before sorting -/

theorem filter_sortedBy (p : α → Bool) :
    (sortedBy time l).filter p = sortedBy time (l.filter p) := by
  refine eq_sortedBy ((pairwise_sortedBy time l).filter p) fun t => ?_
  rw [List.filter_filter, List.filter_filter]
  simp only [Bool.and_comm (decide _)]
  rw [← List.filter_filter, ← List.filter_filter, filter_time_sortedBy]

theorem filter_time_filter (p : Time → Bool) (t : Time) :
    (l.filter fun a => p (time a)).filter (time · = t) = if p t then l.filter (time · =
      t) else [] := by
  rw [List.filter_filter]
  split
  · refine List.filter_congr fun a _ => ?_
    by_cases h : time a = t <;> simp_all
  · refine List.filter_eq_nil_iff.2 fun a _ => ?_
    by_cases h : time a = t <;> simp_all

/-- Sorting puts what comes by `t` before what comes later. -/
theorem sortedBy_eq_append (l : List α) (t : Time) :
    sortedBy time l = sortedBy time (l.filter (time · ≤ t)) ++ sortedBy time
      (l.filter (t < time ·)) := by
  refine (eq_sortedBy ?_ fun t' => ?_).symm
  · refine List.pairwise_append.2 ⟨pairwise_sortedBy .., pairwise_sortedBy .., fun a ha b hb => ?_⟩
    have ha : time a ≤ t := by simpa using (List.mem_filter.1 (mem_sortedBy.1 ha)).2
    have hb : t < time b := by simpa using (List.mem_filter.1 (mem_sortedBy.1 hb)).2
    exact Int.le_of_lt (Int.lt_of_le_of_lt ha hb)
  · rw [List.filter_append, filter_time_sortedBy, filter_time_sortedBy, filter_time_filter (· ≤ t),
      filter_time_filter (t < ·)]
    by_cases hle : t' ≤ t
    · simp [hle, Int.not_lt.2 hle]
    · simp [hle, Int.not_le.1 hle]

/-- A list in order has what comes by `t` before what comes later. -/
theorem eq_append_of_pairwise (h : l.Pairwise (time · ≤ time ·)) (t : Time) :
    l = l.filter (time · ≤ t) ++ l.filter (t < time ·) := by
  have hsplit : sortedBy time l = _ := sortedBy_eq_append l t
  rwa [sortedBy_of_pairwise h, sortedBy_of_pairwise (h.filter _), sortedBy_of_pairwise (h.filter _)]
    at hsplit

theorem drop_length_filter_time (h : l.Pairwise (time · ≤ time ·)) (t : Time) :
    l.drop (l.filter (time · ≤ t)).length = l.filter (t < time ·) := by
  have hdrop := congrArg (List.drop (l.filter (time · ≤ t)).length) (eq_append_of_pairwise h t)
  rwa [List.drop_left] at hdrop

/-- In a list in order, what comes by a time comes by an earlier one or between the two. -/
theorem filter_time_le_eq_append (h : l.Pairwise (time · ≤ time ·)) {t t' : Time} (hle : t ≤ t') :
    l.filter (time · ≤ t') = l.filter (time · ≤ t) ++ (l.filter (t < time ·)).filter
      (time · ≤ t') := by
  have hearly : (l.filter (time · ≤ t)).filter (time · ≤ t') = l.filter (time · ≤ t) := by
    refine List.filter_eq_self.2 fun a ha => ?_
    have ha : time a ≤ t := by simpa using (List.mem_filter.1 ha).2
    simpa using Int.le_trans ha hle
  have hsplit := congrArg (List.filter (time · ≤ t')) (eq_append_of_pairwise h t)
  rwa [List.filter_append, hearly] at hsplit

theorem sortedBy_erase [DecidableEq α] : sortedBy time (l.erase a) = (sortedBy time l).erase a := by
  refine (eq_sortedBy ((pairwise_sortedBy time l).sublist List.erase_sublist) fun t => ?_).symm
  rw [← List.erase_filter, filter_time_sortedBy, List.erase_filter]

/-- Taking away what sorting puts first leaves the rest. -/
theorem sortedBy_diff [DecidableEq α] {taken rest : List α} (h : sortedBy time l = taken ++ rest) :
    sortedBy time (l.diff taken) = rest := by
  induction taken generalizing l with
  | nil => simpa using h
  | cons a taken ih =>
    rw [List.diff_cons]
    refine ih ?_
    rw [sortedBy_erase, h, List.cons_append, List.erase_cons_head]

end

end StateHistory

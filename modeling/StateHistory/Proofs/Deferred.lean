import StateHistory.Deferred
import StateHistory.Proofs.TimeOrder

/-!
# The queue of deferred changes

A change is put where the changes stay in the order of their times, so the first of them tells
whether any is due.
-/

namespace StateHistory.Deferred

section
variable {c d : Change} {changes : List Change} {q : Deferred} {t : Time}

theorem mem_insert : d ∈ insert c changes ↔ d = c ∨ d ∈ changes := by
  induction changes with
  | nil => simp [insert]
  | cons e rest ih =>
    unfold insert
    split
    · rw [List.mem_cons, ih, List.mem_cons, or_left_comm]
    · rw [List.mem_cons]

/-- What the first change comes after, all come after. -/
theorem lt_of_lt_head (h : (d :: changes).Pairwise (·.time ≤ ·.time)) (hlt : t < d.time) :
    ∀ c ∈ d :: changes, t < c.time :=
  fun c hc => Int.lt_of_lt_of_le hlt (head_le_of_mem h c hc)

theorem ascending_insert (h : changes.Pairwise (·.time ≤ ·.time)) :
    (insert c changes).Pairwise (·.time ≤ ·.time) := by
  induction changes with
  | nil => simp [insert]
  | cons e rest ih =>
    obtain ⟨hhead, hrest⟩ := List.pairwise_cons.1 h
    unfold insert
    by_cases hle : e.time ≤ c.time
    · rw [if_pos hle]
      refine List.pairwise_cons.2 ⟨fun d hd => ?_, ih hrest⟩
      rcases mem_insert.1 hd with rfl | hd
      · exact hle
      · exact hhead d hd
    · rw [if_neg hle]
      exact List.pairwise_cons.2
        ⟨fun d hd => Int.le_of_lt (lt_of_lt_head h (Int.not_le.1 hle) d hd), h⟩

/-- A change that comes before all that wait is the next one. -/
theorem insert_of_lt (h : ∀ d ∈ changes, c.time < d.time) : insert c changes = c :: changes := by
  cases changes with
  | nil => rfl
  | cons d rest => rw [insert, if_neg (Int.not_le.2 (h d (by simp)))]

/-- What is taken was the first of all. -/
theorem changes_of_next {q' : Deferred} (h : q.next = some (c, q')) :
    q.changes = c :: q'.changes := by
  unfold next at h
  split at h
  · obtain ⟨rfl, rfl⟩ := Prod.mk.inj (Option.some.inj h)
    assumption
  · cases h

/-! ## What is due -/

theorem nextDue_of_le {rest : List Change} (h : q.changes = c :: rest) (hle : c.time ≤ t) :
    q.nextDue t = some (c, ⟨rest⟩) := by
  simp [nextDue, next, h, hle, Option.filter_some]

theorem nextDue_eq_none (h : ∀ c ∈ q.changes, t < c.time) : q.nextDue t = none := by
  cases hchanges : q.changes with
  | nil => simp [nextDue, next, hchanges]
  | cons c rest =>
    have hlt := Int.not_le.2 (h c (by simp [hchanges]))
    simp [nextDue, next, hchanges, hlt, Option.filter_some]

/-- Nothing is due, or the first change is. -/
theorem due_cases (h : q.changes.Pairwise (·.time ≤ ·.time)) (t : Time) :
    (∀ c ∈ q.changes, t < c.time) ∨ ∃ c rest, q.changes = c :: rest ∧ c.time ≤ t := by
  cases hchanges : q.changes with
  | nil => exact Or.inl (by simp)
  | cons c rest =>
    by_cases hle : c.time ≤ t
    · exact Or.inr ⟨c, rest, rfl, hle⟩
    · exact Or.inl (lt_of_lt_head (hchanges ▸ h) (Int.not_le.1 hle))

end

end StateHistory.Deferred

import StateHistory.Timeline.Bisect

/-!
# Bisection finds the boundary

The search looks at few positions, but the boundary it ends at splits all of them when the predicate
turns only once: everything before it satisfies the predicate (`partitionPoint_before`), nothing
from it on does (`partitionPoint_from`).
-/

namespace StateHistory

/-- Wherever the search ends, it has seen the predicate hold there, unless it never moved, and fail
just after, unless the interval ends there. -/
theorem bisect_boundary (p : Nat → Bool) : ∀ (fuel base size : Nat), 0 < size → size ≤ fuel + 1 →
    base ≤ bisect p fuel base size ∧ bisect p fuel base size < base + size ∧
    (bisect p fuel base size = base ∨ p (bisect p fuel base size) = true) ∧
    (bisect p fuel base size + 1 = base + size ∨ p (bisect p fuel base size + 1) = false)
  | 0, base, size, hpos, hle => by
    have : size = 1 := by omega
    subst this
    simp [bisect]
  | fuel + 1, base, size, hpos, hle => by
    by_cases h1 : size ≤ 1
    · have : size = 1 := by omega
      subst this
      simp [bisect]
    · simp only [bisect, h1, ↓reduceIte]
      cases hmid : p (base + size / 2)
      · obtain ⟨hlo, hhi, hat, hnext⟩ :=
          bisect_boundary p fuel base (size - size / 2) (by omega) (by omega)
        simp only [Bool.false_eq_true, ↓reduceIte]
        refine ⟨hlo, by omega, hat, ?_⟩
        rcases hnext with hend | hnext
        · -- an odd size leaves the middle inside, but the search cannot have ended there
          by_cases hr : bisect p fuel base (size - size / 2) = base + size / 2
          · rcases hat with hat | hat
            · omega
            · rw [hr, hmid] at hat; cases hat
          · have : bisect p fuel base (size - size / 2) + 1 = base + size / 2 := by omega
            exact Or.inr (by rw [this, hmid])
        · exact Or.inr hnext
      · obtain ⟨hlo, hhi, hat, hnext⟩ :=
          bisect_boundary p fuel (base + size / 2) (size - size / 2) (by omega) (by omega)
        simp only [↓reduceIte]
        refine ⟨by omega, by omega, Or.inr ?_, ?_⟩
        · rcases hat with hat | hat
          · rw [hat, hmid]
          · exact hat
        · rcases hnext with hend | hnext
          · exact Or.inl (by omega)
          · exact Or.inr hnext

/-- The result of the search is a boundary of the predicate, whatever the predicate says. -/
theorem partitionPoint_boundary (p : Nat → Bool) (size : Nat) :
    partitionPoint p size ≤ size ∧
    (partitionPoint p size = 0 ∨ p (partitionPoint p size - 1) = true) ∧
    (partitionPoint p size = size ∨ p (partitionPoint p size) = false) := by
  unfold partitionPoint
  by_cases h0 : size = 0
  · simp [h0]
  · simp only [h0, ↓reduceIte]
    obtain ⟨-, hhi, hat, hnext⟩ := bisect_boundary p size 0 size (by omega) (by omega)
    simp only [Nat.zero_add] at hhi hnext
    cases hp : p (bisect p size 0 size)
    · simp only [Bool.false_eq_true, ↓reduceIte]
      refine ⟨by omega, Or.inl ?_, Or.inr hp⟩
      rcases hat with hat | hat
      · exact hat
      · rw [hp] at hat; cases hat
    · simp only [↓reduceIte, Nat.add_sub_cancel]
      exact ⟨hhi, Or.inr hp, hnext⟩

section
variable {p : Nat → Bool} {size i : Nat}

theorem partitionPoint_le : partitionPoint p size ≤ size := (partitionPoint_boundary p size).1

theorem partitionPoint_before (hp : ∀ i j, i ≤ j → j < size → p j = true → p i = true)
    (hi : i < partitionPoint p size) : p i = true := by
  obtain ⟨hle, hat | hat, -⟩ := partitionPoint_boundary p size
  · omega
  · exact hp i _ (by omega) (by omega) hat

theorem partitionPoint_from (hp : ∀ i j, i ≤ j → j < size → p j = true → p i = true)
    (hi : partitionPoint p size ≤ i) (hs : i < size) : p i = false := by
  obtain ⟨-, -, hat | hat⟩ := partitionPoint_boundary p size
  · omega
  · cases h : p i
    · rfl
    · rw [hp _ i hi hs h] at hat; cases hat

end

end StateHistory

/-!
# Bisection

Where a predicate on positions turns from true to false. The interval under search shrinks by half
its size at each step, whatever the predicate says, and the result is a boundary: the position
before it satisfies the predicate and the position itself does not, where there is one. The result
is the only boundary when the predicate turns just once.
-/

namespace StateHistory

/-- The last position that the search holds for true in the `size` positions from `base`, after at
most `fuel` halvings. -/
def bisect (p : Nat → Bool) : Nat → Nat → Nat → Nat
  | 0, base, _ => base
  | fuel + 1, base, size =>
    if size ≤ 1 then base
    else
      let half := size / 2
      bisect p fuel (if p (base + half) then base + half else base) (size - half)

/-- The boundary of `p` among the positions below `size`. -/
def partitionPoint (p : Nat → Bool) (size : Nat) : Nat :=
  if size = 0 then 0
  else
    let base := bisect p size 0 size
    if p base then base + 1 else base

end StateHistory

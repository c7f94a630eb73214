/-!
# Shortest decimal of a double

The shortest run of decimal digits that reads back as a given double. A finite nonzero double is
`m · 2 ^ q`; every real number between its two midpoints rounds to it. The grids of multiples of a
power of ten are tried from the coarsest to the finest, and on each of them only the two neighbours
of the double can lie between the midpoints: if any point of the grid does, one of these does.
-/

namespace StateHistory.Decimal

/-- A double, decoded from its 64 bits. -/
inductive Decoded where
  | nan
  | infinite (negative : Bool)
  | zero (negative : Bool)
  /-- The number `significand · 2 ^ exponent`; `edge` tells whether the double below it is only
  half as far away as the one above. -/
  | finite (negative : Bool) (significand : Nat) (exponent : Int) (edge : Bool)
deriving DecidableEq, Repr

/-- The sign bit of a double. -/
def signBit : Nat := 0x8000000000000000

/-- The bit in front of the fraction of a double, which has 52 bits. -/
def leadingBit : Nat := 0x10000000000000

/-- Sign, exponent and fraction of the 64 bits of a double. -/
def decode (bits : UInt64) : Decoded :=
  let n := bits.toNat
  let negative := decide (signBit ≤ n)
  let exponent : Nat := n / leadingBit % 2048
  let fraction : Nat := n % leadingBit
  if exponent = 2047 then
    if fraction = 0 then .infinite negative else .nan
  else if exponent = 0 then
    if fraction = 0 then .zero negative else .finite negative fraction (-1074) false
  else
    .finite negative (leadingBit + fraction) ((exponent : Int) - 1075)
      (decide (fraction = 0 ∧ exponent ≠ 1))

/-- A decimal number `digits · 10 ^ exponent`. -/
structure Scientific where
  digits : Nat
  exponent : Int
deriving DecidableEq, Repr

/-- The positive rational `num / den`, where `den` is not zero. -/
structure Ratio where
  num : Nat
  den : Nat

/-- `r · base ^ k`. -/
def Ratio.scale (r : Ratio) (base : Nat) (k : Int) : Ratio :=
  if 0 ≤ k then ⟨r.num * Nat.pow base k.toNat, r.den⟩
  else ⟨r.num, r.den * Nat.pow base (-k).toNat⟩

/-- Does the grid point `n` stand for the double? All arguments are counted in grid steps: the
double is `value`, and it owns the reals from `low` to `high`, ends included when `even`. -/
def owns (low high : Ratio) (even : Bool) (n : Nat) : Bool :=
  if even then low.num ≤ n * low.den && n * high.den ≤ high.num
  else low.num < n * low.den && n * high.den < high.num

/-- Which of two equally near grid points is taken. -/
inductive Tie where
  /-- The one with an even last digit. -/
  | toEven
  /-- The one farther from zero. -/
  | away
deriving DecidableEq, Repr

/-- Is `n` taken before `n + 1`? The nearer to `r` is, and between equals the tie decides. -/
def Tie.takesBelow (tie : Tie) (r : Ratio) (n : Nat) : Bool :=
  match compare (2 * r.num) ((2 * n + 1) * r.den), tie with
  | .lt, _ => true
  | .gt, _ => false
  | .eq, .toEven => n % 2 == 0
  | .eq, .away => false

/-- The point of one grid that stands for the double, if there is one: the nearer of the two
neighbours when both do. -/
def pick (tie : Tie) (value low high : Ratio) (even : Bool) : Option Nat :=
  let n := value.num / value.den
  match owns low high even n && n ≠ 0, owns low high even (n + 1) with
  | true, true => if tie.takesBelow value n then some n else some (n + 1)
  | true, false => some n
  | false, true => some (n + 1)
  | false, false => none

/-- Tries the grids of step `10 ^ k`, `10 ^ (k - 1)`, …, at most `tries` of them. The first hit has
no trailing zero, since without it the point would lie on the grid before. -/
def search (tie : Tie) (value low high : Ratio) (even : Bool) : Nat → Int → Scientific
  | 0, k => ⟨(value.scale 10 (-k)).num / (value.scale 10 (-k)).den, k⟩
  | tries + 1, k =>
    match pick tie (value.scale 10 (-k)) (low.scale 10 (-k)) (high.scale 10 (-k)) even with
    | some n => ⟨n, k⟩
    | none => search tie value low high even tries (k - 1)

/-- The fewest digits that read back as `significand · 2 ^ exponent`, and of those the nearest. -/
def shortest (tie : Tie) (significand : Nat) (exponent : Int) (edge : Bool) : Scientific :=
  let quarter (n : Nat) : Ratio := (Ratio.mk n 4).scale 2 exponent
  let value := quarter (4 * significand)
  let low := quarter (4 * significand - if edge then 1 else 2)
  let high := quarter (4 * significand + 2)
  let even := significand % 2 == 0
  -- A power of ten above the value: 2 ^ 64 lies below 10 ^ 20, and 10 ^ 3 below 2 ^ 10.
  let top : Int := if 0 ≤ exponent then 20 + exponent * 31 / 100 else 20 + exponent * 30 / 100
  search tie value low high even 64 top

end StateHistory.Decimal

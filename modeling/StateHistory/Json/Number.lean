import StateHistory.Json.Value

/-!
# JSON numbers

How the literal of a number is read. A literal without fraction and exponent is a whole number if
64 bits hold it. Any other is a double: the leading digits that fit in 64 bits, scaled by a single
power of ten. A number too large for a double is refused.
-/

namespace StateHistory.Json

def isDigit (c : Char) : Bool := '0' ≤ c && c ≤ '9'

def digitValue (c : Char) : Nat := c.toNat - '0'.toNat

/-- Appends digits to `n` as long as the result stays below `2 ^ 64`; gives the result and how many
digits were taken. -/
def absorb (n : Nat) : List Char → Nat × Nat
  | [] => (n, 0)
  | c :: rest =>
    let m := n * 10 + digitValue c
    if m < 18446744073709551616 then
      let (total, taken) := absorb m rest
      (total, taken + 1)
    else (n, 0)

/-- The double nearest to `10 ^ n`. -/
def powerOfTen (n : Nat) : Float := Float.ofScientific 1 false n

/-- `f · 10 ^ exponent` in doubles, by one multiplication or division where the table of powers of
ten reaches, after at most `fuel` divisions that bring the exponent into it. -/
def scaled (f : Float) (exponent : Int) : Nat → Option Float
  | 0 => some 0
  | fuel + 1 =>
    if exponent.natAbs ≤ 308 then
      if 0 ≤ exponent then
        let g := f * powerOfTen exponent.toNat
        if g.isInf then none else some g
      else some (f / powerOfTen exponent.natAbs)
    else if f == 0 then some f
    else if 0 ≤ exponent then none
    else scaled (f / powerOfTen 308) (exponent + 308) fuel

/-- The digits of a literal, by part; an absent part is empty. -/
structure Literal where
  negative : Bool
  whole : List Char
  fraction : List Char
  exponentNegative : Bool
  exponent : List Char

/-- The value of the digits as a natural number. -/
def digitsValue (ds : List Char) : Nat := ds.foldl (fun n c => n * 10 + digitValue c) 0

def signed (negative : Bool) (f : Float) : Json := .double (if negative then -f else f).toBits

/-- The double of a literal. Digits that no longer fit count as powers of ten in the whole part and
are dropped in the fraction. -/
def Literal.toDouble (l : Literal) : Option Json :=
  let (whole, taken) := absorb 0 l.whole
  let (significand, decimals) := absorb whole l.fraction
  let e := digitsValue l.exponent
  let exponent : Int := (l.whole.length - taken : Nat) - (decimals : Int) +
    (if l.exponentNegative then -(e : Int) else e)
  if 2147483647 < e then
    if significand ≠ 0 ∧ ¬l.exponentNegative then none else some (signed l.negative 0)
  else (scaled significand.toUInt64.toFloat exponent 8).map (signed l.negative)

/-- The value of a literal. Zero with a sign is a double, since no whole number has one. -/
def Literal.value (l : Literal) : Option Json :=
  if l.fraction.isEmpty && l.exponent.isEmpty then
    let n := digitsValue l.whole
    let z : Int := if l.negative then -(n : Int) else n
    if keepsInt z && !(l.negative && n == 0) then some (.int z) else l.toDouble
  else l.toDouble

/-- Splits off the longest run of digits. -/
def spanDigits (cs : List Char) : List Char × List Char :=
  (cs.takeWhile isDigit, cs.dropWhile isDigit)

/-- The fraction of a literal: a point and at least one digit, or nothing. -/
def readFraction : List Char → Option (List Char × List Char)
  | '.' :: cs =>
    match spanDigits cs with
    | ([], _) => none
    | split => some split
  | cs => some ([], cs)

/-- The digits of an exponent, of which there is at least one. -/
def readExponentDigits (negative : Bool) (cs : List Char) :
    Option (Bool × List Char × List Char) :=
  match spanDigits cs with
  | ([], _) => none
  | (ds, rest) => some (negative, ds, rest)

/-- The exponent of a literal: its mark, an optional sign and digits, or nothing. -/
def readExponent : List Char → Option (Bool × List Char × List Char)
  | c :: cs =>
    if c = 'e' ∨ c = 'E' then
      match cs with
      | '+' :: cs => readExponentDigits false cs
      | '-' :: cs => readExponentDigits true cs
      | cs => readExponentDigits false cs
    else some (false, [], c :: cs)
  | [] => some (false, [], [])

/-- The literal at the front of the text. A whole part of several digits does not start with
zero. -/
def readLiteral (cs : List Char) : Option (Literal × List Char) := do
  let (negative, cs) := match cs with
    | '-' :: cs => (true, cs)
    | cs => (false, cs)
  let (whole, cs) := spanDigits cs
  guard (!whole.isEmpty && (whole.length == 1 || whole.head? != some '0'))
  let (fraction, cs) ← readFraction cs
  let (exponentNegative, exponent, cs) ← readExponent cs
  return ({ negative, whole, fraction, exponentNegative, exponent }, cs)

end StateHistory.Json

import StateHistory.Decimal.Shortest

/-!
# Decimal text of a double

How the shortest digits of a double are written out. A layout is a record of the format's
decisions; the two layouts of this library are the text of a state value and the number form of
JSON.
-/

namespace StateHistory.Decimal

/-- What a number format decides. -/
structure Layout where
  /-- Which of two equally near digit runs of the least length is written. -/
  tie : Tie
  /-- The decimal exponents of the leading digit that are written without an exponent. -/
  positional : Int → Bool
  /-- Does a whole number keep a fraction of one zero? -/
  keepsFraction : Bool
  /-- The text of what is no number. -/
  nan : String
  /-- The text of the two infinities, the negative one for `true`. -/
  infinity : Bool → String

/-- The text of a state value: never an exponent, no fraction on whole numbers, and a half goes away
from zero. -/
def plain : Layout where
  tie := .away
  positional _ := true
  keepsFraction := false
  nan := "NaN"
  infinity negative := if negative then "-inf" else "inf"

/-- The number form of JSON: positional from `10 ^ -5` up to `10 ^ 16`, always with a fraction,
and with a signed exponent elsewhere, and a half goes to the even digit. What JSON cannot write is
null. -/
def json : Layout where
  tie := .toEven
  positional e := decide (-5 ≤ e ∧ e < 16)
  keepsFraction := true
  nan := "null"
  infinity _ := "null"

/-- A run of `n` zeros. -/
def zeros (n : Nat) : String := String.ofList (List.replicate n '0')

/-- The digits written out in full around the decimal point. -/
def positionalText (keepsFraction : Bool) (s : Scientific) : String :=
  let digits := toString s.digits
  let tail := if keepsFraction then ".0" else ""
  if 0 ≤ s.exponent then digits ++ zeros s.exponent.toNat ++ tail
  else
    let point := (digits.length : Int) + s.exponent
    if 0 < point then
      String.ofList (digits.toList.take point.toNat) ++ "." ++
        String.ofList (digits.toList.drop point.toNat)
    else "0." ++ zeros (-point).toNat ++ digits

/-- One digit, the others as a fraction, and the signed exponent of the first. -/
def exponentText (s : Scientific) : String :=
  let digits := toString s.digits
  let lead := s.exponent + digits.length - 1
  let fraction := digits.toList.drop 1
  let mantissa := String.ofList (digits.toList.take 1) ++
    if fraction.isEmpty then "" else "." ++ String.ofList fraction
  mantissa ++ "e" ++ (if lead < 0 then "-" else "+") ++ toString lead.natAbs

/-- The text of a double in a layout. -/
def Layout.text (layout : Layout) (bits : UInt64) : String :=
  let sign (negative : Bool) := if negative then "-" else ""
  match decode bits with
  | .nan => layout.nan
  | .infinite negative => layout.infinity negative
  | .zero negative => sign negative ++ if layout.keepsFraction then "0.0" else "0"
  | .finite negative significand exponent edge =>
    let s := shortest layout.tie significand exponent edge
    let lead := s.exponent + (toString s.digits).length - 1
    sign negative ++
      if layout.positional lead then positionalText layout.keepsFraction s else exponentText s

end StateHistory.Decimal

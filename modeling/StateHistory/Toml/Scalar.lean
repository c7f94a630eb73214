import StateHistory.Toml.Lexeme

/-!
# Numbers and dates of TOML

Whole numbers have 64 bits with sign. Other numbers and dates are only checked: of a number it is
told that it is no whole one, and of a date that it is a date.
-/

namespace StateHistory.Toml

/-! ## Digits -/

def isDigit (c : Char) : Bool := '0' ≤ c && c ≤ '9'

/-- Digits with single underscores between them, the first of which is read already. -/
def readMore (isDigit : Char → Bool) : List Char → Option (List Char × List Char)
  | '_' :: c :: cs =>
    if isDigit c then (readMore isDigit cs).map fun (ds, cs) => (c :: ds, cs) else none
  | '_' :: [] => none
  | c :: cs =>
    if isDigit c then (readMore isDigit cs).map fun (ds, cs) => (c :: ds, cs)
    else some ([], c :: cs)
  | [] => some ([], [])

/-- At least one digit, with single underscores between them. -/
def readDigits (isDigit : Char → Bool) : List Char → Option (List Char × List Char)
  | c :: cs =>
    if isDigit c then (readMore isDigit cs).map fun (ds, cs) => (c :: ds, cs) else none
  | [] => none

/-- Digits of a whole number: zero alone, or several of which the first is not zero. -/
def readWhole : List Char → Option (List Char × List Char)
  | '0' :: cs => some (['0'], cs)
  | cs => readDigits isDigit cs

def digitsValue (base : Nat) (ds : List Char) : Nat :=
  ds.foldl (fun n c => n * base + (hexDigit? c).getD 0) 0

/-- An optional sign; `true` for the negative one. -/
def readSign : List Char → Bool × List Char
  | '-' :: cs => (true, cs)
  | '+' :: cs => (false, cs)
  | cs => (false, cs)

/-! ## Numbers -/

/-- A number. -/
inductive Number where
  | integer (value : Int)
  | float
deriving DecidableEq, Repr

def fits (n : Int) : Bool := decide (-9223372036854775808 ≤ n ∧ n ≤ 9223372036854775807)

/-- A whole number in a base that its text tells. -/
def readBased (base : Nat) (isDigit : Char → Bool) (cs : List Char) :
    Option (Number × List Char) := do
  let (ds, cs) ← readDigits isDigit cs
  let n : Int := digitsValue base ds
  if fits n then some (.integer n, cs) else none

/-- Is the decimal number `digits · 10 ^ exponent` at most the largest double? Numbers far out of
reach are told by their length. -/
def isFinite (digits : List Char) (exponent : Int) : Bool :=
  let ds := digits.dropWhile (· == '0')
  let length : Int := ds.length + exponent
  if ds.isEmpty || length < 300 then true
  else if 320 < length then false
  else if 0 ≤ exponent then
    (Float.ofScientific (digitsValue 10 ds) false exponent.toNat).isFinite
  else (Float.ofScientific (digitsValue 10 ds) true exponent.natAbs).isFinite

/-- The fraction of a number: a point and digits, or nothing. -/
def readFraction : List Char → Option (List Char × List Char)
  | '.' :: cs => readDigits isDigit cs
  | cs => some ([], cs)

/-- The exponent of a number: its mark, an optional sign and digits, or nothing. -/
def readExponent : List Char → Option (Option Int × List Char)
  | c :: cs =>
    if c = 'e' ∨ c = 'E' then do
      let (negative, cs) := readSign cs
      let (ds, cs) ← readDigits isDigit cs
      let e : Int := digitsValue 10 ds
      return (some (if negative then -e else e), cs)
    else some (none, c :: cs)
  | [] => some (none, [])

/-- A decimal number. Of numbers that no double holds, those below zero are let pass. -/
def readDecimal (cs : List Char) : Option (Number × List Char) := do
  let (negative, cs) := readSign cs
  let (whole, cs) ← readWhole cs
  let (fraction, cs) ← readFraction cs
  let (exponent, cs) ← readExponent cs
  if fraction.isEmpty && exponent.isNone then
    let n : Int := digitsValue 10 whole
    let z := if negative then -n else n
    if fits z then some (.integer z, cs) else none
  else if negative || isFinite (whole ++ fraction) (exponent.getD 0 - fraction.length) then
    some (.float, cs)
  else none

/-- The name of a number that is none or infinite. -/
def readNamed : List Char → Option (List Char)
  | 'i' :: 'n' :: 'f' :: cs => some cs
  | 'n' :: 'a' :: 'n' :: cs => some cs
  | _ => none

/-- A number. -/
def readNumber (cs : List Char) : Option (Number × List Char) :=
  match cs with
  | '0' :: 'x' :: cs => readBased 16 (fun c => (hexDigit? c).isSome) cs
  | '0' :: 'o' :: cs => readBased 8 (fun c => '0' ≤ c && c ≤ '7') cs
  | '0' :: 'b' :: cs => readBased 2 (fun c => c == '0' || c == '1') cs
  | cs =>
    match readNamed (readSign cs).2 with
    | some cs => some (.float, cs)
    | none => readDecimal cs

/-! ## Dates and times -/

/-- A number of exactly `width` digits. -/
def readField (width : Nat) (cs : List Char) : Option (Nat × List Char) :=
  let ds := cs.take width
  if ds.length = width ∧ ds.all isDigit then some (digitsValue 10 ds, cs.drop width) else none

/-- Reads a field between bounds. -/
def readBetween (low high : Nat) (cs : List Char) : Option (List Char) :=
  match readField 2 cs with
  | some (n, cs) => if low ≤ n ∧ n ≤ high then some cs else none
  | none => none

def readChar (c : Char) : List Char → Option (List Char)
  | d :: cs => if c = d then some cs else none
  | [] => none

def daysIn (year month : Nat) : Nat :=
  if month = 2 then
    if year % 4 = 0 ∧ (year % 100 ≠ 0 ∨ year % 400 = 0) then 29 else 28
  else if month = 4 ∨ month = 6 ∨ month = 9 ∨ month = 11 then 30
  else 31

/-- A day of the calendar. -/
def readDate (cs : List Char) : Option (List Char) := do
  let (year, cs) ← readField 4 cs
  let cs ← readChar '-' cs
  let (month, cs) ← readField 2 cs
  let cs ← readChar '-' cs
  let (day, cs) ← readField 2 cs
  if 1 ≤ month ∧ month ≤ 12 ∧ 1 ≤ day ∧ day ≤ daysIn year month then some cs else none

/-- A time of day; a minute can have a leap second. -/
def readClock (cs : List Char) : Option (List Char) := do
  let cs ← readBetween 0 23 cs
  let cs ← readChar ':' cs
  let cs ← readBetween 0 59 cs
  let cs ← readChar ':' cs
  let cs ← readBetween 0 60 cs
  match cs with
  | '.' :: cs =>
    match cs.takeWhile isDigit with
    | [] => none
    | ds => some (cs.drop ds.length)
  | cs => some cs

/-- The offset of a time from that of the prime meridian, if it has one. -/
def readOffset (cs : List Char) : Option (List Char) :=
  match cs with
  | 'Z' :: cs | 'z' :: cs => some cs
  | '+' :: cs | '-' :: cs => do
    let cs ← readBetween 0 23 cs
    readBetween 0 59 (← readChar ':' cs)
  | cs => some cs

/-- A time behind a date, if there is one. -/
def readClockAfterDate (cs : List Char) : Option (List Char) :=
  match cs with
  | 'T' :: rest | 't' :: rest | ' ' :: rest =>
    match readClock rest with
    | some rest => readOffset rest
    | none => some cs
  | cs => some cs

/-- Does a text start like a date? -/
def startsDate (cs : List Char) : Bool :=
  match readField 4 cs with
  | some (_, '-' :: _) => true
  | _ => false

/-- Does a text start like a time of day? -/
def startsClock (cs : List Char) : Bool :=
  match readField 2 cs with
  | some (_, ':' :: _) => true
  | _ => false

end StateHistory.Toml

import StateHistory.Decimal.Layout

/-!
# State values

What an attribute can hold over an interval: nothing, a number, a string, or bytes that only their
writer understands. Equality is structural; doubles are kept as their 64 bits, so that a value that
is no number equals itself.
-/

namespace StateHistory

/-- A value in an encoding of the writer's own. -/
structure Custom where
  tag : String
  payload : List UInt8
deriving DecidableEq, Repr, Hashable

/-- The value of an attribute over one interval. -/
inductive Value where
  | null
  | int (value : Int32)
  | long (value : Int64)
  | double (bits : UInt64)
  | string (text : String)
  | custom (value : Custom)
deriving DecidableEq, Repr, Inhabited

namespace Value

def isNull : Value → Bool
  | null => true
  | _ => false

theorem isNull_iff {v : Value} : v.isNull = true ↔ v = null := by cases v <;> simp [isNull]

/-- The name of the kind of a value, as error messages give it. -/
def kind : Value → String
  | null => "null"
  | int _ => "int"
  | long _ => "long"
  | double _ => "double"
  | string _ => "string"
  | custom _ => "custom"

/-- Does a whole number fit in 32 bits? -/
def fitsInt (n : Int) : Bool := decide (-2147483648 ≤ n ∧ n ≤ 2147483647)

/-- Does a whole number fit in 64 bits? -/
def fitsLong (n : Int) : Bool := decide (-9223372036854775808 ≤ n ∧ n ≤ 9223372036854775807)

/-- The whole number of a value of either integer kind. -/
def asLong : Value → Option Int
  | int v => some v.toInt
  | long v => some v.toInt
  | _ => none

/-- The whole number of a value of either integer kind, if it fits in 32 bits. -/
def asInt (v : Value) : Option Int := v.asLong.filter fitsInt

def asDouble : Value → Option UInt64
  | double bits => some bits
  | _ => none

def asString : Value → Option String
  | string text => some text
  | _ => none

def asCustom : Value → Option Custom
  | custom value => some value
  | _ => none

/-- The narrower integer kind that holds `n`. -/
def ofCount (n : Int) : Value := if fitsInt n then int (.ofInt n) else long (.ofInt n)

/-- An absent value is null. -/
def ofOption : Option Value → Value
  | none => null
  | some v => v

/-- The text of a value; a custom value shows only its size. -/
def text : Value → String
  | null => "null"
  | int v => toString v.toInt
  | long v => toString v.toInt
  | double bits => Decimal.plain.text bits
  | string text => text
  | custom c => "<" ++ c.tag ++ ":" ++ toString c.payload.length ++ " bytes>"

end Value

end StateHistory

/-!
# JSON values

Numbers are whole numbers or doubles, and a reader decides which by the way they are written. The
members of an object keep their order; the reader hands them out sorted by name.
-/

namespace StateHistory

/-- A JSON value. -/
inductive Json where
  | null
  | bool (value : Bool)
  | int (value : Int)
  | double (bits : UInt64)
  | string (text : String)
  | array (items : List Json)
  | object (members : List (String × Json))
deriving Repr, Inhabited

namespace Json

/-- Sets the member `name`, replacing a value it had, in an object sorted by name. -/
def insert (name : String) (value : Json) : List (String × Json) → List (String × Json)
  | [] => [(name, value)]
  | (n, v) :: rest =>
    if name < n then (name, value) :: (n, v) :: rest
    else if name = n then (name, value) :: rest
    else (n, v) :: insert name value rest

/-- The value of the member `name`. -/
def lookup (name : String) (members : List (String × Json)) : Option Json :=
  (members.find? (·.1 == name)).map (·.2)

/-- Is a whole number kept as such? Others become doubles. -/
def keepsInt (n : Int) : Bool := decide (-9223372036854775808 ≤ n ∧ n < 18446744073709551616)

end Json

end StateHistory

import StateHistory.Decimal.Layout
import StateHistory.Json.Value

/-!
# Printing JSON

Two forms: compact, without any blanks, and indented by two blanks a level. Only what has to be
escaped in a string is.
-/

namespace StateHistory.Json

def hexDigit (n : Nat) : Char := if n < 10 then Char.ofNat (48 + n) else Char.ofNat (87 + n)

/-- The text of a character inside a string. -/
def escaped (c : Char) : List Char :=
  match c with
  | '"' => ['\\', '"']
  | '\\' => ['\\', '\\']
  | '\x08' => ['\\', 'b']
  | '\x0c' => ['\\', 'f']
  | '\n' => ['\\', 'n']
  | '\r' => ['\\', 'r']
  | '\t' => ['\\', 't']
  | c =>
    if c.toNat < 0x20 then
      ['\\', 'u', '0', '0', hexDigit (c.toNat / 16), hexDigit (c.toNat % 16)]
    else [c]

/-- A string in quotes. -/
def quoted (s : String) : String := String.ofList ('"' :: s.toList.flatMap escaped ++ ['"'])

mutual

/-- The text of a value without blanks. -/
def compact : Json → String
  | null => "null"
  | bool b => if b then "true" else "false"
  | int n => toString n
  | double bits => Decimal.json.text bits
  | string s => quoted s
  | array items => "[" ++ ",".intercalate (compactItems items) ++ "]"
  | object members => "\x7b" ++ ",".intercalate (compactMembers members) ++ "\x7d"

def compactItems : List Json → List String
  | [] => []
  | v :: rest => compact v :: compactItems rest

def compactMembers : List (String × Json) → List String
  | [] => []
  | (name, v) :: rest => (quoted name ++ ":" ++ compact v) :: compactMembers rest

end

/-- A container over several lines: `indent` is where its brackets stand. -/
def block (opening closing : String) (indent : String) (parts : List String) : String :=
  if parts.isEmpty then opening ++ closing
  else
    opening ++ "\n" ++ ",\n".intercalate (parts.map fun part => indent ++ "  " ++ part) ++
      "\n" ++ indent ++ closing

mutual

/-- The indented text of a value whose first line is already indented by `indent`. -/
def indented (indent : String) : Json → String
  | array items => block "[" "]" indent (indentedItems (indent ++ "  ") items)
  | object members => block "\x7b" "\x7d" indent (indentedMembers (indent ++ "  ") members)
  | null => "null"
  | bool b => if b then "true" else "false"
  | int n => toString n
  | double bits => Decimal.json.text bits
  | string s => quoted s

def indentedItems (indent : String) : List Json → List String
  | [] => []
  | v :: rest => indented indent v :: indentedItems indent rest

def indentedMembers (indent : String) : List (String × Json) → List String
  | [] => []
  | (name, v) :: rest =>
    (quoted name ++ ": " ++ indented indent v) :: indentedMembers indent rest

end

/-- The indented text of a value. -/
def pretty (v : Json) : String := indented "" v

end StateHistory.Json

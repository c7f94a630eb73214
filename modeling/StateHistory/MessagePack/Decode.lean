/-!
# Reading MessagePack

A decoder takes a value from the front of some bytes and leaves the rest. It accepts every form of a
number or length, not only the narrowest. A record is a map keyed by the names or by the places of
its fields, with members of other names passed over, or an array of exactly its fields in order.
-/

namespace StateHistory.MessagePack

/-- A reader of bytes that can fail. -/
abbrev Decoder := StateT (List UInt8) Option

/-- The next `n` bytes. -/
def takeBytes (n : Nat) : Decoder (List UInt8) := fun bytes =>
  let taken := bytes.take n
  if taken.length = n then some (taken, bytes.drop n) else none

/-- The number of some bytes, the highest first. -/
def ofBigEndian (bytes : List UInt8) : Nat := bytes.foldl (fun n b => n * 256 + b.toNat) 0

/-- A natural number of `width` bytes. -/
def takeNat (width : Nat) : Decoder Nat := ofBigEndian <$> takeBytes width

/-- A number of `width` bytes in two's complement. -/
def takeSigned (width : Nat) : Decoder Int := do
  let n ← takeNat width
  let count := Nat.pow 256 width
  return if n < count / 2 then n else (n : Int) - count

/-- What a value starts with: a scalar, or the kind and length of what follows. -/
inductive Head where
  | nil
  | bool (value : Bool)
  /-- A number written without a sign. -/
  | nat (n : Nat)
  /-- A number written with a sign, whether negative or not. -/
  | int (n : Int)
  | double (bits : UInt64)
  | string (length : Nat)
  | bytes (length : Nat)
  | array (length : Nat)
  | map (length : Nat)
  /-- A value of an application's own type; the length counts its data. -/
  | extension (length : Nat)
deriving DecidableEq, Repr

/-- The bits of the double equal to a float of 32 bits. A float that is no number keeps its sign and
its fraction, and is quiet. -/
def widen (n : Nat) : UInt64 :=
  let sign := n / 0x80000000
  let fraction := n % 0x800000
  if n / 0x800000 % 256 = 255 ∧ fraction ≠ 0 then
    UInt64.ofNat (sign * 0x8000000000000000 + fraction * 0x20000000) ||| 0x7ff8000000000000
  else (Float32.ofBits (UInt32.ofNat n)).toFloat.toBits

/-- The head that a first byte announces. -/
def headOf (b : Nat) : Decoder Head :=
  if b < 0x80 then pure (.nat b)
  else if b < 0x90 then pure (.map (b - 0x80))
  else if b < 0xa0 then pure (.array (b - 0x90))
  else if b < 0xc0 then pure (.string (b - 0xa0))
  else if 0xe0 ≤ b then pure (.int ((b : Int) - 256))
  else match b with
    | 0xc0 => pure .nil
    | 0xc2 => pure (.bool false)
    | 0xc3 => pure (.bool true)
    | 0xc4 => .bytes <$> takeNat 1
    | 0xc5 => .bytes <$> takeNat 2
    | 0xc6 => .bytes <$> takeNat 4
    | 0xc7 => .extension <$> takeNat 1
    | 0xc8 => .extension <$> takeNat 2
    | 0xc9 => .extension <$> takeNat 4
    | 0xca => (fun n => .double (widen n)) <$> takeNat 4
    | 0xcb => (fun n => .double (UInt64.ofNat n)) <$> takeNat 8
    | 0xcc => .nat <$> takeNat 1
    | 0xcd => .nat <$> takeNat 2
    | 0xce => .nat <$> takeNat 4
    | 0xcf => .nat <$> takeNat 8
    | 0xd0 => .int <$> takeSigned 1
    | 0xd1 => .int <$> takeSigned 2
    | 0xd2 => .int <$> takeSigned 4
    | 0xd3 => .int <$> takeSigned 8
    | 0xd4 => pure (.extension 1)
    | 0xd5 => pure (.extension 2)
    | 0xd6 => pure (.extension 4)
    | 0xd7 => pure (.extension 8)
    | 0xd8 => pure (.extension 16)
    | 0xd9 => .string <$> takeNat 1
    | 0xda => .string <$> takeNat 2
    | 0xdb => .string <$> takeNat 4
    | 0xdc => .array <$> takeNat 2
    | 0xdd => .array <$> takeNat 4
    | 0xde => .map <$> takeNat 2
    | 0xdf => .map <$> takeNat 4
    | _ => failure

/-- The head of the next value. -/
def takeHead : Decoder Head := fun bytes =>
  match bytes with
  | b :: rest => headOf b.toNat rest
  | [] => none

/-- A whole number from `low` to `high`. -/
def intOf (low high : Int) : Head → Decoder Int
  | .nat n => if low ≤ n ∧ n ≤ high then pure n else failure
  | .int n => if low ≤ n ∧ n ≤ high then pure n else failure
  | _ => failure

/-- A whole number from `low` to `high`. -/
def decodeInt (low high : Int) : Decoder Int := do intOf low high (← takeHead)

/-- A natural number up to `high`. -/
def decodeNat (high : Nat) : Decoder Nat := Int.toNat <$> decodeInt 0 high

/-- The bits of a number as a double. -/
def decodeDouble : Decoder UInt64 := do
  match ← takeHead with
  | .double bits => return bits
  | .nat n => return n.toUInt64.toFloat.toBits
  | .int n =>
    let f := n.natAbs.toUInt64.toFloat
    return (if n < 0 then -f else f).toBits
  | _ => failure

def stringOfBytes (bytes : List UInt8) : Option String := String.fromUTF8? ⟨bytes.toArray⟩

/-- The string that a head announces. Plain bytes count as a string if they are one. -/
def stringOf : Head → Decoder String
  | .string n | .bytes n => do stringOfBytes (← takeBytes n)
  | _ => failure

def decodeString : Decoder String := do stringOf (← takeHead)

/-- A value, or nil for none; `item` reads the value from its head on. -/
def decodeOption (item : Head → Decoder α) : Decoder (Option α) := do
  match ← takeHead with
  | .nil => return none
  | head => return some (← item head)

/-- `n` items. -/
def times (item : Decoder α) : Nat → Decoder (List α)
  | 0 => pure []
  | n + 1 => do
    let a ← item
    return a :: (← times item n)

/-- Any number of items. -/
def decodeArray (item : Decoder α) : Decoder (List α) := do
  match ← takeHead with
  | .array n => times item n
  | .bytes 0 => return []
  | _ => failure

/-- Any number of bytes, as an array of numbers or as plain bytes. -/
def decodeBytes : Decoder (List UInt8) := do
  match ← takeHead with
  | .array n => times (UInt8.ofNat <$> decodeNat 255) n
  | .bytes n => takeBytes n
  | _ => failure

/-- `n` times the same step. -/
def repeated (step : Decoder Unit) : Nat → Decoder Unit
  | 0 => pure ()
  | n + 1 => do
    step
    repeated step n

/-- Passes over a value that nests fewer than `depth` containers. -/
def skip : Nat → Decoder Unit
  | 0 => failure
  | depth + 1 => do
    match ← takeHead with
    | .string n | .bytes n => discard (takeBytes n)
    | .array n => if depth = 0 then failure else repeated (skip depth) n
    | .map n => if depth = 0 then failure else repeated (skip depth) (2 * n)
    | .extension n => if depth = 0 then failure else discard (takeBytes (n + 1))
    | _ => pure ()

/-- The place of a name in a list of names: the length of the list if it is not there. -/
def placeOf (names : List String) (name : List UInt8) : Nat :=
  names.findIdx fun n => n.toUTF8.data.toList == name

/-- The place of the field or case that a head names, by place or by name. -/
def placeFrom (names : List String) : Head → Decoder Nat
  | .nat n => pure (min n names.length)
  | .string n | .bytes n => placeOf names <$> takeBytes n
  | _ => failure

/-- How to read a record field by field. `β` is what is known of it on the way. -/
structure Fields (β : Type) where
  names : List String
  /-- Reads the field at a place; fails if it is known already. -/
  read : Nat → β → Decoder β

/-- `n` members of a map. -/
def Fields.members (f : Fields β) (depth : Nat) : Nat → β → Decoder β
  | 0, b => pure b
  | n + 1, b => do
    let place ← placeFrom f.names (← takeHead)
    if place < f.names.length then f.members depth n (← f.read place b)
    else
      skip depth
      f.members depth n b

/-- The fields from a place on, `n` of them. -/
def Fields.items (f : Fields β) : Nat → Nat → β → Decoder β
  | 0, _, b => pure b
  | n + 1, place, b => do f.items n (place + 1) (← f.read place b)

/-- A record, from what is known at first. Members that are no fields nest fewer than `depth`
containers. -/
def Fields.decode (f : Fields β) (depth : Nat) (start : β) : Decoder β := do
  match ← takeHead with
  | .map n => f.members depth n start
  | .array n => if n = f.names.length then f.items n 0 start else failure
  | _ => failure

/-- Reads a field that is not known yet. -/
def once (known : Option α) (item : Decoder α) : Decoder (Option α) :=
  match known with
  | some _ => failure
  | none => some <$> item

end StateHistory.MessagePack

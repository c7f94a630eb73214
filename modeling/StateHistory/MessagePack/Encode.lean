/-!
# Writing MessagePack

The bytes of numbers, strings and the heads of containers. Every number and length takes the
narrowest form that holds it.
-/

namespace StateHistory.MessagePack

/-- The `width` low bytes of `n`, the highest first. -/
def bigEndian : Nat → Nat → List UInt8
  | 0, _ => []
  | width + 1, n => bigEndian width (n / 256) ++ [UInt8.ofNat n]

def encodeNil : List UInt8 := [0xc0]

/-- A natural number below `2 ^ 64`. -/
def encodeNat (n : Nat) : List UInt8 :=
  if n < 128 then [UInt8.ofNat n]
  else if n < 256 then 0xcc :: bigEndian 1 n
  else if n < 65536 then 0xcd :: bigEndian 2 n
  else if n < 4294967296 then 0xce :: bigEndian 4 n
  else 0xcf :: bigEndian 8 n

/-- A whole number from `-2 ^ 63` up to `2 ^ 64`; negative ones are written in two's complement. -/
def encodeInt (n : Int) : List UInt8 :=
  if 0 ≤ n then encodeNat n.toNat
  else if -32 ≤ n then [UInt8.ofNat (n + 256).toNat]
  else if -128 ≤ n then 0xd0 :: bigEndian 1 (n + 256).toNat
  else if -32768 ≤ n then 0xd1 :: bigEndian 2 (n + 65536).toNat
  else if -2147483648 ≤ n then 0xd2 :: bigEndian 4 (n + 4294967296).toNat
  else 0xd3 :: bigEndian 8 (n + 18446744073709551616).toNat

/-- A double, given by its bits. -/
def encodeDouble (bits : UInt64) : List UInt8 := 0xcb :: bigEndian 8 bits.toNat

/-- The head of a string of `n` bytes. -/
def encodeStringHead (n : Nat) : List UInt8 :=
  if n < 32 then [UInt8.ofNat (0xa0 + n)]
  else if n < 256 then 0xd9 :: bigEndian 1 n
  else if n < 65536 then 0xda :: bigEndian 2 n
  else 0xdb :: bigEndian 4 n

def utf8 (s : String) : List UInt8 := s.toUTF8.data.toList

def encodeString (s : String) : List UInt8 := encodeStringHead (utf8 s).length ++ utf8 s

/-- The head of an array of `n` items. -/
def encodeArrayHead (n : Nat) : List UInt8 :=
  if n < 16 then [UInt8.ofNat (0x90 + n)]
  else if n < 65536 then 0xdc :: bigEndian 2 n
  else 0xdd :: bigEndian 4 n

def encodeArray (item : α → List UInt8) (items : List α) : List UInt8 :=
  encodeArrayHead items.length ++ items.flatMap item

/-- The head of a map of `n` members. -/
def encodeMapHead (n : Nat) : List UInt8 :=
  if n < 16 then [UInt8.ofNat (0x80 + n)]
  else if n < 65536 then 0xde :: bigEndian 2 n
  else 0xdf :: bigEndian 4 n

/-- A map with the given names and written values, in order. -/
def encodeMap (members : List (String × List UInt8)) : List UInt8 :=
  encodeMapHead members.length ++ members.flatMap fun (name, value) => encodeString name ++ value

/-- An optional value; nil if there is none. -/
def encodeOption (item : α → List UInt8) : Option α → List UInt8
  | none => encodeNil
  | some a => item a

end StateHistory.MessagePack

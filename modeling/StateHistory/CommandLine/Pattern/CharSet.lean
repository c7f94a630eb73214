import StateHistory.Text.Blank

/-!
# Sets of characters

The sets of characters that a pattern names, and how the characters of a set are spelled in UTF-8.
-/

namespace StateHistory

/-- A set of characters, as ranges of code points with both ends: in ascending order, with a gap
between each two. -/
structure CharSet where
  ranges : List (Nat × Nat)
deriving DecidableEq, Repr, Inhabited

namespace CharSet

def has (s : CharSet) (c : Char) : Bool :=
  s.ranges.any fun (low, high) => low ≤ c.toNat && c.toNat ≤ high

/-- The range from `low` to `high` and ranges after it, joined where they overlap or touch. The
ranges have to ascend by their low ends. -/
def join (low high : Nat) : List (Nat × Nat) → List (Nat × Nat)
  | [] => [(low, high)]
  | (a, b) :: rest =>
    if a ≤ high + 1 then join low (max high b) rest else (low, high) :: join a b rest

/-- The characters of any of some ranges. -/
def ofRanges (ranges : List (Nat × Nat)) : CharSet :=
  match ranges.mergeSort (fun a b => a.1 ≤ b.1) with
  | [] => ⟨[]⟩
  | (low, high) :: rest => ⟨join low high rest⟩

/-- The characters of any of some sets. -/
def union (sets : List CharSet) : CharSet := ofRanges (sets.flatMap (·.ranges))

/-- The largest code point. -/
def largest : Nat := 0x10FFFF

/-- What some ranges leave out, from `low` on. -/
def gaps (low : Nat) : List (Nat × Nat) → List (Nat × Nat)
  | [] => if low ≤ largest then [(low, largest)] else []
  | (a, b) :: rest => if low < a then (low, a - 1) :: gaps (b + 1) rest else gaps (b + 1) rest

/-- The characters that are not in a set. -/
def complement (s : CharSet) : CharSet := ⟨gaps 0 s.ranges⟩

def between (low high : Char) : CharSet := ⟨[(low.toNat, high.toNat)]⟩

def one (c : Char) : CharSet := between c c

def digit : CharSet := between '0' '9'

/-- Letters, digits and the underscore. -/
def word : CharSet := union [between 'a' 'z', between 'A' 'Z', digit, one '_']

def blank : CharSet := ⟨Text.blanks⟩

/-- The character of a set that has just one. -/
def single? (s : CharSet) : Option Char :=
  match s.ranges with
  | [(low, high)] => if low = high then some (Char.ofNat low) else none
  | _ => none

/-- Are all characters of a set spelled with one byte? -/
def isAscii (s : CharSet) : Bool := s.ranges.all fun (_, high) => high < 0x80

/-! ## Spellings -/

/-- Some sequences of bytes of one length: a range for each byte. -/
abbrev Spelling := List (Nat × Nat)

/-- The numbers from `low` to `high` in a byte that starts at `base` and `k` bytes of six bits
behind it. Where the numbers do not fill the last bytes, the ends are spelled apart. -/
def spell (base : Nat) : Nat → Nat → Nat → List Spelling
  | 0, low, high => [[(base + low, base + high)]]
  | k + 1, low, high =>
    let unit := Nat.pow 64 (k + 1)
    let a := low / unit
    let b := high / unit
    let after (first last : Nat) (l : List Spelling) : List Spelling :=
      l.map ((base + first, base + last) :: ·)
    if a = b then after a b (spell 0x80 k (low % unit) (high % unit))
    else
      let startsFull := low % unit = 0
      let endsFull := high % unit + 1 = unit
      let first := if startsFull then a else a + 1
      let last := if endsFull then b + 1 else b
      (if startsFull then [] else after a a (spell 0x80 k (low % unit) (unit - 1))) ++
        (if first < last then after first (last - 1) (spell 0x80 k 0 (unit - 1)) else []) ++
        if endsFull then [] else after b b (spell 0x80 k 0 (high % unit))

/-- The code points of a length in UTF-8, the least first byte of it, and how many bytes follow.
Those between the two ranges of three bytes are no characters. -/
def lengths : List (Nat × Nat × Nat × Nat) := [
  (0, 0x7F, 0, 0), (0x80, 0x7FF, 0xC0, 1), (0x800, 0xD7FF, 0xE0, 2), (0xE000, 0xFFFF, 0xE0, 2),
  (0x10000, largest, 0xF0, 3)]

/-- The spellings of the characters of a set. -/
def spellings (s : CharSet) : List Spelling :=
  s.ranges.flatMap fun (low, high) => lengths.flatMap fun (first, last, base, k) =>
    if max low first ≤ min high last then spell base k (max low first) (min high last) else []

end CharSet

end StateHistory

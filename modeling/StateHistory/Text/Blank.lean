/-!
# Blank characters

The characters that count as white space, and the text without those at its two ends.
-/

namespace StateHistory.Text

/-- The white space of the character standard, as ranges of code points. -/
def blanks : List (Nat × Nat) := [
  (9, 13), (0x20, 0x20), (0x85, 0x85), (0xA0, 0xA0), (0x1680, 0x1680), (0x2000, 0x200A),
  (0x2028, 0x2029), (0x202F, 0x202F), (0x205F, 0x205F), (0x3000, 0x3000)]

def isBlank (c : Char) : Bool := blanks.any fun (low, high) => low ≤ c.toNat && c.toNat ≤ high

/-- The text from its first to its last character that is not blank. -/
def trim (cs : List Char) : List Char :=
  ((cs.dropWhile isBlank).reverse.dropWhile isBlank).reverse

end StateHistory.Text

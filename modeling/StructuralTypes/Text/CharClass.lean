import StructuralTypes.Text.CodeRanges

/-! Classes of characters: word characters, decimal digits, blanks and printable
characters. Each class is a table of code point ranges; of word characters the table has
those beyond ASCII. The tables are in ascending order, so a search ends at the first range
that lies beyond. -/

namespace StructuralTypes.CharClass

/-- Whether a code point is in one of the ranges of an ascending table. -/
def inRanges (n : Nat) : List Range → Bool
  | [] => false
  | r :: rest => if n < r.first then false else n ≤ r.last || inRanges n rest

def inTable (table : List Range) (c : Char) : Bool :=
  inRanges c.toNat table

/-! ### Words and digits -/

/-- The value of a code point as a digit, given the zeros of all runs of digits. -/
def digitAmong? (n : Nat) : List Nat → Option Nat
  | [] => none
  | first :: rest =>
    if n < first then none else if n ≤ first + 9 then some (n - first) else digitAmong? n rest

/-- The value of a decimal digit of any script. -/
def digitValue? (c : Char) : Option Nat :=
  digitAmong? c.toNat digitZeros

def isDigit (c : Char) : Bool :=
  (digitValue? c).isSome

/-- Letters, numerals and the underscore. -/
def isWord (c : Char) : Bool :=
  c.isAlphanum || c == '_' || inTable wordTable c

/-! ### Blanks and printable characters -/

/-- All characters that count as blank, the control characters among them included. -/
def blankTable : List Range :=
  [⟨0x09, 0x0D⟩, ⟨0x1C, 0x20⟩, ⟨0x85, 0x85⟩, ⟨0xA0, 0xA0⟩, ⟨0x1680, 0x1680⟩,
   ⟨0x2000, 0x200A⟩, ⟨0x2028, 0x2029⟩, ⟨0x202F, 0x202F⟩, ⟨0x205F, 0x205F⟩,
   ⟨0x3000, 0x3000⟩]

def isBlank (c : Char) : Bool :=
  inTable blankTable c

def isPrintable (c : Char) : Bool :=
  !inTable unprintableTable c

end StructuralTypes.CharClass

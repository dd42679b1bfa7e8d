import StructuralTypes.Node.Regular
import StructuralTypes.Token.MarkerForm

/-! Trees that are read as they are printed. A key is printed between double quotes and no
quote in it is escaped, a name is printed as it is: both have to be found again as the texts
that they are. -/

namespace StructuralTypes.Node

open Glyph

/-- Whether a key in double quotes is one literal. The lexer reads escaped quotes in it as
plain ones, so none may stand in it. -/
def isQuotableKey (key : String) : Bool :=
  !key.toList.contains '"' && !key.toList.contains (Char.ofNat 0)
    && literal? ('"' :: (key.toList ++ ['"'])) == some ('"' :: (key.toList ++ ['"']), [])

theorem isQuotableKey_iff {key : String} : isQuotableKey key = true ↔
    '"' ∉ key.toList ∧ Char.ofNat 0 ∉ key.toList ∧
      literal? ('"' :: (key.toList ++ ['"'])) = some ('"' :: (key.toList ++ ['"']), []) := by
  simp [isQuotableKey, and_assoc]

/-- The characters that no name holds outside of literals: blanks, operators and brackets,
and quotes. -/
def nameBreakers : List Char :=
  [Char.ofNat 0, ' ', '\t', '\r', '\n', '|', '&', '?', ':', '#', '$', '@', '^', '~', '\x7b',
    '\x7d', '[', ']', '(', ')', ',', '>', '"', '\'']

/-- Whether a name is read as one: no part of it is taken for layout, punctuation, a comment
or the word for arrays. -/
def isLegibleName (name : String) : Bool :=
  let glyphs := ofChars name.toList
  !name.isEmpty && !name.toList.contains (Char.ofNat 0)
    && nameBreakers.all (fun c => !glyphs.contains (char c))
    && dropComments false glyphs == glyphs
    && replaceWord "Array<".toList ['~', '('] glyphs == glyphs

theorem isLegibleName_iff {name : String} : isLegibleName name = true ↔
    name.toList ≠ [] ∧ Char.ofNat 0 ∉ name.toList
      ∧ (∀ c ∈ nameBreakers, char c ∉ ofChars name.toList)
      ∧ dropComments false (ofChars name.toList) = ofChars name.toList
      ∧ replaceWord "Array<".toList ['~', '('] (ofChars name.toList) = ofChars name.toList := by
  simp [isLegibleName, and_assoc]

/-- Whether the names and keys of a node are read as they are printed. -/
def hasLegibleTexts : Node → Bool
  | leaf name => isLegibleName name
  | n => n.keys.all isQuotableKey && n.hasPlainIndexer

/-- Trees that are read as they are printed, the marks of optional keys aside. -/
def Legible (n : Node) : Prop :=
  n.Regular 2 ∧ ∀ k ∈ n.walk, k.hasLegibleTexts = true

end StructuralTypes.Node

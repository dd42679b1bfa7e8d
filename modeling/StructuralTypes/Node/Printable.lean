import StructuralTypes.Node.Regular
import StructuralTypes.Text.NumberText
import StructuralTypes.Token.MarkerForm

/-! Trees whose annotation can be read back: names that are words, decimal numbers,
literals or the existential, and keys without the few characters that quotes do not
protect. -/

namespace StructuralTypes.Node

/-- A name of word characters only. -/
def isWordName (name : String) : Bool :=
  !name.isEmpty && name.toList.all CharClass.isWord

/-- Digits with a point and digits behind them. -/
def isDecimalName (name : String) : Bool :=
  match NumberText.spanDigits name.toList with
  | (_ :: _, '.' :: rest) => !rest.isEmpty && rest.all CharClass.isDigit
  | _ => false

/-- A text that is one literal as a whole. -/
def isLiteralName (name : String) : Bool :=
  match Glyph.literal? name.toList with
  | some (_, rest) => rest.isEmpty && !name.toList.contains (Char.ofNat 0)
  | none => false

/-- Whether a name is read back as one leaf. -/
def isPrintableName (name : String) : Bool :=
  isWordName name || isDecimalName name || isLiteralName name || name == "*"

/-- The characters that no key may hold. -/
def keyBreakers : List Char :=
  [Char.ofNat 0, '\n', '"', '\\', MarkerForm.optionalMark]

def isPrintableKey (key : String) : Bool :=
  key.toList.all (!keyBreakers.contains ·)

/-- Whether the names and keys of a node can be read back. -/
def hasPrintableTexts : Node → Bool
  | leaf name => isPrintableName name
  | n => n.keys.all isPrintableKey && n.hasPlainIndexer

/-- Trees that can be read back from their annotation. -/
def Printable (n : Node) : Prop :=
  n.Regular 2 ∧ ∀ k ∈ n.walk, k.hasPrintableTexts = true

end StructuralTypes.Node

import StructuralTypes.Token
import StructuralTypes.Token.MarkerForm

/-! Tokens of an annotation: its marker form, split at the punctuation. What stands
between two pieces of punctuation is one name. -/

namespace StructuralTypes.Token

/-- The kind of a punctuation character of the marker form. -/
def punctuation? : Char → Option TokenKind
  | '(' => some .groupOpen
  | ')' => some .groupClose
  | '|' => some .union
  | '&' => some .intersection
  | '?' => some .optional
  | ',' => some .comma
  | ':' => some .colon
  | '#' => some .exactShape
  | '@' => some .shape
  | '~' => some .array
  | '^' => some .tuple
  | '$' => some .arraySuffix
  | _ => none

/-- Puts text in front of tokens: before the text of a leading name, else as a name. -/
def prependName (text : List Char) : List Token → List Token
  | ⟨.name, s⟩ :: rest => ⟨.name, String.ofList (text ++ s.toList)⟩ :: rest
  | tokens => ⟨.name, String.ofList text⟩ :: tokens

/-- The tokens of a marker form. -/
def ofGlyphs : List Glyph → List Token
  | [] => []
  | .literal text :: rest => prependName text (ofGlyphs rest)
  | .char c :: rest =>
    match punctuation? c with
    | some kind => ⟨kind, c.toString⟩ :: ofGlyphs rest
    | none => prependName [c] (ofGlyphs rest)

/-- The tokens of an annotation. -/
def scan (text : String) : Except TypeFault (List Token) := do
  return ofGlyphs (← MarkerForm.ofText text)

end StructuralTypes.Token

import StructuralTypes.Token.MarkerForm

/-! Gaps in the source of an annotation, blanks and comments, and the places where one can be
put without a change of meaning. -/

namespace StructuralTypes

namespace Glyph

/-- Every quote belongs to a literal. -/
def QuotesClosed (glyphs : List Glyph) : Prop :=
  ∀ c, char c ∈ glyphs → Escapes.isQuote c = false

/-- Two slashes are not followed by a line break, so that what comes next is in a comment. -/
def EndsInComment (glyphs : List Glyph) : Prop :=
  ∃ before line, glyphs = before ++ char '/' :: char '/' :: line ∧ char '\n' ∉ line

/-- What stands in the source besides comments and blanks. -/
def visible (glyphs : List Glyph) : List Glyph :=
  dropLayout (dropComments false glyphs)

end Glyph

namespace MarkerForm

/-- What follows a literal that is a key. -/
def keyEnds : List (List Char) :=
  [[':'], ['?', ':'], [optionalMark, ':']]

/-- Whether a literal right before is a key. -/
def FollowsKey (glyphs : List Glyph) : Prop :=
  ∃ word ∈ keyEnds, word.map Glyph.char <+: Glyph.visible glyphs

end MarkerForm

/-- Blanks, or a comment with its line break, that can stand between two parts of a text
without joining a slash of theirs to a comment. -/
inductive Gap (before after : List Char) : List Char → Prop
  | blanks {gap : List Char} (hblank : ∀ c ∈ gap, c ∈ [' ', '\t', '\r', '\n'])
      (hslash : ¬ (before.getLast? = some '/' ∧ after.head? = some '/')) :
      Gap before after gap
  | comment {remark : List Char} (hline : '\n' ∉ remark) (hnul : Char.ofNat 0 ∉ remark)
      (hslash : before.getLast? ≠ some '/') :
      Gap before after ('/' :: '/' :: (remark ++ ['\n']))

end StructuralTypes

import StructuralTypes.Token.MarkerForm

/-! Where a literal stands alone in the source of an annotation, as a key of a shape or as a
type: nothing beside it may be part of the same name. The brackets of an indexer are dropped,
so what is before such a bracket is beside the literal, too. -/

namespace StructuralTypes.MarkerForm

open Glyph

/-- The characters of the source at which names end. -/
def separators : List Char :=
  ['|', '&', ',', ':', '?', '(', ')', '\x7b', '\x7d', '[', ']', '>']

/-- The word that opens an array type. -/
def arrayWord : List Glyph :=
  "Array<".toList.map char

/-- No name goes on at the end of a text. -/
def EndsApart (gs : List Glyph) : Prop :=
  gs = [] ∨ (∃ c ∈ separators, gs.getLast? = some (char c)) ∨ arrayWord <:+ gs

/-- No name goes on at the beginning of a text, and no indexer begins there. -/
def BeginsApart (gs : List Glyph) : Prop :=
  gs = [] ∨ (∃ c ∈ separators, gs.head? = some (char c))
    ∧ ¬ (gs.head? = some (char '[') ∧ closesAsIndexer gs.tail = true)

/-- The next bracket of a text closes, and a colon follows it. -/
def EndsIndexer (gs : List Glyph) : Prop :=
  [']', ':'].map char <+: gs.dropWhile (!isBracket ·)

/-- An indexer begins right before the place between two texts. -/
def OpensIndexer (front back : List Glyph) : Prop :=
  front.getLast? = some (char '[') ∧ EndsIndexer back

/-- Commas and brackets. -/
def isStop (g : Glyph) : Bool :=
  g == char ',' || isBracket g

/-- A colon comes next, commas and brackets aside. -/
def ColonBehind (gs : List Glyph) : Prop :=
  (gs.dropWhile isStop).head? = some (char ':')

/-- What follows a key of a shape. -/
def keyEnd (optional : Bool) : List Char :=
  if optional then ['?', ':'] else [':']

/-- What stands between two texts is a key of a shape by itself. -/
structure IsKeyPlace (optional : Bool) (front back : List Glyph) : Prop where
  left : EndsApart front
  right : (keyEnd optional).map char <+: back
  bracket : OpensIndexer front back → EndsApart front.dropLast

/-- What stands between two texts is a type by itself. -/
structure IsTypePlace (front back : List Glyph) : Prop where
  left : EndsApart front
  right : BeginsApart back
  noKey : ¬ ColonBehind back ∧ ¬ ['?', ':'].map char <+: back
  bracket : OpensIndexer front back → EndsApart front.dropLast

/-! ### Deciding places -/

variable (optional : Bool) (gs front back : List Glyph)

instance : Decidable (EndsApart gs) :=
  inferInstanceAs (Decidable (_ ∨ _ ∨ _))

instance : Decidable (BeginsApart gs) :=
  inferInstanceAs (Decidable (_ ∨ _ ∧ _))

instance : Decidable (EndsIndexer gs) :=
  inferInstanceAs (Decidable (_ <+: _))

instance : Decidable (OpensIndexer front back) :=
  inferInstanceAs (Decidable (_ ∧ _))

instance : Decidable (ColonBehind gs) :=
  inferInstanceAs (Decidable (_ = _))

theorem isKeyPlace_iff : IsKeyPlace optional front back ↔
    EndsApart front ∧ (keyEnd optional).map char <+: back
      ∧ (OpensIndexer front back → EndsApart front.dropLast) :=
  ⟨fun h => ⟨h.left, h.right, h.bracket⟩, fun h => ⟨h.1, h.2.1, h.2.2⟩⟩

theorem isTypePlace_iff : IsTypePlace front back ↔ EndsApart front ∧ BeginsApart back
    ∧ (¬ ColonBehind back ∧ ¬ ['?', ':'].map char <+: back)
    ∧ (OpensIndexer front back → EndsApart front.dropLast) :=
  ⟨fun h => ⟨h.left, h.right, h.noKey, h.bracket⟩, fun h => ⟨h.1, h.2.1, h.2.2.1, h.2.2.2⟩⟩

instance : Decidable (IsKeyPlace optional front back) :=
  decidable_of_iff' _ (isKeyPlace_iff optional front back)

instance : Decidable (IsTypePlace front back) :=
  decidable_of_iff' _ (isTypePlace_iff front back)

end StructuralTypes.MarkerForm

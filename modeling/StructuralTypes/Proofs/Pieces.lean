import StructuralTypes.Grammar
import StructuralTypes.Node.Legible
import StructuralTypes.Node.Printer
import StructuralTypes.Proofs.Glyphs

/-! Printed annotations in pieces: names, keys with their colons, and punctuation. Pieces
are set so that every pass over the glyphs of an annotation acts on each piece by itself,
and a style tells how each kind of piece is spelled between two passes. A piece may stand
where a type is wanted or where one has ended, and leaves the text at one of these places. -/

namespace StructuralTypes

open Glyph

/-! ### Pieces -/

/-- Punctuation, as far as it is printed without a break. -/
inductive Sign where
  | union
  | intersection
  | comma
  | openGroup
  | closeGroup
  | openTuple
  | closeTuple
  | suffix
  /-- The array of existentials. -/
  | existentials
  | openShape (exact : Bool)
  | closeShape (exact : Bool)
  | emptyShape (exact : Bool)
deriving DecidableEq

inductive Piece where
  | sign (s : Sign)
  | name (text : String)
  | key (key : String) (optional : Bool)
  | indexer (name : String)

/-- Places in a printed annotation. -/
inductive Side where
  | wanted
  | ended
deriving DecidableEq

namespace Sign

def all : List Sign :=
  [union, intersection, comma, openGroup, closeGroup, openTuple, closeTuple, suffix, existentials,
    openShape true, openShape false, closeShape true, closeShape false, emptyShape true,
    emptyShape false]

/-- What holds of all signs in the list holds of every sign. -/
theorem forall_of_all {P : Sign → Prop} (h : ∀ s ∈ all, P s) (s : Sign) : P s := by
  refine h s ?_
  cases s with
  | openShape exact => cases exact <;> decide
  | closeShape exact => cases exact <;> decide
  | emptyShape exact => cases exact <;> decide
  | _ => decide

/-- Where the sign may stand. -/
def before : Sign → Side
  | openGroup | openTuple | existentials | openShape _ | emptyShape _ => .wanted
  | union | intersection | comma | closeGroup | closeTuple | suffix | closeShape _ => .ended

/-- Where the sign leaves the text. -/
def after : Sign → Side
  | union | intersection | comma | openGroup | openTuple | openShape _ => .wanted
  | closeGroup | closeTuple | suffix | existentials | closeShape _ | emptyShape _ => .ended

end Sign

namespace Piece

def before : Piece → Side
  | sign s => s.before
  | name _ | key .. | indexer _ => .wanted

def after : Piece → Side
  | sign s => s.after
  | name _ => .ended
  | key .. | indexer _ => .wanted

/-- Whether the texts of a piece can be read back. -/
def Valid : Piece → Prop
  | sign _ => True
  | name text => Node.isLegibleName text = true
  | key k _ => Node.isQuotableKey k = true
  | indexer text => Node.isLegibleName text = true ∧ Escapes.quoted? text.toList = none

end Piece

/-- Pieces that lead from one place to another. -/
def Fits : Side → List Piece → Side → Prop
  | s, [], t => s = t
  | s, p :: rest, t => p.Valid ∧ p.before = s ∧ Fits p.after rest t

theorem Fits.append {s t u : Side} {ps qs : List Piece} (h : Fits s ps t) (h' : Fits t qs u) :
    Fits s (ps ++ qs) u := by
  induction ps generalizing s with
  | nil =>
    obtain rfl : s = t := h
    exact h'
  | cons p rest ih => exact ⟨h.1, h.2.1, ih h.2.2⟩

/-! ### Styles -/

/-- The glyphs of a name: its literals stay whole. -/
def nameGlyphs (text : String) : List Glyph :=
  ofChars text.toList

/-- How pieces are spelled. Names are spelled alike everywhere. -/
structure Style where
  sign : Sign → List Char
  key : String → Bool → List Glyph
  indexer : String → List Glyph

def Style.spell (σ : Style) : Piece → List Glyph
  | .sign s => (σ.sign s).map char
  | .name text => nameGlyphs text
  | .key k optional => σ.key k optional
  | .indexer name => σ.indexer name

/-- A key in its quotes, with a mark inside if it is optional. -/
def quotedKey (key : String) (optional : Bool) : List Char :=
  '"' :: (key.toList ++ (if optional then [MarkerForm.optionalMark] else []) ++ ['"'])

/-- The glyphs of a key in its quotes, with a mark inside if it is optional. -/
def quotedRun (key : String) (optional : Bool) : List Glyph :=
  if Node.isBareKey key then (quotedKey key optional).map char
  else [literal (quotedKey key optional)]

/-- The glyphs of a key: a literal unless it is a word. -/
def keyGlyphs (key : String) : List Glyph :=
  if Node.isBareKey key then key.toList.map char else [literal (quotedKey key false)]

namespace Sign

def printed : Sign → List Char
  | union => [' ', '|', ' ']
  | intersection => [' ', '&', ' ']
  | comma => [',', ' ']
  | openGroup => ['(']
  | closeGroup => [')']
  | openTuple => ['[']
  | closeTuple => [']']
  | suffix => ['[', ']']
  | existentials => ['A', 'r', 'r', 'a', 'y', '<', '*', '>']
  | openShape true => ['\x7b', '|', ' ']
  | openShape false => ['\x7b', ' ']
  | closeShape true => [' ', '|', '\x7d']
  | closeShape false => [' ', '\x7d']
  | emptyShape true => ['\x7b', '|', '|', '\x7d']
  | emptyShape false => ['\x7b', '\x7d']

/-- Without blanks. -/
def squeezed : Sign → List Char
  | union => ['|']
  | intersection => ['&']
  | comma => [',']
  | openShape true => ['\x7b', '|']
  | openShape false => ['\x7b']
  | closeShape true => ['|', '\x7d']
  | closeShape false => ['\x7d']
  | s => s.printed

/-- With exact shapes marked. -/
def opened : Sign → List Char
  | openShape true => ['#', '(']
  | emptyShape true => ['#', '(', '|', '\x7d']
  | s => s.squeezed

/-- With the ends of exact shapes marked as well. -/
def closed : Sign → List Char
  | closeShape true => [')']
  | emptyShape true => ['#', '(', ')']
  | s => s.opened

/-- With shapes marked. -/
def shaped : Sign → List Char
  | openShape true => ['#', '(']
  | openShape false => ['@', '(']
  | closeShape _ => [')']
  | emptyShape true => ['#', '(', ')']
  | emptyShape false => ['@', '(', ')']
  | s => s.squeezed

/-- With array suffixes marked as well. -/
def suffixed : Sign → List Char
  | suffix => ['$']
  | s => s.shaped

/-- With the word for arrays marked. -/
def arrayed : Sign → List Char
  | existentials => ['~', '(', '*', '>']
  | s => s.suffixed

/-- With everything marked. -/
def marked : Sign → List Char
  | openTuple => ['^', '(']
  | closeTuple => [')']
  | existentials => ['~', '(', '*', ')']
  | s => s.suffixed

end Sign

namespace Style

/-- As printed. -/
def printed : Style where
  sign := Sign.printed
  key k optional := keyGlyphs k ++ ((if optional then ['?'] else []) ++ [':', ' ']).map char
  indexer name := char '[' :: (nameGlyphs name ++ [char ']', char ':', char ' '])

def squeezed : Style where
  sign := Sign.squeezed
  key k optional := keyGlyphs k ++ ((if optional then ['?'] else []) ++ [':']).map char
  indexer name := char '[' :: (nameGlyphs name ++ [char ']', char ':'])

/-- With the marks of optional keys. -/
def masked : Style where
  sign := Sign.squeezed
  key k optional :=
    keyGlyphs k ++ ((if optional then [MarkerForm.optionalMark] else []) ++ [':']).map char
  indexer := squeezed.indexer

/-- With keys in quotes as far as they are literals. -/
def taken : Style where
  sign := Sign.squeezed
  key k optional :=
    if Node.isBareKey k then masked.key k optional else [literal (quotedKey k optional), char ':']
  indexer := squeezed.indexer

/-- With all keys in quotes. -/
def quoted : Style where
  sign := Sign.squeezed
  key k optional := quotedRun k optional ++ [char ':']
  indexer := squeezed.indexer

def opened : Style := { quoted with sign := Sign.opened }

def closed : Style := { quoted with sign := Sign.closed }

def shaped : Style := { quoted with sign := Sign.shaped }

/-- With the brackets of indexers dropped. -/
def unwrapped : Style := { shaped with indexer := fun name => nameGlyphs name ++ [char ':'] }

def suffixed : Style := { unwrapped with sign := Sign.suffixed }

def arrayed : Style := { unwrapped with sign := Sign.arrayed }

def marked : Style := { unwrapped with sign := Sign.marked }

end Style

end StructuralTypes

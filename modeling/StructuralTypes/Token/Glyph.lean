import StructuralTypes.Text.CharClass
import StructuralTypes.Text.Escapes

/-! The source of an annotation as glyphs: characters, and string literals that are
set aside whole so that nothing done to the text can reach inside them. -/

namespace StructuralTypes

/-- One piece of the source. -/
inductive Glyph where
  | char (c : Char)
  /-- A string literal with its quotes. -/
  | literal (text : List Char)
deriving DecidableEq

namespace Glyph

/-- The characters that a glyph stands for. -/
def chars : Glyph → List Char
  | char c => [c]
  | literal text => text

/-- The text that glyphs stand for. -/
def textOf (glyphs : List Glyph) : List Char :=
  glyphs.flatMap chars

def isLiteral : Glyph → Bool
  | literal _ => true
  | char _ => false

/-! ### Setting literals aside -/

/-- The content of a literal up to its closing quote, and the text after it. A
backslash takes the next character with it; a literal does not span lines. -/
def literalBody? (quote : Char) : List Char → Option (List Char × List Char)
  | [] => none
  | ['\\'] => none
  | '\\' :: c :: rest =>
    if c = '\n' then none else (literalBody? quote rest).map fun p => ('\\' :: c :: p.1, p.2)
  | c :: rest =>
    if c = quote then some ([], rest)
    else if c = '\n' then none
    else (literalBody? quote rest).map fun p => (c :: p.1, p.2)

/-- A literal at the front of the text, with its quotes, and the text after it. -/
def literal? : List Char → Option (List Char × List Char)
  | [] => none
  | q :: rest =>
    if Escapes.isQuote q then (literalBody? q rest).map fun p => (q :: (p.1 ++ [q]), p.2) else none

theorem literalBody?_eq_some {quote : Char} {s body after : List Char}
    (h : literalBody? quote s = some (body, after)) : s = body ++ quote :: after := by
  fun_induction literalBody? quote s generalizing body after with
  | case1 => simp at h
  | case2 => simp at h
  | case3 => simp at h
  | case4 c rest hc ih =>
    obtain ⟨⟨b, r⟩, hb, he⟩ := Option.map_eq_some_iff.1 h
    simp only [Prod.mk.injEq] at he
    obtain ⟨rfl, rfl⟩ := he
    simp [ih hb]
  | case5 rest =>
    simp only [Option.some.injEq, Prod.mk.injEq] at h
    obtain ⟨rfl, rfl⟩ := h
    rfl
  | case6 => simp at h
  | case7 c rest _ _ hc hn ih =>
    obtain ⟨⟨b, r⟩, hb, he⟩ := Option.map_eq_some_iff.1 h
    simp only [Prod.mk.injEq] at he
    obtain ⟨rfl, rfl⟩ := he
    simp [ih hb]

/-- A literal and the text after it are the whole text. -/
theorem literal?_eq_some {s text after : List Char} (h : literal? s = some (text, after)) :
    s = text ++ after := by
  cases s with
  | nil => simp [literal?] at h
  | cons q rest =>
    simp only [literal?] at h
    split at h
    · obtain ⟨⟨b, r⟩, hb, he⟩ := Option.map_eq_some_iff.1 h
      simp only [Prod.mk.injEq] at he
      obtain ⟨rfl, rfl⟩ := he
      simp [literalBody?_eq_some hb]
    · simp at h

theorem length_lt_of_literal? {s text after : List Char} (h : literal? s = some (text, after)) :
    after.length < s.length := by
  have hs := literal?_eq_some h
  cases text with
  | nil =>
    cases s with
    | nil => simp [literal?] at h
    | cons q rest =>
      simp only [literal?] at h
      split at h
      · obtain ⟨p, _, he⟩ := Option.map_eq_some_iff.1 h
        simp at he
      · simp at h
  | cons c cs =>
    rw [hs, List.length_append, List.length_cons]
    omega

/-- The glyphs of a text: each literal, from left to right, becomes one glyph. -/
def ofChars : List Char → List Glyph
  | [] => []
  | c :: rest =>
    match _h : literal? (c :: rest) with
    | some (text, after) => literal text :: ofChars after
    | none => char c :: ofChars rest
termination_by s => s.length
decreasing_by
  · exact length_lt_of_literal? _h
  · simp

/-- Setting literals aside loses nothing. -/
theorem textOf_ofChars (s : List Char) : textOf (ofChars s) = s := by
  fun_induction ofChars s with
  | case1 => rfl
  | case2 c rest text after h ih =>
    simp only [textOf, List.flatMap_cons, chars] at ih ⊢
    rw [ih, ← literal?_eq_some h]
  | case3 c rest h ih =>
    simp only [textOf, List.flatMap_cons, chars] at ih ⊢
    rw [ih]
    rfl

/-! ### Comments, blanks and edges -/

/-- Drops each comment, from two slashes to the end of the line. The flag tells
whether the text begins inside a comment. -/
def dropComments : Bool → List Glyph → List Glyph
  | _, [] => []
  | true, g :: rest =>
    if g = char '\n' then g :: dropComments false rest else dropComments true rest
  | false, [g] => [g]
  | false, g :: h :: rest =>
    if g = char '/' ∧ h = char '/' then dropComments true rest
    else g :: dropComments false (h :: rest)

def isLayout : Glyph → Bool
  | char c => c == ' ' || c == '\t' || c == '\r' || c == '\n'
  | literal _ => false

def dropLayout (glyphs : List Glyph) : List Glyph :=
  glyphs.filter (!·.isLayout)

def isOperator : Glyph → Bool
  | char c => c == '|' || c == '&'
  | literal _ => false

/-- Drops operators at both ends. -/
def trimOperators (glyphs : List Glyph) : List Glyph :=
  ((glyphs.dropWhile isOperator).reverse.dropWhile isOperator).reverse

/-! ### Replacing characters -/

/-- Replaces one character wherever it stands. -/
def replaceChar (c : Char) (replacement : List Char) (glyphs : List Glyph) : List Glyph :=
  glyphs.flatMap fun g => if g = char c then replacement.map char else [g]

/-- Replaces a word wherever it stands, from left to right and without overlaps.
The count tells how many glyphs still belong to the word just replaced. -/
def replaceFrom (word replacement : List Char) : Nat → List Glyph → List Glyph
  | _, [] => []
  | skip + 1, _ :: rest => replaceFrom word replacement skip rest
  | 0, g :: rest =>
    if (word.map char).isPrefixOf (g :: rest) then
      replacement.map char ++ replaceFrom word replacement (word.length - 1) rest
    else g :: replaceFrom word replacement 0 rest

def replaceWord (word replacement : List Char) (glyphs : List Glyph) : List Glyph :=
  replaceFrom word replacement 0 glyphs

end Glyph

end StructuralTypes

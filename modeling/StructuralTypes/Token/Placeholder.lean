import StructuralTypes.Text.NumberText
import StructuralTypes.Token.Lexer

/-! The tokens of an annotation by way of plain text. Each string literal is set aside under a
number and leaves a placeholder, its digits between two marks. The passes run over characters
only, and so could reach into a placeholder; literals are put back in the pieces of the result. -/

namespace StructuralTypes

namespace Glyph

def text? : Glyph → Option (List Char)
  | char _ => none
  | literal text => some text

/-- The texts of the literals. -/
def literals (glyphs : List Glyph) : List (List Char) :=
  glyphs.filterMap text?

end Glyph

namespace Placeholder

open Glyph MarkerForm

/-! ### Placeholders -/

/-- Stands at both ends of a placeholder. -/
def mark : Char := Char.ofNat 0

def write (number : Nat) : List Char :=
  mark :: (Nat.toDigits 10 number ++ [mark])

/-- The number of a placeholder at the front of a text, and the text after it. -/
def read? : List Char → Option (Nat × List Char)
  | [] => none
  | c :: rest =>
    if c = mark then
      match NumberText.spanDigits rest with
      | (d :: ds, e :: after) =>
        if e = mark then some (NumberText.digitsToNat (d :: ds), after) else none
      | _ => none
    else none

/-- A placeholder and the text after it are the whole text. -/
theorem read?_eq_some {s after : List Char} {k : Nat} (h : read? s = some (k, after)) :
    ∃ digits, s = mark :: (digits ++ mark :: after)
      ∧ ∀ c ∈ digits, CharClass.isDigit c = true := by
  cases s with
  | nil => cases h
  | cons c rest =>
    rw [read?] at h
    split at h
    · rename_i hc
      have hrest := NumberText.spanDigits_append rest
      have hdigit := @NumberText.isDigit_of_mem_spanDigits rest
      split at h
      · rename_i d ds e tail hspan
        rw [hspan] at hrest hdigit
        split at h
        · rename_i he
          cases h
          exact ⟨d :: ds, by rw [hc, ← hrest, he], fun _ => hdigit⟩
        · cases h
      · cases h
    · cases h

theorem length_lt_of_read? {s after : List Char} {k : Nat} (h : read? s = some (k, after)) :
    after.length < s.length := by
  obtain ⟨digits, rfl, -⟩ := read?_eq_some h
  simp only [List.length_cons, List.length_append]
  omega

/-- Puts placeholders in the place of literals, numbered from left to right. -/
def mask (next : Nat) : List Glyph → List Glyph
  | [] => []
  | .literal _ :: rest => .literal (write next) :: mask (next + 1) rest
  | .char c :: rest => .char c :: mask next rest

/-- Puts literals in the place of placeholders; `none` if there is a number without one. -/
def restore? (literals : List (List Char)) : List Char → Option (List Char)
  | [] => some []
  | c :: rest =>
    match _h : read? (c :: rest) with
    | some (k, after) => do return (← literals[k]?) ++ (← restore? literals after)
    | none => do return c :: (← restore? literals rest)
termination_by s => s.length
decreasing_by
  · exact length_lt_of_read? _h
  · simp

/-! ### Keys -/

/-- A placeholder that stands before a colon at the front of a text, whether there is an
optional mark between the two, and the text after the colon. -/
def readKey? (s : List Char) : Option (Nat × Bool × List Char) :=
  match read? s with
  | some (k, ':' :: after) => some (k, false, after)
  | some (k, c :: ':' :: after) => if c = optionalMark then some (k, true, after) else none
  | _ => none

theorem length_lt_of_readKey? {s after : List Char} {k : Nat} {isOptional : Bool}
    (h : readKey? s = some (k, isOptional, after)) : after.length < s.length := by
  unfold readKey? at h
  split at h
  · rename_i hr
    have hlt := length_lt_of_read? hr
    cases h
    rw [List.length_cons] at hlt
    omega
  · rename_i hr
    have hlt := length_lt_of_read? hr
    split at h
    · cases h
      rw [List.length_cons, List.length_cons] at hlt
      omega
    · cases h
  · cases h

/-- Respells the literals that stand before a colon, and takes in their optional marks. -/
def respellKeys? (literals : List (List Char)) :
    List Char → Option (List Char × List (List Char))
  | [] => some ([], literals)
  | c :: rest =>
    match _h : readKey? (c :: rest) with
    | some (k, isOptional, after) => do
      let literal ← literals[k]?
      let (s, literals) ← respellKeys? (literals.set k (keyOfLiteral literal isOptional)) after
      return (write k ++ ':' :: s, literals)
    | none => do
      let (s, literals) ← respellKeys? literals rest
      return (c :: s, literals)
termination_by s => s.length
decreasing_by
  · exact length_lt_of_readKey? _h
  · simp

/-- Whether a name can start after a character: not within a word, nor at a placeholder. -/
def startsName : Option Char → Bool
  | none => true
  | some c => !(CharClass.isWord c || c == mark)

/-- Puts names that stand before a colon in quotes, given the character before the text. -/
def quoteNames (before : Option Char) : List Char → List Char
  | [] => []
  | c :: rest =>
    let after := rest.dropWhile isKeyChar
    if isKeyChar c && startsName before && after.head? == some ':' then
      '"' :: c :: (rest.takeWhile isKeyChar ++ '"' :: quoteNames (some c) after)
    else c :: quoteNames (some c) rest
termination_by s => s.length
decreasing_by
  · exact Nat.lt_succ_of_le (List.dropWhile_suffix _).length_le
  · simp

/-- Whether an indexer with a name begins here, a name in quotes or a literal set aside. -/
def startsIndexer : List Char → Bool
  | [] => false
  | c :: rest =>
    startsNamedIndexer ((c :: rest).map .char) || c == '[' && (read? rest).any fun p =>
      p.2.head? == some ':' && closesAsIndexer (p.2.tail.map .char)

def hasIndexer : List Char → Bool
  | [] => false
  | c :: rest => startsIndexer (c :: rest) || hasIndexer rest

/-! ### The whole form -/

/-- A marker form with placeholders, and the literals they stand for. -/
structure Form where
  source : List Char
  literals : List (List Char)

/-- Runs a pass over plain text. -/
def onText (pass : List Glyph → List Glyph) (s : List Char) : List Char :=
  textOf (pass (s.map .char))

/-- The marker form of an annotation; `none` if a number has no literal. -/
def rewrite (text : String) : Except TypeFault (Option Form) := do
  let fail (c : Cause) : Except TypeFault Unit := throw { cause := c, source := some text }
  if text.toList.contains mark then fail .nulCharacter
  let glyphs := ofChars text.toList
  let source := onText squeeze (textOf (mask 0 glyphs))
  let reserved := reservedIn (source.map .char)
  if !reserved.isEmpty then fail (.reservedCharacters (String.ofList reserved))
  match respellKeys? (literals glyphs)
      (onText (replaceWord ['?', ':'] [optionalMark, ':']) source) with
  | none => return none
  | some (source, literals) =>
    let shaped := onText markShapes (quoteNames none source)
    if hasIndexer shaped then fail .namedIndexer
    return some ⟨onText markSequences (onText (unwrapIndexers false) shaped), literals⟩

/-- The marker form as text. -/
def render (text : String) : Except TypeFault (Option String) := do
  return (← rewrite text).bind fun form =>
    (restore? form.literals form.source).map String.ofList

/-! ### Tokens -/

/-- Cuts a text at its punctuation, each of which is a piece by itself. -/
def pieces : List Char → List (List Char)
  | [] => []
  | c :: rest =>
    if (Token.punctuation? c).isSome then [c] :: pieces rest
    else
      (c :: rest.takeWhile fun d => (Token.punctuation? d).isNone)
        :: pieces (rest.dropWhile fun d => (Token.punctuation? d).isNone)
termination_by s => s.length
decreasing_by
  · simp
  · exact Nat.lt_succ_of_le (List.dropWhile_suffix _).length_le

/-- The token of a piece. -/
def classify : List Char → Token
  | [c] => ⟨(Token.punctuation? c).getD .name, String.ofList [c]⟩
  | piece => ⟨.name, String.ofList piece⟩

/-- What no name has outside of its literals: blanks, the punctuation of marker forms, and
the brackets of the source. -/
def structural : List Char :=
  [' ', '\t', '\r', '\n', '(', ')', '&', '|', '?', '#', '@', '$', '^', '~', ':', ',',
   '\x7b', '\x7d', '[', ']', '>']

/-- A token that a piece becomes: its text is the piece with literals put back, and a name is
no empty text and has nothing of structure but in its literals. -/
structure Yields (literals : List (List Char)) (piece : List Char) (t : Token) : Prop where
  text : restore? literals piece = some t.text.toList
  name : t.kind = .name → t.text ≠ "" ∧ ∀ c ∈ piece, c ∉ structural

/-- The tokens of an annotation, literals put back piece by piece. -/
def scan (text : String) : Except TypeFault (Option (List Token)) := do
  return (← rewrite text).bind fun form =>
    (pieces form.source).mapM fun piece => (restore? form.literals piece).map classify

end Placeholder

/-- The texts of tokens, one after the other. -/
def Token.spelled (tokens : List Token) : List Char :=
  tokens.flatMap (·.text.toList)

end StructuralTypes

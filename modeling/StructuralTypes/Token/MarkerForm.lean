import StructuralTypes.Fault
import StructuralTypes.Token.Glyph

/-! The marker form of an annotation. Every composite type is respelled as one marker
character and a group in round brackets, keys of shapes are put in double quotes, and
an optional key ends in a mark inside its quotes. String literals are opaque
throughout; the marker characters themselves are refused in the source. -/

namespace StructuralTypes.MarkerForm

open Glyph

/-- Ends the text of an optional key, in place of its question mark. -/
def optionalMark : Char := '¿'

/-- The marker characters, in order. -/
def reserved : List Char := ['#', '$', '@', '^', '~']

/-- The marker characters that occur outside literals, in order. -/
def reservedIn (glyphs : List Glyph) : List Char :=
  reserved.filter fun c => glyphs.contains (char c)

/-! ### Layout and stray operators -/

/-- Opening constructs followed by an operator that carries no meaning there. -/
def danglingOperators : List (List Char × Char) :=
  [([':', '|'], ':'), ([':', '&'], ':'), (['[', '|'], '['), (['[', '&'], '['),
   (['(', '|'], '('), (['(', '&'], '(')]

/-- The source without comments, blanks and operators that have no left operand. -/
def squeeze (glyphs : List Glyph) : List Glyph :=
  danglingOperators.foldl (fun gs p => replaceWord p.1 [p.2] gs)
    (trimOperators (dropLayout (dropComments false glyphs)))

/-! ### Keys -/

/-- The key written by a literal: its content with escaped quotes read as plain ones. -/
def keyOfLiteral (text : List Char) (isOptional : Bool) : List Char :=
  match text with
  | [] => []
  | q :: rest =>
    '"' :: (Escapes.unescape q rest.dropLast
      ++ (if isOptional then [optionalMark] else []) ++ ['"'])

/-- Respells literals that stand before a colon, taking in an optional mark between
the two. -/
def quoteLiteralKeys : List Glyph → List Glyph
  | literal t :: g :: rest =>
    if g = char ':' then literal (keyOfLiteral t false) :: quoteLiteralKeys (g :: rest)
    else if g = char optionalMark ∧ rest.head? = some (char ':') then
      literal (keyOfLiteral t true) :: quoteLiteralKeys rest
    else literal t :: quoteLiteralKeys (g :: rest)
  | g :: rest => g :: quoteLiteralKeys rest
  | [] => []

/-- Word characters and the optional mark. -/
def isKeyChar (c : Char) : Bool :=
  CharClass.isWord c || c == optionalMark

def isKeyGlyph : Glyph → Bool
  | char c => isKeyChar c
  | literal _ => false

/-- Splits a run of key characters that follows a literal: a key can start there only
right after an optional mark. -/
def splitAfterMark (run : List Glyph) : List Glyph × List Glyph :=
  let kept := run.takeWhile (· != char optionalMark)
  match run.dropWhile (· != char optionalMark) with
  | [] => (kept, [])
  | mark :: name => (kept ++ [mark], name)

/-- A run of key characters, put in quotes when it is a key. -/
def quoteRun (afterLiteral : Bool) (run after : List Glyph) : List Glyph :=
  let (kept, name) := if afterLiteral then splitAfterMark run else ([], run)
  if !name.isEmpty && after.head? == some (char ':') then
    kept ++ char '"' :: (name ++ [char '"'])
  else run

/-- Puts names that stand before a colon in quotes. The flag tells whether a literal
stands right before the text. -/
def quoteNameKeys (afterLiteral : Bool) : List Glyph → List Glyph
  | [] => []
  | g :: rest =>
    if isKeyGlyph g then
      let after := rest.dropWhile isKeyGlyph
      quoteRun afterLiteral (g :: rest.takeWhile isKeyGlyph) after ++ quoteNameKeys false after
    else g :: quoteNameKeys g.isLiteral rest
termination_by s => s.length
decreasing_by
  · exact Nat.lt_succ_of_le (List.dropWhile_suffix _).length_le
  · simp

def quoteKeys (glyphs : List Glyph) : List Glyph :=
  quoteNameKeys false (quoteLiteralKeys (replaceWord ['?', ':'] [optionalMark, ':'] glyphs))

/-! ### Shapes and indexers -/

def markShapes (glyphs : List Glyph) : List Glyph :=
  replaceChar '\x7d' [')'] (replaceChar '\x7b' ['@', '(']
    (replaceWord ['|', '\x7d'] [')'] (replaceWord ['\x7b', '|'] ['#', '('] glyphs)))

def isBracket (g : Glyph) : Bool :=
  g == char '[' || g == char ']'

/-- Whether the text holds no bracket up to a closing one that a colon follows. -/
def closesAsIndexer (s : List Glyph) : Bool :=
  !(s.takeWhile (!isBracket ·)).isEmpty
    && [char ']', char ':'].isPrefixOf (s.dropWhile (!isBracket ·))

/-- The text after a quoted key. -/
def afterKey? : List Glyph → Option (List Glyph)
  | literal _ :: rest => some rest
  | g :: rest =>
    if g = char '"' ∧ !(rest.takeWhile isKeyGlyph).isEmpty then
      match rest.dropWhile isKeyGlyph with
      | h :: after => if h = char '"' then some after else none
      | [] => none
    else none
  | [] => none

/-- Whether an indexer with a name begins here. -/
def startsNamedIndexer : List Glyph → Bool
  | [] => false
  | g :: rest =>
    g == char '[' && match afterKey? rest with
      | some (h :: after) => h == char ':' && closesAsIndexer after
      | _ => false

def hasNamedIndexer : List Glyph → Bool
  | [] => false
  | g :: rest => startsNamedIndexer (g :: rest) || hasNamedIndexer rest

/-- Drops the brackets of indexers. The flag tells whether an indexer is open. -/
def unwrapIndexers : Bool → List Glyph → List Glyph
  | _, [] => []
  | inside, g :: rest =>
    if g = char '[' ∧ closesAsIndexer rest then unwrapIndexers true rest
    else if inside ∧ g = char ']' then unwrapIndexers false rest
    else g :: unwrapIndexers inside rest

/-! ### Arrays and tuples -/

def markSequences (glyphs : List Glyph) : List Glyph :=
  replaceChar ']' [')'] (replaceChar '[' ['^', '('] (replaceChar '>' [')']
    (replaceWord "Array<".toList ['~', '('] (replaceWord ['[', ']'] ['$'] glyphs))))

/-! ### The whole form -/

/-- The marker form of an annotation. -/
def ofText (text : String) : Except TypeFault (List Glyph) := do
  let fail (c : Cause) : Except TypeFault Unit := throw { cause := c, source := some text }
  if text.toList.contains (Char.ofNat 0) then fail .nulCharacter
  let source := squeeze (Glyph.ofChars text.toList)
  if !(reservedIn source).isEmpty then
    fail (.reservedCharacters (String.ofList (reservedIn source)))
  let shaped := markShapes (quoteKeys source)
  if hasNamedIndexer shaped then fail .namedIndexer
  return markSequences (unwrapIndexers false shaped)

/-- The marker form as text. -/
def render (text : String) : Except TypeFault String := do
  return String.ofList (textOf (← ofText text))

end StructuralTypes.MarkerForm

/-! Places in the text of a document, and the movements that every reader shares:
along a line, over a line break, and over blanks and comments. Columns count from the
start of the line; a byte order mark takes no column. -/

namespace StructuralTypes.Yaml

/-! ### Characters -/

/-- Line breaks, once the others have been made line feeds. -/
def isBreak (c : Char) : Bool :=
  c == '\n' || c == '\u2028' || c == '\u2029'

/-- Line feeds in place of the other line breaks of one meaning. -/
def normalizeBreaks : List Char → List Char
  | [] => []
  | '\r' :: '\n' :: rest => '\n' :: normalizeBreaks rest
  | c :: rest => (if c == '\r' || c == '\u0085' then '\n' else c) :: normalizeBreaks rest

/-- Whether a document may hold a character. -/
def isAllowed (c : Char) : Bool :=
  c == '\t' || c == '\n' || c == '\r' || c == '\u0085'
    || (0x20 ≤ c.toNat && c.toNat ≤ 0x7E)
    || (0xA0 ≤ c.toNat && c.toNat ≤ 0xFFFD)
    || 0x10000 ≤ c.toNat

def byteOrderMark : Char := '\uFEFF'

/-- Whether a text is at its end or goes on with a line break. -/
def atBreak : List Char → Bool
  | [] => true
  | c :: _ => isBreak c

/-- Whether a text is at its end or goes on with a space or a line break. -/
def atSpace : List Char → Bool
  | [] => true
  | c :: _ => c == ' ' || isBreak c

/-- Whether a text is at its end or goes on with a blank or a line break. -/
def atBlank : List Char → Bool
  | [] => true
  | c :: _ => c == ' ' || c == '\t' || isBreak c

/-- Three hyphens or points that stand alone. -/
def isMarker (mark : Char) : List Char → Bool
  | a :: b :: c :: rest => a == mark && b == mark && c == mark && atBlank rest
  | _ => false

/-! ### Places -/

/-- A place in a text, with what follows. -/
structure Cursor where
  rest : List Char
  /-- The number of characters before the place. -/
  index : Nat
  line : Nat
  column : Nat
deriving DecidableEq

namespace Cursor

/-- The start of a text, behind a byte order mark. -/
def ofText : List Char → Cursor
  | [] => { rest := [], index := 0, line := 0, column := 0 }
  | c :: rest =>
    if c == byteOrderMark then { rest, index := 1, line := 0, column := 0 }
    else { rest := c :: rest, index := 0, line := 0, column := 0 }

/-- Behind some characters of the line. -/
def advance (k : Cursor) (count : Nat) : Cursor :=
  { k with
    rest := k.rest.drop count
    index := k.index + count
    column := k.column + (k.rest.take count).countP (· != byteOrderMark) }

/-- Whether the text begins a document or ends one here. -/
def atMarker (k : Cursor) : Bool :=
  k.column == 0 && (isMarker '-' k.rest || isMarker '.' k.rest)

/-- Behind the characters that pass a test. -/
def skipWhile (test : Char → Bool) (k : Cursor) : Cursor :=
  k.advance (k.rest.takeWhile test).length

/-- The line break at a place, if there is one, and the place behind it. -/
def takeBreak (k : Cursor) : List Char × Cursor :=
  match k.rest with
  | c :: rest =>
    if isBreak c then ([c], { rest, index := k.index + 1, line := k.line + 1, column := 0 })
    else ([], k)
  | [] => ([], k)

def skipFrom (index line column : Nat) (comment : Bool) : List Char → Cursor
  | [] => { rest := [], index, line, column }
  | c :: rest =>
    if isBreak c then skipFrom (index + 1) (line + 1) 0 false rest
    else if comment || c == '#' then skipFrom (index + 1) line (column + 1) true rest
    else if c == ' ' then skipFrom (index + 1) line (column + 1) false rest
    else { rest := c :: rest, index, line, column }

/-- Passes over spaces, comments and line breaks. -/
def skip (k : Cursor) : Cursor :=
  skipFrom k.index k.line k.column false k.rest

/-- The start of the next line, where only spaces and a comment are left on this one. -/
def endLine? (k : Cursor) : Option Cursor :=
  let k := k.skipWhile (· == ' ')
  let k := if k.rest.head? == some '#' then k.skipWhile (!isBreak ·) else k
  if atBreak k.rest then some k.takeBreak.2 else none

end Cursor

end StructuralTypes.Yaml

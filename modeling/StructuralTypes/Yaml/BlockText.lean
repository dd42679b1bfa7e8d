import StructuralTypes.Yaml.Cursor

/-! Texts in blocks: the lines behind a header, all at one column or behind it. A
literal text keeps its line breaks; in a folded one a single break between lines that
do not begin with a blank counts as a space. The header says what becomes of the line
breaks at the end. -/

namespace StructuralTypes.Yaml.BlockText

/-! ### Headers -/

/-- What becomes of the line breaks at the end. -/
inductive Chomping where
  | strip
  /-- One is kept. -/
  | clip
  | keep
deriving DecidableEq

structure Header where
  chomping : Chomping
  /-- The distance of the text from the block around it, where it is given. -/
  increment : Option Nat

/-- A sign of chomping, and what follows it. -/
def takeChomping (k : Cursor) : Option Chomping × Cursor :=
  match k.rest with
  | '+' :: _ => (some .keep, k.advance 1)
  | '-' :: _ => (some .strip, k.advance 1)
  | _ => (none, k)

/-- A digit, and what follows it. -/
def takeIncrement (k : Cursor) : Option Nat × Cursor :=
  match k.rest with
  | c :: _ => if '0' ≤ c ∧ c ≤ '9' then (some (c.toNat - 48), k.advance 1) else (none, k)
  | [] => (none, k)

/-- The header behind its indicator, and the start of the line behind it. -/
def readHeader? (k : Cursor) : Option (Header × Cursor) := do
  let (before, k) := takeChomping k
  let (increment, k) := takeIncrement k
  let (after, k) := if before.isNone && increment.isSome then takeChomping k else (none, k)
  if increment = some 0 || !atSpace k.rest then none
  let chomping := (before.or after).getD .clip
  some ({ chomping, increment }, ← k.endLine?)

/-! ### Lines -/

/-- The empty lines before the text, and the last column that one of them reaches. -/
def leadingBreaks (widest index line column : Nat) : List Char → List Char × Nat × Cursor
  | [] => ([], widest, { rest := [], index, line, column })
  | c :: rest =>
    if c == ' ' then leadingBreaks (max widest (column + 1)) (index + 1) line (column + 1) rest
    else if isBreak c then
      let (breaks, widest, k) := leadingBreaks widest (index + 1) (line + 1) 0 rest
      (c :: breaks, widest, k)
    else ([], widest, { rest := c :: rest, index, line, column })

/-- The empty lines before text at a column. -/
def breaksBefore (indent index line column : Nat) : List Char → List Char × Cursor
  | [] => ([], { rest := [], index, line, column })
  | c :: rest =>
    if c == ' ' && column < indent then breaksBefore indent (index + 1) line (column + 1) rest
    else if isBreak c then
      let (breaks, k) := breaksBefore indent (index + 1) (line + 1) 0 rest
      (c :: breaks, k)
    else ([], { rest := c :: rest, index, line, column })

def startsBlank (s : List Char) : Bool :=
  s.head? == some ' ' || s.head? == some '\t'

/-- What stands for the line break between two lines of text. -/
def joint (isFolded : Bool) (line lineBreak breaks next : List Char) : List Char :=
  if isFolded && lineBreak == ['\n'] && !startsBlank line && !startsBlank next then
    if breaks.isEmpty then [' '] else []
  else lineBreak

/-- The lines of a text, the line break behind the last one, the empty lines behind
that, and what follows. -/
structure Body where
  text : List Char
  lineBreak : List Char
  breaks : List Char
  behind : Cursor

/-- The lines at a column, behind some empty ones. The count bounds their number. -/
def readLines (isFolded : Bool) (indent : Nat) : Nat → List Char → Cursor → Body
  | 0, breaks, k => { text := [], lineBreak := [], breaks, behind := k }
  | n + 1, breaks, k =>
    if k.column != indent || k.rest.isEmpty then
      { text := [], lineBreak := [], breaks, behind := k }
    else
      let line := k.rest.takeWhile (!isBreak ·)
      let (lineBreak, k) := (k.advance line.length).takeBreak
      let (more, next) := breaksBefore indent k.index k.line k.column k.rest
      if next.column == indent && !next.rest.isEmpty then
        let body := readLines isFolded indent n more next
        { body with
          text := breaks ++ line ++ joint isFolded line lineBreak more next.rest ++ body.text }
      else { text := breaks ++ line, lineBreak, breaks := more, behind := next }

/-- A text behind its indicator; `least` is the first column that it can have. -/
def read? (isFolded : Bool) (least : Nat) (k : Cursor) : Option (List Char × Cursor) := do
  let (header, k) ← readHeader? k
  let (indent, breaks, k) :=
    match header.increment with
    | some n =>
      let indent := least + n - 1
      (indent, breaksBefore indent k.index k.line k.column k.rest)
    | none =>
      let (breaks, widest, k) := leadingBreaks 0 k.index k.line k.column k.rest
      (max least widest, breaks, k)
  let body := readLines isFolded indent (k.rest.length + 1) breaks k
  let tail := match header.chomping with
    | .strip => []
    | .clip => body.lineBreak
    | .keep => body.lineBreak ++ body.breaks
  some (body.text ++ tail, body.behind)

end StructuralTypes.Yaml.BlockText

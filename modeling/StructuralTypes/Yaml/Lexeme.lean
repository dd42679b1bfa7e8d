import StructuralTypes.Text.Radix
import StructuralTypes.Yaml
import StructuralTypes.Yaml.Cursor

/-! Reading one scalar on its lines. A scalar may run over several lines: a single line
break between its parts counts as a space, and of several breaks in a row all but the
first are kept. -/

namespace StructuralTypes.Yaml

/-! ### Line breaks inside a scalar -/

/-- The line breaks from a place at the start of a line on, up to other text or a
document marker; other characters of a gap are dropped. -/
def moreBreaks (isGap : Char → Bool) (index line column : Nat) : List Char → List Char × Cursor
  | [] => ([], { rest := [], index, line, column })
  | c :: rest =>
    let here : Cursor := { rest := c :: rest, index, line, column }
    if here.atMarker then ([], here)
    else if isBreak c then
      let (breaks, k) := moreBreaks isGap (index + 1) (line + 1) 0 rest
      (c :: breaks, k)
    else if isGap c then moreBreaks isGap (index + 1) line (column + 1) rest
    else ([], here)

/-- The line breaks from a place on. -/
def breaksFrom (isGap : Char → Bool) (k : Cursor) : List Char × Cursor :=
  moreBreaks isGap k.index k.line k.column k.rest

/-- What a first line break and further ones stand for. -/
def folded (first breaks : List Char) : List Char :=
  (if first != ['\n'] then first else if breaks.isEmpty then [' '] else []) ++ breaks

/-- The text that a gap at a place stands for, and the place behind it. -/
def gap (isGap : Char → Bool) (k : Cursor) : List Char × Cursor :=
  let behind := k.skipWhile isGap
  match behind.takeBreak with
  | ([], _) => (k.rest.takeWhile isGap, behind)
  | (first, next) =>
    let (breaks, next) := breaksFrom isGap next
    (folded first breaks, next)

/-! ### Unquoted scalars -/

/-- The characters that end an unquoted scalar inside brackets. -/
def isFlowIndicator (c : Char) : Bool :=
  c == ',' || c == '[' || c == ']' || c == '\x7b' || c == '\x7d'

/-- The characters that an unquoted scalar never begins with. -/
def isIndicator (c : Char) : Bool :=
  isFlowIndicator c || c == '#' || c == '&' || c == '*' || c == '!' || c == '|' || c == '>'
    || c == '\'' || c == '"' || c == '%' || c == '@' || c == '\x60'

/-- Whether an unquoted scalar begins here. -/
def beginsPlain (inFlow : Bool) : List Char → Bool
  | [] => false
  | c :: rest =>
    if c == '-' then !atBlank rest
    else if c == '?' || c == ':' then !inFlow && !atBlank rest
    else !isIndicator c && !atBlank (c :: rest)

/-- Whether an unquoted scalar ends before a character. -/
def endsPlain (inFlow : Bool) (c : Char) (rest : List Char) : Bool :=
  atBlank [c]
    || (c == ':' && (atBlank rest || (inFlow && rest.head?.any isFlowIndicator)))
    || (inFlow && (isFlowIndicator c || c == '?'))

/-- The characters of an unquoted scalar up to a blank or an indicator. -/
def plainWord (inFlow : Bool) : List Char → List Char
  | [] => []
  | c :: rest => if endsPlain inFlow c rest then [] else c :: plainWord inFlow rest

/-- An unquoted scalar as read. -/
structure PlainText where
  text : List Char
  behind : Cursor
  /-- Whether the blanks behind the last word hold a line break. -/
  brokeLine : Bool

/-- The words of an unquoted scalar with the gaps between them. Outside brackets its
later lines begin at column `least` or behind. The count bounds the number of words. -/
def plainWords (inFlow : Bool) (least : Nat) : Nat → Cursor → PlainText
  | 0, k => { text := [], behind := k, brokeLine := false }
  | n + 1, k =>
    let word := plainWord inFlow k.rest
    let (blanks, next) := gap (· == ' ') (k.advance word.length)
    let last : PlainText := { text := word, behind := next, brokeLine := next.line != k.line }
    if blanks.isEmpty || next.atMarker || next.rest.head? == some '#'
        || (!inFlow && next.column < least) || (plainWord inFlow next.rest).isEmpty then last
    else
      let more := plainWords inFlow least n next
      { more with text := word ++ blanks ++ more.text }

/-- An unquoted scalar that begins at a place. -/
def readPlain (inFlow : Bool) (least : Nat) (k : Cursor) : PlainText :=
  plainWords inFlow least k.rest.length k

/-! ### Quoted scalars -/

/-- The character of an escape with a fixed meaning. -/
def escape? : Char → Option Char
  | '0' => some (Char.ofNat 0x00)
  | 'a' => some (Char.ofNat 0x07)
  | 'b' => some (Char.ofNat 0x08)
  | 't' | '\t' => some '\t'
  | 'n' => some '\n'
  | 'v' => some (Char.ofNat 0x0B)
  | 'f' => some (Char.ofNat 0x0C)
  | 'r' => some '\r'
  | 'e' => some (Char.ofNat 0x1B)
  | ' ' => some ' '
  | '"' => some '"'
  | '\\' => some '\\'
  | '/' => some '/'
  | 'N' => some '\u0085'
  | '_' => some '\u00A0'
  | 'L' => some '\u2028'
  | 'P' => some '\u2029'
  | _ => none

/-- The number of hexadecimal digits that follow the letter of an escape. -/
def escapeWidth? : Char → Option Nat
  | 'x' => some 2
  | 'u' => some 4
  | 'U' => some 8
  | _ => none

/-- A number that is a code point, be it a character or half of a surrogate pair. -/
def codePoint (n : Nat) : Except Fault Nat :=
  if n < 0x110000 then return n
  else if n < 0x80000000 then throw .noCodePoint
  else throw .hugeCodePoint

def codesOf (text : List Char) : List Nat :=
  text.map Char.toNat

def isQuotedGap (c : Char) : Bool :=
  c == ' ' || c == '\t'

/-- The meaning of an escape, given behind its backslash. -/
def readEscape (k : Cursor) : Except Fault (List Nat × Cursor) :=
  match k.rest with
  | [] => throw .malformed
  | c :: rest =>
    if isBreak c then
      let (breaks, k) := breaksFrom isQuotedGap k.takeBreak.2
      if k.atMarker then throw .malformed else return (codesOf breaks, k)
    else match escape? c, escapeWidth? c with
      | some e, _ => return ([e.toNat], k.advance 1)
      | none, some width =>
        match Radix.hexNumber? width rest with
        | some (n, _) => return ([← codePoint n], k.advance (width + 1))
        | none => throw .malformed
      | none, none => throw .malformed

/-- The next part of a scalar in quotes; none at its closing quote. Within single
quotes a quote is written twice, within double quotes a backslash begins an escape. -/
def quotedPart (quote : Char) (k : Cursor) : Except Fault (Option (List Nat × Cursor)) :=
  match k.rest with
  | [] => throw .malformed
  | c :: rest =>
    if c == '\\' && quote == '"' then (readEscape (k.advance 1)).map some
    else if c == quote then
      if quote == '\'' && rest.head? == some quote then
        return some ([quote.toNat], k.advance 2)
      else return none
    else if atBlank [c] then
      let (blanks, next) := gap isQuotedGap k
      if next.line != k.line && next.atMarker then throw .malformed
      else return some (codesOf blanks, next)
    else return some ([c.toNat], k.advance 1)

/-- A scalar in quotes up to its closing quote. The count bounds the number of parts. -/
def quotedBody (quote : Char) : Nat → Cursor → Except Fault (List Nat × Cursor)
  | 0, _ => throw .malformed
  | n + 1, k => do
    match ← quotedPart quote k with
    | none => return ([], k.advance 1)
    | some (part, k) =>
      let (more, k) ← quotedBody quote n k
      return (part ++ more, k)

/-- A quoted scalar, given behind its opening quote. -/
def readQuoted (quote : Char) (k : Cursor) : Except Fault (List Nat × Cursor) :=
  quotedBody quote (k.rest.length + 1) k

end StructuralTypes.Yaml

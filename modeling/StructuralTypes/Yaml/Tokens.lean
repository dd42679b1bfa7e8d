import StructuralTypes.Yaml.BlockText
import StructuralTypes.Yaml.Lexeme
import StructuralTypes.Yaml.Tag

/-! The tokens of a document. Outside brackets blocks are told apart by columns: text at
a new column opens a block, text before the column of a block closes it. Whether a node
is a key shows only at the colon behind it, which must stand on the same line and not
too far away; so a place where a key may begin is remembered, and the tokens of the key
are put in once the colon is met. -/

namespace StructuralTypes.Yaml

/-- A place where a key may begin. -/
structure PossibleKey where
  /-- The number of brackets around it. -/
  level : Nat
  /-- The number of tokens before it. -/
  number : Nat
  /-- Whether nothing but a key can stand there. -/
  required : Bool
  place : Cursor

/-- A key whose colon was met. -/
structure FoundKey where
  number : Nat
  opensBlock : Bool

/-- The tokens up to a place. -/
structure Progress where
  place : Cursor
  /-- The number of open brackets. -/
  level : Nat
  /-- The columns of the open blocks, innermost first. -/
  blocks : List Nat
  /-- Whether a key may begin here. -/
  allowsKey : Bool
  possible : List PossibleKey
  found : List FoundKey
  /-- The latest token first. -/
  tokens : List Token
  count : Nat

namespace Progress

def start (s : List Char) : Progress :=
  { place := .ofText s, level := 0, blocks := [], allowsKey := true, possible := [], found := [],
    tokens := [], count := 0 }

/-- Adds a token, behind which the text goes on at a place. -/
def emit (p : Progress) (t : Token) (place : Cursor) : Progress :=
  { p with place, tokens := t :: p.tokens, count := p.count + 1 }

/-- The first column behind the innermost block. -/
def nextColumn (p : Progress) : Nat :=
  (p.blocks.head?.map (· + 1)).getD 0

/-! ### Blocks -/

/-- Closes the blocks that do not pass a test, up to the first one that does. -/
def closeBlocks (keeps : Nat → Bool) (p : Progress) : Progress :=
  if p.level ≠ 0 then p else
  let closed := p.blocks.takeWhile (!keeps ·)
  { p with
    blocks := p.blocks.dropWhile (!keeps ·)
    tokens := List.replicate closed.length .blockEnd ++ p.tokens
    count := p.count + closed.length }

/-- Opens a block at the place unless one is open at its column. -/
def openBlock (t : Token) (p : Progress) : Progress :=
  if p.level = 0 && p.nextColumn ≤ p.place.column then
    { p.emit t p.place with blocks := p.place.column :: p.blocks }
  else p

/-! ### Keys -/

/-- The farthest that a colon can be from the beginning of its key. -/
def keyLimit : Nat := 1024

/-- Whether no colon can make a key of what began at a place any more. -/
def isStale (p : Progress) (key : PossibleKey) : Bool :=
  key.place.line != p.place.line || key.place.index + keyLimit < p.place.index

/-- Gives up possible keys; one that is required has to be found. -/
def giveUp (test : PossibleKey → Bool) (p : Progress) : Except Fault Progress :=
  if p.possible.any fun key => test key && key.required then throw .malformed
  else return { p with possible := p.possible.filter (!test ·) }

/-- Gives up the possible key inside the innermost brackets. -/
def giveUpKey (p : Progress) : Except Fault Progress :=
  p.giveUp (·.level == p.level)

/-- Remembers that a key may begin here. -/
def rememberKey (p : Progress) : Except Fault Progress := do
  if !p.allowsKey then return p
  let p ← p.giveUpKey
  let key : PossibleKey :=
    { level := p.level, number := p.count, place := p.place
      required := p.level == 0 && p.blocks.head? == some p.place.column }
  return { p with possible := key :: p.possible }

/-- Makes a key of what began at a place. -/
def confirmKey (key : PossibleKey) (p : Progress) : Progress :=
  let opensBlock := p.level == 0 && p.nextColumn ≤ key.place.column
  { p with
    possible := p.possible.filter (·.level != key.level)
    found := { number := key.number, opensBlock } :: p.found
    blocks := if opensBlock then key.place.column :: p.blocks else p.blocks }

/-! ### One token -/

/-- Adds a token of a given length; `allowsKey` tells whether a key may follow. -/
def mark (t : Token) (length : Nat) (allowsKey : Bool) (p : Progress) : Progress :=
  { p.emit t (p.place.advance length) with allowsKey }

/-- A directive or the marker of a document ends all blocks. -/
def breakOff (p : Progress) : Except Fault Progress := do
  let p ← (p.closeBlocks fun _ => false).giveUpKey
  return { p with allowsKey := false }

def addDirective (p : Progress) : Except Fault Progress := do
  let p ← p.breakOff
  match readDirective? (p.place.advance 1) with
  | some (d, k) => return p.emit (.directive d) k
  | none => throw .malformed

def addMarker (t : Token) (p : Progress) : Except Fault Progress :=
  return (← p.breakOff).mark t 3 false

def addOpening (t : Token) (p : Progress) : Except Fault Progress := do
  let p ← p.rememberKey
  return { p.mark t 1 true with level := p.level + 1 }

def addClosing (t : Token) (p : Progress) : Except Fault Progress := do
  let p ← p.giveUpKey
  return { p.mark t 1 false with level := p.level - 1 }

def addComma (p : Progress) : Except Fault Progress :=
  return (← p.giveUpKey).mark .comma 1 true

def addItem (p : Progress) : Except Fault Progress := do
  if p.level = 0 && !p.allowsKey then throw .malformed
  return (← (p.openBlock .blockSequence).giveUpKey).mark .item 1 true

def addKey (p : Progress) : Except Fault Progress := do
  if p.level = 0 && !p.allowsKey then throw .malformed
  return (← (p.openBlock .blockMapping).giveUpKey).mark .key 1 (p.level == 0)

def addValue (p : Progress) : Except Fault Progress := do
  match p.possible.find? (·.level == p.level) with
  | some key => return (p.confirmKey key).mark .value 1 false
  | none =>
    if p.level = 0 && !p.allowsKey then throw .malformed
    return (← (p.openBlock .blockMapping).giveUpKey).mark .value 1 (p.level == 0)

/-- Adds a token that may begin a key. -/
def addNode (read : Cursor → Except Fault (Token × Cursor)) (p : Progress) :
    Except Fault Progress := do
  let p ← p.rememberKey
  let (t, k) ← read p.place
  return { p.emit t k with allowsKey := false }

def addPlain (p : Progress) : Except Fault Progress := do
  let p ← p.rememberKey
  let plain := readPlain (p.level != 0) p.nextColumn p.place
  return { p.emit (.plain (String.ofList plain.text)) plain.behind with
    allowsKey := plain.brokeLine }

def addBlockText (isFolded : Bool) (p : Progress) : Except Fault Progress := do
  let p ← p.giveUpKey
  match BlockText.read? isFolded (max 1 p.nextColumn) (p.place.advance 1) with
  | some (text, k) => return { p.emit (.quoted (codesOf text)) k with allowsKey := true }
  | none => throw .malformed

def readAs {α : Type} (make : α → Token) (read : Option (α × Cursor)) :
    Except Fault (Token × Cursor) :=
  match read with
  | some (a, k) => return (make a, k)
  | none => throw .malformed

/-- Adds the token that begins with a character. -/
def add (c : Char) (p : Progress) : Except Fault Progress :=
  let rest := p.place.rest.drop 1
  let inFlow := p.level != 0
  if p.place.column == 0 && c == '%' then p.addDirective
  else if p.place.column == 0 && isMarker '-' p.place.rest then p.addMarker .documentStart
  else if p.place.column == 0 && isMarker '.' p.place.rest then p.addMarker .documentEnd
  else if c == '[' then p.addOpening .sequenceStart
  else if c == '\x7b' then p.addOpening .mappingStart
  else if c == ']' then p.addClosing .sequenceEnd
  else if c == '\x7d' then p.addClosing .mappingEnd
  else if c == ',' then p.addComma
  else if c == '-' && atBlank rest then p.addItem
  else if c == '?' && (inFlow || atBlank rest) then p.addKey
  else if c == ':' && (inFlow || atBlank rest) then p.addValue
  else if c == '*' then p.addNode fun k => readAs .alias (readName? (k.advance 1))
  else if c == '&' then p.addNode fun k => readAs .anchor (readName? (k.advance 1))
  else if c == '!' then p.addNode fun k => readAs .tag (readTag? k)
  else if c == '|' && !inFlow then p.addBlockText false
  else if c == '>' && !inFlow then p.addBlockText true
  else if c == '\'' || c == '"' then
    p.addNode fun k => (readQuoted c (k.advance 1)).map fun r => (.quoted r.1, r.2)
  else if beginsPlain inFlow p.place.rest then p.addPlain
  else throw .malformed

/-! ### All tokens -/

/-- Passes over blanks to the next token, and closes the blocks that end there. -/
def settle (p : Progress) : Except Fault Progress := do
  let k := p.place.skip
  let allowsKey := p.allowsKey || (p.level == 0 && k.line != p.place.line)
  let p := { p with place := k, allowsKey }
  let p ← p.giveUp p.isStale
  return p.closeBlocks (· ≤ k.column)

/-- The tokens, with those of the keys that were found. -/
def resolved (p : Progress) : List Token :=
  p.tokens.reverse.zipIdx.flatMap fun (t, number) =>
    match p.found.find? (·.number == number) with
    | some key => (if key.opensBlock then [.blockMapping] else []) ++ [.key, t]
    | none => [t]

/-- The tokens where the text breaks off. What might be a key is not looked at before
it is clear whether it is one. -/
def brokenOff (p : Progress) (f : Fault) : List Token :=
  let certain := p.possible.foldl (fun n key => min n key.number) p.count
  let p := { p with tokens := p.tokens.drop (p.count - certain), count := certain }
  p.resolved ++ [.broken f]

/-- The tokens from a place on. The count bounds their number. -/
def run : Nat → Progress → List Token
  | 0, p => p.brokenOff .malformed
  | n + 1, p =>
    match p.settle with
    | .error f => p.brokenOff f
    | .ok next =>
      match next.place.rest with
      | [] =>
        match (next.closeBlocks fun _ => false).giveUpKey with
        | .ok done => done.resolved
        | .error f => p.brokenOff f
      | c :: _ =>
        match next.add c with
        | .ok next => run n next
        | .error f => p.brokenOff f

end Progress

/-- The tokens of a text, up to where it breaks off. -/
def tokensOf (text : String) : List Token :=
  let s := text.toList
  if !s.all isAllowed then [.broken .malformed]
  else
    let s := normalizeBreaks s
    (Progress.start s).run (s.length + 1)

end StructuralTypes.Yaml

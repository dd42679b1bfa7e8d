import StructuralTypes.Yaml.Cursor
import StructuralTypes.Yaml.Token

/-! Reading what is said about a node or a document in a few words: names of anchors,
tags, and directives. -/

namespace StructuralTypes.Yaml

/-- The characters of names. -/
def isNameChar (c : Char) : Bool :=
  c.isAlphanum || c == '-' || c == '_'

/-- The characters of the name of a tag. -/
def isTagChar (c : Char) : Bool :=
  c.isAlphanum || "-;/?:@&=+$,_.!~*'()[]%".toList.contains c

/-- A run of characters that is not empty, and the place behind it. -/
def takeRun? (test : Char → Bool) (k : Cursor) : Option (String × Cursor) :=
  let run := k.rest.takeWhile test
  if run.isEmpty then none else some (String.ofList run, k.advance run.length)

/-- The name of an anchor, behind its indicator. -/
def readName? (k : Cursor) : Option (String × Cursor) := do
  let (name, k) ← takeRun? isNameChar k
  let ends := atBlank k.rest || k.rest.head?.any fun c => "?:,]\x7d%@\x60".toList.contains c
  if ends then some (name, k) else none

/-! ### Tags -/

/-- A handle: two exclamation marks with a name between them, or one alone. -/
def readHandle? (k : Cursor) : Option (String × Cursor) :=
  match k.rest with
  | '!' :: rest =>
    let name := rest.takeWhile isNameChar
    if rest.head? == some ' ' then some ("!", k.advance 1)
    else if (rest.drop name.length).head? == some '!' then
      some (String.ofList ('!' :: name ++ ['!']), k.advance (name.length + 2))
    else none
  | _ => none

/-- A tag that is written out between angle brackets, behind the first of them. -/
def readWholeTag? (k : Cursor) : Option (Tag × Cursor) := do
  let (name, k) ← takeRun? isTagChar k
  if k.rest.head? == some '>' then some ({ handle := none, name }, k.advance 1) else none

/-- A tag behind its handle; without a second exclamation mark the handle is the mark. -/
def readShortTag? (k : Cursor) : Option (Tag × Cursor) := do
  let word := (k.rest.drop 1).takeWhile fun c => !atSpace [c]
  let (handle, k) ← if word.contains '!' then readHandle? k else some ("!", k.advance 1)
  let (name, k) ← takeRun? isTagChar k
  some ({ handle := some handle, name }, k)

/-- A tag at its exclamation mark. A mark alone is a tag of its own. -/
def readTag? (k : Cursor) : Option (Tag × Cursor) := do
  let rest := k.rest.drop 1
  let (tag, k) ←
    if rest.head? == some '<' then readWholeTag? (k.advance 2)
    else if atBlank rest then some ({ handle := none, name := "!" }, k.advance 1)
    else readShortTag? k
  if atSpace k.rest then some (tag, k) else none

/-! ### Directives -/

def isDigit (c : Char) : Bool :=
  '0' ≤ c && c ≤ '9'

/-- A version, of which only the first number matters. -/
def readVersion? (k : Cursor) : Option (Directive × Cursor) := do
  let (major, k) ← takeRun? isDigit (k.skipWhile (· == ' '))
  if k.rest.head? != some '.' then none
  let (_, k) ← takeRun? isDigit (k.advance 1)
  if !atSpace k.rest then none
  some (.version ((major.toList.map fun c => c.toNat - 48).foldl (fun n d => 10 * n + d) 0), k)

/-- A handle and what it stands for. -/
def readHandleDirective? (k : Cursor) : Option (Directive × Cursor) := do
  let (name, k) ← readHandle? (k.skipWhile (· == ' '))
  if k.rest.head? != some ' ' then none
  let (stem, k) ← takeRun? isTagChar (k.skipWhile (· == ' '))
  if atSpace k.rest then some (.handle name stem, k) else none

/-- A directive behind its percent sign, and the start of the line behind it. -/
def readDirective? (k : Cursor) : Option (Directive × Cursor) := do
  let (name, k) ← takeRun? isNameChar k
  if !atSpace k.rest then none
  let (directive, k) ←
    if name = "YAML" then readVersion? k
    else if name = "TAG" then readHandleDirective? k
    else some (.other, k.skipWhile (!isBreak ·))
  some (directive, ← k.endLine?)

end StructuralTypes.Yaml

import StructuralTypes.Table
import StructuralTypes.Text.CodePoints
import StructuralTypes.Yaml.Tokens

/-! The node that the tokens of a document form. A node may be left out wherever the
tokens show that there is none. An alias stands for the node with its anchor, and a
merge key for the entries of the mappings behind it. A count taken from the number of
tokens bounds the nesting. -/

namespace StructuralTypes.Yaml

/-! ### Merge keys -/

/-- A key that stands for the entries of other mappings. -/
def isMergeKey : Yaml → Bool
  | plain "<<" => true
  | _ => false

def entries? : Yaml → Option (List (Yaml × Yaml))
  | mapping entries => some entries
  | tagged _ node => entries? node
  | _ => none

/-- The entries that a merge key stands for; those of later mappings come first. -/
def mergedEntries? : Yaml → Option (List (Yaml × Yaml))
  | sequence items | tagged _ (sequence items) =>
    (items.mapM entries?).map fun parts => parts.reverse.flatten
  | node => entries? node

/-- A lone equals sign is a text where it is a key. -/
def asKey : Yaml → Yaml
  | plain "=" => quoted ['='.toNat]
  | node => node

/-- A mapping with its merge keys replaced by entries in front of its own. A merge key
that stands for no entries is kept in front, for it has no value. -/
def ofEntries (entries : List (Yaml × Yaml)) : Yaml :=
  let merges := entries.filter fun p => isMergeKey p.1
  let own := (entries.filter fun p => !isMergeKey p.1).map fun p => (asKey p.1, p.2)
  match merges.mapM fun p => mergedEntries? p.2 with
  | some merged => mapping (merged.flatten ++ own)
  | none => mapping (merges ++ own)

/-! ### Reading tokens -/

/-- What is left of a document, and what was agreed on before. -/
structure Source where
  tokens : List Token
  /-- The nodes with anchors; none while a node is being read. -/
  anchors : Table (Option Yaml)
  handles : Table String

abbrev Reader (α : Type) := StateT Source (Except Fault) α

namespace Reader

def next? : Reader (Option Token) :=
  return (← get).tokens.head?

def drop : Reader Unit :=
  modify fun s => { s with tokens := s.tokens.drop 1 }

/-- Gives up at the next token. -/
def stop {α : Type} : Reader α := do
  match ← next? with
  | some (.broken f) => throw f
  | _ => throw .malformed

/-- Whether one of some tokens is next. -/
def isNext (tokens : List Token) : Reader Bool :=
  return (← next?).any tokens.contains

/-- Passes over a token if it is next. -/
def dropIf (t : Token) : Reader Bool := do
  let found ← isNext [t]
  if found then drop
  return found

/-- Passes over a token that must be next. -/
def require (t : Token) : Reader Unit := do
  if !(← dropIf t) then stop

/-! ### What stands before a node -/

/-- What the names of tags of the language begin with. -/
def standardStem : String := "tag:yaml.org,2002:"

def standardHandles : Table String := [("!", "!"), ("!!", standardStem)]

def wholeName (t : Tag) : Reader String := do
  match t.handle with
  | none => return t.name
  | some handle =>
    match Table.lookup? handle (← get).handles with
    | some stem => return stem ++ t.name
    | none => throw .malformed

def takeAnchor : Reader (Option String) := do
  match ← next? with
  | some (.anchor name) =>
    drop
    return some name
  | _ => return none

def takeTag : Reader (Option String) := do
  match ← next? with
  | some (.tag t) =>
    drop
    return some (← wholeName t)
  | _ => return none

/-- Notes that a node with an anchor is being read; an anchor is given only once. -/
def declare (name : String) : Reader Unit := do
  let s ← get
  if Table.has name s.anchors then throw .malformed
  set { s with anchors := Table.insert name none s.anchors }

def setAnchor (name : String) (node : Yaml) : Reader Unit :=
  modify fun s => { s with anchors := Table.insert name (some node) s.anchors }

/-- The node with an anchor. A node that holds itself has no value. -/
def resolveAlias (name : String) : Reader Yaml := do
  match Table.lookup? name (← get).anchors with
  | some (some node) => return node
  | _ => throw .malformed

/-- A node under a tag. The lone mark makes an unquoted scalar of every scalar. -/
def underTag (tag : Option String) (node : Yaml) : Yaml :=
  match tag with
  | none => node
  | some tag =>
    if tag = "!" then
      match node with
      | .quoted codes => .plain (String.ofList (CodePoints.shown codes))
      | node => node
    else .tagged tag node

/-! ### Nodes -/

mutual

/-- A node. Blocks are read only outside brackets, and a sequence without a block of
its own only behind a key. -/
def node (inBlock afterKey : Bool) : Nat → Reader Yaml
  | 0 => throw .malformed
  | n + 1 => do
    if let some (.alias name) ← next? then
      drop
      return ← resolveAlias name
    let before ← takeAnchor
    let tag ← takeTag
    let anchor ← if before.isSome then pure before else takeAnchor
    if let some name := anchor then declare name
    let content ← content inBlock afterKey (anchor.isSome || tag.isSome) n
    let result := underTag tag content
    if let some name := anchor then setAnchor name result
    return result

/-- A node behind its anchor and tag, without which it cannot be left out. -/
def content (inBlock afterKey optional : Bool) : Nat → Reader Yaml
  | 0 => throw .malformed
  | n + 1 => do
    match ← next?, inBlock, afterKey with
    | some (.plain text), _, _ =>
      drop
      return .plain text
    | some (.quoted codes), _, _ =>
      drop
      return .quoted codes
    | some .sequenceStart, _, _ =>
      drop
      return .sequence (← flowItems true n)
    | some .mappingStart, _, _ =>
      drop
      return ofEntries (← flowEntries true n)
    | some .item, _, true => return .sequence (← looseItems n)
    | some .blockSequence, true, _ =>
      drop
      return .sequence (← blockItems n)
    | some .blockMapping, true, _ =>
      drop
      return ofEntries (← blockEntries n)
    | _, _, _ => if optional then return blank else stop

/-- A node, or a missing one before some tokens. -/
def nodeUnless (ends : List Token) (inBlock afterKey : Bool) : Nat → Reader Yaml
  | 0 => throw .malformed
  | n + 1 => do
    if ← isNext ends then return blank
    node inBlock afterKey n

/-- The value behind a colon, or a missing one where there is no colon. -/
def valueUnless (ends : List Token) (inBlock : Bool) : Nat → Reader Yaml
  | 0 => throw .malformed
  | n + 1 => do
    if ← dropIf .value then nodeUnless ends inBlock inBlock n else return blank

def blockItems : Nat → Reader (List Yaml)
  | 0 => throw .malformed
  | n + 1 => do
    if ← dropIf .item then
      let item ← nodeUnless [.item, .blockEnd] true false n
      return item :: (← blockItems n)
    else if ← dropIf .blockEnd then return []
    else stop

/-- Items at the column of the mapping around them, which no token ends. -/
def looseItems : Nat → Reader (List Yaml)
  | 0 => throw .malformed
  | n + 1 => do
    if ← dropIf .item then
      let item ← nodeUnless [.item, .key, .value, .blockEnd] true false n
      return item :: (← looseItems n)
    else return []

def blockEntries : Nat → Reader (List (Yaml × Yaml))
  | 0 => throw .malformed
  | n + 1 => do
    if ← dropIf .key then
      let key ← nodeUnless [.key, .value, .blockEnd] true true n
      let item ← valueUnless [.key, .value, .blockEnd] true n
      return (key, item) :: (← blockEntries n)
    else if ← dropIf .blockEnd then return []
    else stop

/-- Items up to the closing bracket. An item may be a single entry of a mapping. -/
def flowItems (isFirst : Bool) : Nat → Reader (List Yaml)
  | 0 => throw .malformed
  | n + 1 => do
    if ← dropIf .sequenceEnd then return []
    if !isFirst then require .comma
    if ← dropIf .sequenceEnd then return []
    let item ← do
      if ← dropIf .key then
        let key ← nodeUnless [.value, .comma, .sequenceEnd] false false n
        let value ← valueUnless [.comma, .sequenceEnd] false n
        pure (ofEntries [(key, value)])
      else node false false n
    return item :: (← flowItems false n)

/-- Entries up to the closing brace. -/
def flowEntries (isFirst : Bool) : Nat → Reader (List (Yaml × Yaml))
  | 0 => throw .malformed
  | n + 1 => do
    if ← dropIf .mappingEnd then return []
    if !isFirst then require .comma
    if ← dropIf .mappingEnd then return []
    let entry ← do
      if ← dropIf .key then
        let key ← nodeUnless [.value, .comma, .mappingEnd] false false n
        let value ← valueUnless [.comma, .mappingEnd] false n
        pure (key, value)
      else pure (← node false false n, blank)
    return entry :: (← flowEntries false n)

end

/-! ### Documents -/

/-- Passes over the directives before a document. -/
def directives (versioned : Bool) : Nat → Reader Unit
  | 0 => throw .malformed
  | n + 1 => do
    match ← next? with
    | some (.directive d) =>
      drop
      match d with
      | .version major =>
        if versioned || major ≠ 1 then throw .malformed
        directives true n
      | .handle name stem =>
        let s ← get
        if Table.has name s.handles then throw .malformed
        set { s with handles := Table.insert name stem s.handles }
        directives versioned n
      | .other => directives versioned n
    | _ => return ()

/-- Adds the handles that every document knows, unless they were given another meaning. -/
def addStandardHandles : Reader Unit :=
  modify fun s =>
    { s with handles := s.handles ++ standardHandles.filter fun p => !Table.has p.1 s.handles }

def dropDocumentEnds : Nat → Reader Unit
  | 0 => return ()
  | n + 1 => do
    if ← dropIf .documentEnd then dropDocumentEnds n

def isAtStart : Reader Bool := do
  match ← next? with
  | some (.directive _) | some .documentStart => return true
  | _ => return false

/-- Whether nothing stands where a document could begin. -/
def isEmpty : Reader Bool := do
  match ← next? with
  | none | some .documentEnd => return true
  | _ => isAtStart

/-- The one document of a text; none at all stands for null. -/
def document (bound : Nat) : Reader Yaml := do
  if (← next?).isNone then return blank
  let isExplicit ← isAtStart
  directives false bound
  addStandardHandles
  if isExplicit then require .documentStart
  let missing ← isEmpty
  let result ← if isExplicit && missing then pure blank else node true false bound
  dropDocumentEnds bound
  if (← next?).isSome then stop
  return result

end Reader

/-- The document of a text. -/
def read (text : String) : Except Fault Yaml := do
  let tokens := tokensOf text
  let (result, _) ← (Reader.document (5 * tokens.length + 5)).run
    { tokens, anchors := [], handles := [] }
  return result

end StructuralTypes.Yaml

import StructuralTypes.Document
import StructuralTypes.Yaml.Reader
import StructuralTypes.Yaml.Scalar

/-! The value of a document. Of two entries with one key the later replaces the item of
the earlier; collections cannot be keys. Values are formed level by level: what is wrong
with a part is found before anything that lies deeper, wherever it stands. -/

namespace StructuralTypes.Yaml

/-! ### Tags -/

/-- The kinds of value that a tag can ask for. -/
inductive Kind where
  | null
  | bool
  | int
  | float
  | moment
  | text
  | sequence
  | mapping
deriving DecidableEq

def Kind.name : Kind → String
  | null => "null"
  | bool => "bool"
  | int => "int"
  | float => "float"
  | moment => "timestamp"
  | text => "str"
  | sequence => "seq"
  | mapping => "map"

def Kind.all : List Kind := [null, bool, int, float, moment, text, sequence, mapping]

/-- The kind that a tag names. -/
def Kind.ofTag? (tag : String) : Option Kind :=
  all.find? fun k => Reader.standardStem ++ k.name == tag

/-- A collection is formed empty at first and filled later. -/
def Kind.isCollection (k : Kind) : Bool :=
  k == .sequence || k == .mapping

/-- The value of an unquoted scalar if it is of some kind. -/
def valueIf (test : Value → Bool) (text : String) : Except Fault Value := do
  let v ← Scalar.value text
  if test v then return v else throw .malformed

/-- A whole number or a number with a point. -/
def numberOf (text : String) : Except Fault Value := do
  match ← Scalar.value text with
  | .int i => return .float (.ofRatio (i < 0) i.natAbs 1)
  | .float d => return .float d
  | _ => throw .malformed

def isMoment : Value → Bool
  | .date .. | .moment _ => true
  | _ => false

/-- A text by its code points. -/
def textValue (codes : List Nat) : Value :=
  match CodePoints.text? codes with
  | some s => .text s
  | none => .rawText codes

/-- The value of a scalar of a kind. -/
def scalarOf (kind : Kind) (codes : List Nat) : Except Fault Value :=
  let text := String.ofList (CodePoints.shown codes)
  match kind with
  | .null => return .null
  | .bool => valueIf Value.isBool text
  | .int => valueIf Value.isInt text
  | .float => numberOf text
  | .moment => valueIf isMoment text
  | .text => return textValue codes
  | .sequence | .mapping => throw .malformed

/-- The code points of a scalar. -/
def codes? : Yaml → Option (List Nat)
  | plain text => some (codesOf text.toList)
  | quoted codes => some codes
  | _ => none

/-! ### Values -/

/-- Whether a value can be the key of an entry. -/
def isKey : Value → Bool
  | .list _ | .mapping _ => false
  | _ => true

mutual

/-- The value of a node. -/
def value : Yaml → Except Fault Value
  | plain text => Scalar.value text
  | quoted codes => return textValue codes
  | sequence items => return .list (← values items)
  | mapping entries => return .mapping (← valueEntries [] entries)
  | tagged tag node =>
    match Kind.ofTag? tag, node with
    | some .sequence, sequence items => return .list (← values items)
    | some .mapping, mapping entries => return .mapping (← valueEntries [] entries)
    | some kind, node =>
      match node.codes? with
      | some codes => scalarOf kind codes
      | none => throw .malformed
    | none, _ => throw .malformed

def values : List Yaml → Except Fault (List Value)
  | [] => return []
  | item :: rest => return (← value item) :: (← values rest)

/-- Entries stored one after another among those already there. -/
def valueEntries (stored : List (Value × Value)) :
    List (Yaml × Yaml) → Except Fault (List (Value × Value))
  | [] => return stored
  | (key, item) :: rest => do
    let key ← value key
    if !isKey key then throw .malformed
    valueEntries (Value.insertEntry key (← value item) stored) rest

end

/-! ### Levels -/

/-- Whether a node is filled one level later. -/
def isCollection : Yaml → Bool
  | sequence _ | mapping _ => true
  | tagged tag _ => (Kind.ofTag? tag).any Kind.isCollection
  | _ => false

/-- Forms a part: a scalar at once, a collection later. -/
def form (part : Yaml) : Except Fault (List Yaml) :=
  if part.isCollection then return [part] else part.value.map fun _ => []

def formItems : List Yaml → Except Fault (List Yaml)
  | [] => return []
  | item :: rest => return (← form item) ++ (← formItems rest)

def formEntries : List (Yaml × Yaml) → Except Fault (List Yaml)
  | [] => return []
  | (key, item) :: rest => do
    if key.isCollection then throw .malformed
    let _ ← key.value
    return (← form item) ++ (← formEntries rest)

/-- Fills a collection; what is left are the collections in it. -/
def fill : Yaml → Except Fault (List Yaml)
  | sequence items => formItems items
  | mapping entries => formEntries entries
  | tagged tag node =>
    match Kind.ofTag? tag, node with
    | some .sequence, sequence items => formItems items
    | some .mapping, mapping entries => formEntries entries
    | _, _ => throw .malformed
  | _ => return []

def fillAll : List Yaml → Except Fault (List Yaml)
  | [] => return []
  | node :: rest => return (← fill node) ++ (← fillAll rest)

/-- Fills collections level by level. -/
def fillLevels : Nat → List Yaml → Except Fault Unit
  | 0, _ => return ()
  | n + 1, nodes => do
    let next ← fillAll nodes
    if !next.isEmpty then fillLevels n next

mutual

/-- The number of levels of a node. -/
def depth : Yaml → Nat
  | plain _ | quoted _ => 1
  | sequence items => depthItems items + 1
  | mapping entries => depthEntries entries + 1
  | tagged _ node => depth node + 1

def depthItems : List Yaml → Nat
  | [] => 0
  | item :: rest => max (depth item) (depthItems rest)

def depthEntries : List (Yaml × Yaml) → Nat
  | [] => 0
  | (_, item) :: rest => max (depth item) (depthEntries rest)

end

/-- What is wrong with the parts of a document, the outer ones first. -/
def check (document : Yaml) : Except Fault Unit := do
  fillLevels document.depth (← form document)

/-- The value that a text stands for. -/
def load (text : String) : Except Fault Value := do
  let document ← read text
  document.check
  document.value

/-- A fault as one in a document. An escape too large for a machine integer breaks the
loading off. -/
def Fault.toDocument : Fault → Document.Fault
  | malformed => .malformed malformed.message
  | hugeCodePoint => .raised { kind := "OverflowError", message := hugeCodePoint.message }
  | f => .invalid f.message

/-- Documents in this notation. -/
def loader : Document.Loader := fun text =>
  (load text).mapError Fault.toDocument

end StructuralTypes.Yaml

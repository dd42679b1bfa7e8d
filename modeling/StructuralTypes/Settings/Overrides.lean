import StructuralTypes.Document
import StructuralTypes.Table
import StructuralTypes.Text.Split

/-! Overrides: assignments `path=value`, the parts of a path between points, gathered
into a tree of groups. A later assignment replaces what stood at its path, but no path
can lead through a value. -/

namespace StructuralTypes

/-- What stands at a path: a value, or a group of further names. -/
inductive Override where
  | bound (v : Value)
  | group (members : List (String × Override))

namespace Override

/-- Why an assignment is refused. -/
inductive Fault where
  | noAssignment (item : String)
  | emptyPath
  /-- The path leads through a value. -/
  | conflict (path : String)
  | document (f : Document.Fault)

def Fault.message : Fault → String
  | noAssignment item => "override '" ++ item ++ "' is missing '='"
  | emptyPath => "override key must not be empty"
  | conflict path => "override '" ++ path ++ "' conflicts with an existing value"
  | document f => f.message

/-! ### Trees -/

/-- Binds a path below some members; none if it leads through a value. -/
def assign (v : Value) : List String → Table Override → Option (Table Override)
  | [], members => some members
  | [name], members => some (Table.insert name (.bound v) members)
  | name :: path, members =>
    match Table.lookup? name members with
    | some (.bound _) => none
    | some (.group inner) =>
      (assign v path inner).map fun inner => Table.insert name (.group inner) members
    | none => (assign v path []).map fun inner => Table.insert name (.group inner) members

/-- What stands at a path below some members. -/
def find? : List String → Table Override → Option Override
  | [], members => some (.group members)
  | name :: path, members =>
    match Table.lookup? name members with
    | some (.group inner) => find? path inner
    | some (.bound v) => if path.isEmpty then some (.bound v) else none
    | none => none

mutual

def toValue : Override → Value
  | bound v => v
  | group members => .mapping (toEntries members)

def toEntries : List (String × Override) → List (Value × Value)
  | [] => []
  | (name, item) :: rest => (.text name, toValue item) :: toEntries rest

end

/-! ### Assignments -/

/-- An assignment: its path as written, the names on it, and the text of its value. -/
structure Item where
  path : String
  names : List String
  text : String
deriving DecidableEq

/-- The names between the points of a path. -/
def pathNames (path : List Char) : List String :=
  ((Split.fields '.' path).filter (!·.isEmpty)).map String.ofList

/-- The assignment that a text makes. -/
def Item.read (source : String) : Except Fault Item :=
  match Split.cut? '=' source.toList with
  | none => throw (.noAssignment source)
  | some (path, text) =>
    if (pathNames path).isEmpty then throw .emptyPath
    else return { path := String.ofList path, names := pathNames path, text := String.ofList text }

/-- The value of a text: a truth value or number where it is spelled like one, else the
text itself. -/
def scalar (load : Document.Loader) (text : String) : Except Fault Value :=
  match load text with
  | .ok (.bool b) => return .bool b
  | .ok (.int i) => return .int i
  | .ok (.float d) => return .float d
  | .ok _ | .error (.malformed _) => return .text text
  | .error f => throw (.document f)

/-- Makes one more assignment. -/
def add (scalar : String → Except Fault Value) (members : Table Override) (source : String) :
    Except Fault (Table Override) := do
  let item ← Item.read source
  let v ← scalar item.text
  match assign v item.names members with
  | some members => return members
  | none => throw (.conflict item.path)

/-- The tree of some assignments, made one after another. -/
def gather (scalar : String → Except Fault Value) (sources : List String) :
    Except Fault (Table Override) :=
  sources.foldlM (add scalar) []

/-- The entries that some assignments make. -/
def entries (load : Document.Loader) (sources : List String) :
    Except Fault (List (Value × Value)) :=
  return toEntries (← gather (scalar load) sources)

end Override

end StructuralTypes

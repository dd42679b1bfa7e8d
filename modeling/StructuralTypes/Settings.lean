import StructuralTypes.Document
import StructuralTypes.Table

/-! Settings: two switches and a table of aliases. They are read from the entries of a
document, can be written as entries again, and are merged with overriding entries, a
mapping into a mapping and anything else in place of what was there. -/

namespace StructuralTypes

/-- Switches for checking values, and the aliases that annotations may use. -/
structure Settings where
  /-- Whether values passed through are checked at all. -/
  enabled : Bool
  /-- Whether exact shapes with an indexer are warned of. -/
  warns : Bool
  aliases : Table String
deriving DecidableEq

namespace Settings

/-- Everything on and no aliases. -/
def standard : Settings :=
  { enabled := true, warns := true, aliases := [] }

/-- What can be wrong with settings or with the document that holds them. -/
inductive Fault where
  | fileNotFound (name : String)
  | document (f : Document.Fault)
  | rootNotMapping
  | aliasesNotMapping
  | aliasNotText (name : Value)
  | flagNotBoolean (key : String) (received : Value)
  | overlong (e : Overlong)

def Fault.message : Fault → String
  | fileNotFound name => "configuration file not found: " ++ name
  | document (.malformed reason) => "failed to parse configuration: " ++ reason
  | document f => f.message
  | rootNotMapping => "configuration root must be a mapping"
  | aliasesNotMapping => "aliases must be a mapping of names to annotations"
  | aliasNotText name => "alias `" ++ name.label ++ "` must map to an annotation string"
  | flagNotBoolean key received =>
    "`" ++ key ++ "` must be a boolean, received " ++ received.display
  | overlong e => e.message

/-! ### Entries -/

/-- A switch, on where it is not given. -/
def flag (entries : List (Value × Value)) (key : String) : Except Fault Bool :=
  match Value.lookup? (.text key) entries with
  | none => return true
  | some (.bool b) => return b
  | some v => throw (if v.showsOverlong then .overlong .written else .flagNotBoolean key v)

/-- Aliases stored one after another; a name that is no text stands for its label. -/
def aliasTable (stored : Table String) : List (Value × Value) → Except Fault (Table String)
  | [] => return stored
  | (name, source) :: rest =>
    if name.labelsOverlong then throw (.overlong .written)
    else if source.isText then aliasTable (Table.insert name.label source.label stored) rest
    else throw (.aliasNotText name)

/-- The aliases among the entries. -/
def aliasesOf (entries : List (Value × Value)) : Except Fault (Table String) :=
  match Value.lookup? (.text "aliases") entries with
  | none | some .null => return []
  | some (.mapping items) => aliasTable [] items
  | some _ => throw .aliasesNotMapping

/-- The settings that entries give; unknown entries are passed over. -/
def ofEntries (entries : List (Value × Value)) : Except Fault Settings := do
  let aliases ← aliasesOf entries
  let enabled ← flag entries "enabled"
  let warns ← flag entries "warn_about_exact_shape_indexers"
  return { enabled, warns, aliases }

def toEntries (s : Settings) : List (Value × Value) :=
  [(.text "enabled", .bool s.enabled),
   (.text "warn_about_exact_shape_indexers", .bool s.warns),
   (.text "aliases", .mapping (s.aliases.map fun p => (.text p.1, .text p.2)))]

/-! ### Merging -/

mutual

/-- Entries with updates stored among them, one after another. -/
def updateAll (entries : List (Value × Value)) : List (Value × Value) → List (Value × Value)
  | [] => entries
  | (key, item) :: rest =>
    updateAll (Value.insertEntry key (update (Value.lookup? key entries) item) entries) rest

/-- What an update leaves in place of an item. -/
def update (old : Option Value) : Value → Value
  | .mapping updates =>
    match old with
    | some (.mapping entries) => .mapping (updateAll entries updates)
    | _ => .mapping updates
  | item => item

end

/-- The settings under overriding entries. -/
def merge (s : Settings) (overrides : List (Value × Value)) : Except Fault Settings :=
  if overrides.isEmpty then return s else ofEntries (updateAll s.toEntries overrides)

end Settings

end StructuralTypes

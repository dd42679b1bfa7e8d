import StructuralTypes.Level
import StructuralTypes.Table
import StructuralTypes.Validator

/-! The state of a registry of named types. A name is either built, with its validator
stored, or pending, with a recipe that is run when the name is first needed; compiled
annotations are stored by their text. A journal keeps what a caller can observe besides
results: warnings, and which recipes were started. -/

namespace StructuralTypes

/-- A function supplied by a user. -/
structure UserFunction where
  /-- Its own name, if it has one. -/
  name : Option String
  /-- Whether it accepts exactly one argument, as far as can be told. -/
  unary : Bool
  respond : Value → Response

/-- Which object a validator is. Keywords are shared by all registries; every other
validator is an object of its own. -/
inductive Identity where
  | keyword (k : Keyword)
  | made (number : Nat)
deriving DecidableEq

/-- A stored validator. -/
structure Entry where
  identity : Identity
  validator : Validator

/-- What can be given where a type is wanted. -/
inductive Definition where
  /-- An annotation. -/
  | text (source : String)
  | node (n : Node)
  | validator (v : Validator)
  /-- A validator that a registry gave out. -/
  | entry (e : Entry)
  | function (f : UserFunction)
  /-- Anything else, by the word for its kind. -/
  | foreign (kind : String)

/-- What a recipe can see: the names that have a validator, those that are pending, and what
recipes have noted down. -/
structure Sight where
  built : List String
  pending : List String
  memory : Value

/-- What a pending name does when it is first needed: operations on the registry, each
followed by what its outcome leads to, and in the end a definition or a fault. -/
inductive Recipe where
  | define (d : Definition)
  | raise (f : Fault)
  | register (name : Value) (d : Definition) (next : Except Fault Entry → Recipe)
  | postpone (name : Value) (recipe : Recipe) (next : Except Fault Unit → Recipe)
  /-- Makes a name pending with a recipe of the host, which may be the one that runs. -/
  | postponeNumbered (name : Value) (number : Nat) (next : Except Fault Unit → Recipe)
  | resolve (name : String) (next : Except Fault Entry → Recipe)
  | compile (source : String) (next : Except Fault Entry → Recipe)
  | look (next : Sight → Recipe)
  /-- Notes something down. -/
  | keep (memory : Value) (next : Recipe)

/-- Goes on after a result and raises a fault again. -/
def Recipe.orRaise {α : Type} (next : α → Recipe) : Except Fault α → Recipe
  | .ok a => next a
  | .error f => .raise f

/-- What surrounds a registry and outlasts its operations. -/
structure Host where
  /-- The recipes that other recipes may name, themselves included. -/
  recipes : Nat → Recipe := fun _ => .define (.foreign "NoneType")
  /-- What recipes have noted down. -/
  memory : Value := .null
  /-- How many builds may be nested besides one for each pending name. -/
  spare : Nat := 1000

/-- How the build of a name ends. -/
inductive Ending where
  /-- With a validator under the name. -/
  | built
  /-- With an error. -/
  | failed
  /-- With a signal to leave the program. -/
  | abandoned
deriving DecidableEq

/-- What happens while a registry works. -/
inductive Event where
  | warned (w : Warning)
  /-- A name gets a validator. -/
  | registered (name : String)
  /-- A name gets a recipe. -/
  | postponed (name : String)
  /-- The recipe of a pending name is started. -/
  | started (name : String)
  /-- What was started ends. -/
  | ended (name : String) (ending : Ending)
deriving DecidableEq

structure Registry where
  built : Table Entry
  pending : Table Recipe
  compiled : Table Entry
  /-- The number of objects made so far. -/
  made : Nat
  /-- Whether warnings are wanted. -/
  warns : Bool
  host : Host
  journal : List Event

/-- Operations on a registry; what they did before a fault stays done. -/
abbrev RegistryM (α : Type) := ExceptT Fault (StateM Registry) α

namespace Registry

/-- A registry without names. -/
def empty (warns : Bool) (host : Host := {}) : Registry :=
  { built := [], pending := [], compiled := [], made := 0, warns, host, journal := [] }

/-- How deep builds may be nested from now on: one for each pending name, and those that the
host spares for names that recipes make pending. -/
def levels (r : Registry) : Nat :=
  r.pending.length + r.host.spare

/-- The registered names, sorted and without repetition. -/
def names (r : Registry) : List String :=
  (Table.keys r.built ++ Table.keys r.pending).eraseDups.mergeSort (· ≤ ·)

/-- Whether a name stands for a type: registered, a keyword or a literal. -/
def knows (r : Registry) (name : String) : Except Overlong Bool :=
  if Table.has name r.built || Table.has name r.pending then return true
  else return (← Predicate.ofName name).isSome

/-- Whether a value is the name of a type. -/
def contains (r : Registry) (v : Value) : Except Overlong Bool :=
  match v.plainKey with
  | .text name => r.knows name
  | _ => return false

def warnings (r : Registry) : List Warning :=
  r.journal.filterMap fun
    | .warned w => some w
    | _ => none

/-- The pending names whose recipes were started, in order. -/
def started (r : Registry) : List String :=
  r.journal.filterMap fun
    | .started name => some name
    | _ => none

/-- What a recipe sees. -/
def sight (r : Registry) : Sight :=
  { built := Table.keys r.built, pending := Table.keys r.pending, memory := r.host.memory }

/-- The same registry with an empty journal. -/
def clearJournal (r : Registry) : Registry :=
  { r with journal := [] }

end Registry

end StructuralTypes

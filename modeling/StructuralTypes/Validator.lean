import StructuralTypes.Fault
import StructuralTypes.Predicate

/-! Compiled types. A validator is a tree with tests and user code at its leaves; what
user code does with a value is one of a few responses. The graph of a validator is its
shape without the code in it. -/

namespace StructuralTypes

/-- The outcome of a check. Validators supplied by a user may refuse a value without
giving a failure. -/
structure Verdict where
  ok : Bool
  failure : Option Failure

namespace Verdict

def passed : Verdict := { ok := true, failure := none }

def failed (f : Failure) : Verdict := { ok := false, failure := some f }

end Verdict

/-- What a user's function does with a value. -/
inductive Response where
  /-- It returns something other than false. -/
  | accepts
  /-- It returns false. -/
  | refuses
  | fails (f : Failure)
  | raises (r : Raised)

mutual

inductive Validator where
  | predicate (p : Predicate)
  | callable (name : String) (respond : Value → Response)
  | union (members : List Validator)
  | intersection (members : List Validator)
  | array (element : Validator)
  | tuple (elements : List Validator)
  | shape (exact : Bool) (properties : List PropertyValidator) (indexer : Option IndexerValidator)
  /-- A validator of the user's own making. -/
  | custom (judge : Value → Except Fault Verdict)

inductive PropertyValidator where
  | mk (key : String) (validator : Validator) (optional : Bool)

inductive IndexerValidator where
  | mk (key value : Validator)

end

instance : Inhabited Validator := ⟨.union []⟩

/-- A validator without its code. -/
inductive Graph where
  | predicate (name reason : String)
  | callable (name : String)
  | union (members : List Graph)
  | intersection (members : List Graph)
  | array (element : Graph)
  | tuple (elements : List Graph)
  | shape (exact : Bool) (properties : List (String × Bool × Graph))
      (indexer : Option (Graph × Graph))
  | custom

namespace Validator

/-- The word for the variant of a validator. -/
def kind : Validator → String
  | predicate _ => "predicate"
  | callable .. => "callable"
  | union _ => "union"
  | intersection _ => "intersection"
  | array _ => "array"
  | tuple _ => "tuple"
  | shape .. => "shape"
  | custom _ => "validator"

/-- The word for a shape in messages. -/
def shapeLabel (exact : Bool) : String :=
  if exact then "exact shape" else "shape"

mutual

def graph : Validator → Graph
  | predicate p => .predicate p.name p.reason
  | callable name _ => .callable name
  | union members => .union (graphs members)
  | intersection members => .intersection (graphs members)
  | array element => .array (graph element)
  | tuple elements => .tuple (graphs elements)
  | shape exact properties indexer =>
    .shape exact (propertyGraphs properties) (indexerGraph indexer)
  | custom _ => .custom

def graphs : List Validator → List Graph
  | [] => []
  | v :: rest => graph v :: graphs rest

def propertyGraph : PropertyValidator → String × Bool × Graph
  | .mk key v optional => (key, optional, graph v)

def propertyGraphs : List PropertyValidator → List (String × Bool × Graph)
  | [] => []
  | p :: rest => propertyGraph p :: propertyGraphs rest

def indexerGraph : Option IndexerValidator → Option (Graph × Graph)
  | none => none
  | some (.mk key value) => some (graph key, graph value)

end

mutual

/-- The validators of a tree, each before its parts, parts in order. -/
def walk : Validator → List Validator
  | union members => union members :: walkAll members
  | intersection members => intersection members :: walkAll members
  | array element => array element :: walk element
  | tuple elements => tuple elements :: walkAll elements
  | shape exact properties indexer =>
    shape exact properties indexer :: (walkProperties properties ++ walkIndexer indexer)
  | predicate p => [predicate p]
  | callable name respond => [callable name respond]
  | custom judge => [custom judge]

def walkAll : List Validator → List Validator
  | [] => []
  | v :: rest => walk v ++ walkAll rest

def walkProperty : PropertyValidator → List Validator
  | .mk _ v _ => walk v

def walkProperties : List PropertyValidator → List Validator
  | [] => []
  | p :: rest => walkProperty p ++ walkProperties rest

def walkIndexer : Option IndexerValidator → List Validator
  | none => []
  | some (.mk key value) => walk key ++ walk value

end

end Validator

end StructuralTypes

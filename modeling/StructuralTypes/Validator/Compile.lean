import StructuralTypes.Node
import StructuralTypes.Validator

/-! Compiling a type into a validator. Leaf names are resolved by the caller, once per
occurrence and in reading order; composites without members are refused. -/

namespace StructuralTypes.Node

variable {m : Type → Type} [Monad m] [MonadExceptOf Fault m]

mutual

/-- The validator of a type, names resolved by `resolve`. -/
def compile (resolve : String → m Validator) : Node → m Validator
  | leaf name => resolve name
  | union [] => throw (.ofCause (.emptyComposite "union"))
  | union members => return .union (← compileAll resolve members)
  | intersection [] => throw (.ofCause (.emptyComposite "intersection"))
  | intersection members => return .intersection (← compileAll resolve members)
  | array element => return .array (← compile resolve element)
  | tuple [] => throw (.ofCause (.emptyComposite "tuple"))
  | tuple elements => return .tuple (← compileAll resolve elements)
  | shape exact properties indexer => do
    let properties ← compileProperties resolve properties
    return .shape exact properties (← compileIndexer resolve indexer)
  | stray .blank => throw (.ofCause (.unexpectedNode (variant (stray .blank))))
  | stray (.value _) => throw (.ofCause .emptyTree)

def compileAll (resolve : String → m Validator) : List Node → m (List Validator)
  | [] => return []
  | node :: rest => do
    let v ← compile resolve node
    return v :: (← compileAll resolve rest)

def compileProperty (resolve : String → m Validator) : Property → m PropertyValidator
  | .mk key value optional => return .mk key (← compile resolve value) optional

def compileProperties (resolve : String → m Validator) : List Property → m (List PropertyValidator)
  | [] => return []
  | property :: rest => do
    let v ← compileProperty resolve property
    return v :: (← compileProperties resolve rest)

def compileIndexer (resolve : String → m Validator) : Option Indexer → m (Option IndexerValidator)
  | none => return none
  | some (.mk key value) => do
    let key ← compile resolve key
    return some (.mk key (← compile resolve value))

end

end StructuralTypes.Node

import StructuralTypes.Node.Parser
import StructuralTypes.Predicate

/-! Aliases replaced by what they stand for. An alias is expanded with the aliases that
are not being expanded already, so an alias that leads back to itself is unknown there,
and expansion ends after at most as many steps inwards as there are aliases. -/

namespace StructuralTypes.Node

variable {m : Type → Type} [Monad m]

mutual

/-- A type with every leaf replaced, in reading order. -/
def substitute (replace : String → m Node) : Node → m Node
  | leaf name => replace name
  | union members => return .union (← substituteAll replace members)
  | intersection members => return .intersection (← substituteAll replace members)
  | array element => return .array (← substitute replace element)
  | tuple elements => return .tuple (← substituteAll replace elements)
  | shape exact properties indexer => do
    let properties ← substituteProperties replace properties
    return .shape exact properties (← substituteIndexer replace indexer)
  | stray s => return .stray s

def substituteAll (replace : String → m Node) : List Node → m (List Node)
  | [] => return []
  | node :: rest => do
    let node ← substitute replace node
    return node :: (← substituteAll replace rest)

def substituteProperty (replace : String → m Node) : Property → m Property
  | .mk key value optional => return .mk key (← substitute replace value) optional

def substituteProperties (replace : String → m Node) : List Property → m (List Property)
  | [] => return []
  | property :: rest => do
    let property ← substituteProperty replace property
    return property :: (← substituteProperties replace rest)

def substituteIndexer (replace : String → m Node) : Option Indexer → m (Option Indexer)
  | none => return none
  | some (.mk key value) => do
    let key ← substitute replace key
    return some (.mk key (← substitute replace value))

end

/-- A name that needs no alias: a keyword or a literal. -/
def builtinLeaf (name : String) : Except Fault Node :=
  match Predicate.ofName name with
  | .ok (some _) => return .leaf name
  | .ok none => throw (.ofCause (.typeNotFound name))
  | .error e => throw (.overlong e)

/-- What a name stands for, given the aliases that can still be used and a bound on how
many of them can be nested. -/
def expandWithin : Nat → Table String → String → Except Fault Node
  | 0, _, name => builtinLeaf name
  | depth + 1, aliases, name =>
    match Table.lookup? name aliases with
    | some source => do
      substitute (expandWithin depth (Table.erase name aliases)) (← parse? source)
    | none => builtinLeaf name

/-- What a name stands for among aliases. -/
def expandName (aliases : Table String) (name : String) : Except Fault Node :=
  expandWithin aliases.length aliases name

end StructuralTypes.Node

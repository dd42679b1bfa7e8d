import StructuralTypes.Table
import StructuralTypes.Value

/-! The syntax tree of a type: six variants, and stray values that stand where a node
belongs in trees that were not parsed. -/

namespace StructuralTypes

/-- What can stand in the place of a node without being one of the six variants. -/
inductive Stray where
  /-- A node of no variant. -/
  | blank
  | value (v : Value)
deriving Inhabited

mutual

/-- A type. -/
inductive Node where
  /-- A name, keyword or literal, resolved when the type is compiled. -/
  | leaf (name : String)
  /-- Some member accepts the value. -/
  | union (members : List Node)
  /-- All members accept the value. -/
  | intersection (members : List Node)
  /-- A container whose every item is of one type. -/
  | array (element : Node)
  /-- A container with one type per position. -/
  | tuple (elements : List Node)
  /-- Named properties; exact shapes refuse other keys. -/
  | shape (exact : Bool) (properties : List Property) (indexer : Option Indexer)
  | stray (s : Stray)

/-- A declared property; an optional one may be absent. -/
inductive Property where
  | mk (key : String) (value : Node) (optional : Bool)

/-- The types of undeclared keys and of their items. -/
inductive Indexer where
  | mk (key value : Node)

end

instance : Inhabited Node := ⟨.leaf ""⟩

instance : Inhabited Property := ⟨.mk "" default false⟩

instance : Inhabited Indexer := ⟨.mk default default⟩

namespace Property

def key : Property → String
  | mk key .. => key

def value : Property → Node
  | mk _ value _ => value

def optional : Property → Bool
  | mk _ _ optional => optional

end Property

namespace Indexer

def key : Indexer → Node
  | mk key _ => key

def value : Indexer → Node
  | mk _ value => value

end Indexer

namespace Node

/-- The name of the variant. -/
def variant : Node → String
  | leaf _ => "Leaf"
  | union _ => "Union"
  | intersection _ => "Intersection"
  | array _ => "Array"
  | tuple _ => "Tuple"
  | shape .. => "Shape"
  | stray .blank => "Node"
  | stray (.value v) => v.kindName

/-! ### Traversal -/

mutual

/-- The nodes of a tree, each before its parts, parts in order. Stray values other
than blank nodes are passed over. -/
def walk : Node → List Node
  | leaf name => [leaf name]
  | union members => union members :: walkAll members
  | intersection members => intersection members :: walkAll members
  | array element => array element :: walk element
  | tuple elements => tuple elements :: walkAll elements
  | shape exact properties indexer =>
    shape exact properties indexer :: (walkProperties properties ++ walkIndexer indexer)
  | stray .blank => [stray .blank]
  | stray (.value _) => []

def walkAll : List Node → List Node
  | [] => []
  | node :: rest => walk node ++ walkAll rest

def walkProperty : Property → List Node
  | .mk _ value _ => walk value

def walkProperties : List Property → List Node
  | [] => []
  | property :: rest => walkProperty property ++ walkProperties rest

def walkIndexer : Option Indexer → List Node
  | none => []
  | some (.mk key value) => walk key ++ walk value

end

/-- The properties of a shape by key: a repeated key keeps its first place and its
last property. -/
def propertyMap (properties : List Property) : Table Property :=
  Table.ofPairs (properties.map fun p => (p.key, p))

/-! ### Equality -/

mutual

/-- Structural equality. Stray values other than blank nodes equal nothing. -/
def same : Node → Node → Bool
  | leaf a, leaf b => a == b
  | union xs, union ys => sameAll xs ys
  | intersection xs, intersection ys => sameAll xs ys
  | array x, array y => same x y
  | tuple xs, tuple ys => sameAll xs ys
  | shape e ps i, shape e' ps' i' => e == e' && sameProperties ps ps' && sameIndexer i i'
  | stray .blank, stray .blank => true
  | _, _ => false

def sameAll : List Node → List Node → Bool
  | [], [] => true
  | x :: xs, y :: ys => same x y && sameAll xs ys
  | _, _ => false

def sameProperty : Property → Property → Bool
  | .mk k v o, .mk k' v' o' => k == k' && same v v' && o == o'

def sameProperties : List Property → List Property → Bool
  | [], [] => true
  | x :: xs, y :: ys => sameProperty x y && sameProperties xs ys
  | _, _ => false

def sameIndexer : Option Indexer → Option Indexer → Bool
  | none, none => true
  | some (.mk k v), some (.mk k' v') => same k k' && same v v'
  | _, _ => false

end

end Node

end StructuralTypes

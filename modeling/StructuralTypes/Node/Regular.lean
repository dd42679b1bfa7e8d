import StructuralTypes.Node
import StructuralTypes.Text.Escapes
import StructuralTypes.Token.MarkerForm

/-! Conditions on the nodes of a tree, each stated for one node and its parts, and the
names and keys that a tree holds in reading order. -/

namespace StructuralTypes.Node

/-- The nodes right below a node, in order. -/
def parts : Node → List Node
  | union members | intersection members => members
  | array element => [element]
  | tuple elements => elements
  | shape _ properties indexer =>
    properties.map Property.value
      ++ (indexer.map fun i => [i.key, i.value]).getD []
  | leaf _ | stray _ => []

def isStray : Node → Bool
  | stray _ => true
  | _ => false

def isLeaf : Node → Bool
  | leaf _ => true
  | _ => false

/-- The name of a leaf. -/
def leafName? : Node → Option String
  | leaf name => some name
  | _ => none

/-- The keys that a node declares. -/
def keys : Node → List String
  | shape _ properties _ => properties.map Property.key
  | _ => []

/-- Whether a node declares a key as that of an optional property or of a required one. -/
def declares (key : String) (optional : Bool) : Node → Bool
  | shape _ properties _ => properties.any fun p => p.key == key && p.optional == optional
  | _ => false

/-- Whether a node has parts enough, `least` of them in a union or intersection and one
in a tuple, and declares no key twice. -/
def hasParts (least : Nat) : Node → Bool
  | union members | intersection members => least ≤ members.length
  | tuple elements => !elements.isEmpty
  | shape exact properties indexer => decide (keys (shape exact properties indexer)).Nodup
  | leaf _ | array _ => true
  | stray _ => false

/-- Whether the indexer of a node, if it has one, is keyed by a name without quotes. -/
def hasPlainIndexer : Node → Bool
  | shape _ _ (some i) =>
    match i.key with
    | leaf name => (Escapes.quoted? name.toList).isNone
    | _ => false
  | _ => true

/-- Whether no required key of a node ends like the key of an optional property. -/
def hasUnmarkedKeys : Node → Bool
  | shape _ properties _ =>
    properties.all fun p =>
      p.optional || p.key.toList.getLast? != some MarkerForm.optionalMark
  | _ => true

/-- No required key of a tree ends like the key of an optional property. -/
def Unmarked (n : Node) : Prop :=
  ∀ k ∈ n.walk, k.hasUnmarkedKeys = true

/-- No node of a tree is stray. -/
def Proper (n : Node) : Prop :=
  n.isStray = false ∧ ∀ k ∈ n.walk, ∀ part ∈ k.parts, part.isStray = false

/-- No node of a tree is stray, and each has parts enough and distinct keys. -/
def Regular (least : Nat) (n : Node) : Prop :=
  n.isStray = false ∧
    ∀ k ∈ n.walk, k.hasParts least = true ∧ ∀ part ∈ k.parts, part.isStray = false

/-- What reading an annotation makes: unions and intersections of two members or more,
and indexers keyed by plain names. -/
def Canonical (n : Node) : Prop :=
  n.Regular 2 ∧ ∀ k ∈ n.walk, k.hasPlainIndexer = true

/-! ### Names and keys -/

/-- The names of the leaves, in reading order. -/
def leafNames (n : Node) : List String :=
  n.walk.filterMap leafName?

/-- The keys of all shapes, in reading order. -/
def allKeys (n : Node) : List String :=
  n.walk.flatMap keys

/-- The number of exact shapes with an indexer. -/
def exactIndexers (n : Node) : Nat :=
  n.walk.countP fun
    | shape true _ (some _) => true
    | _ => false

@[simp] theorem leafNames_leaf (name : String) : (leaf name).leafNames = [name] := rfl

@[simp] theorem leafNames_array (element : Node) :
    (array element).leafNames = element.leafNames := by
  simp only [leafNames, walk, List.filterMap_cons, leafName?]

theorem walkAll_eq_flatMap (nodes : List Node) : walkAll nodes = nodes.flatMap walk := by
  induction nodes with
  | nil => simp [walkAll]
  | cons node rest ih => simp [walkAll, ih]

theorem leafNames_union (members : List Node) :
    (union members).leafNames = members.flatMap leafNames := by
  simp only [leafNames, walk, walkAll_eq_flatMap, List.filterMap_cons, leafName?]
  induction members with
  | nil => rfl
  | cons node rest ih => simp only [List.flatMap_cons, List.filterMap_append, ih]; rfl

end StructuralTypes.Node

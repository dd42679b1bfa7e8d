import StructuralTypes.Value.Describe

/-! The failure of a value to match a type: what was given, why it was refused, and
the failures of its parts under the keys where they lie. A failure follows the part
of the type that the value departed from. -/

namespace StructuralTypes

/-- Why a composite type refuses a value: as a whole, or in some of its parts. -/
inductive FailureKind where
  | withUnion
  | withIntersection
  | withShape
  | withExactShape
  | inShapeProperties
  | inExactShapeProperties
  | withArray
  | inArrayMembers
  | withTuple
  | inTupleMembers
deriving DecidableEq, Inhabited

namespace FailureKind

/-- Every kind, in the order of declaration. -/
def all : List FailureKind :=
  [withUnion, withIntersection, withShape, withExactShape, inShapeProperties,
   inExactShapeProperties, withArray, inArrayMembers, withTuple, inTupleMembers]

/-- The readable form of a kind. -/
def text : FailureKind → String
  | withUnion => "incompatible with union"
  | withIntersection => "incompatible with intersection"
  | withShape => "incompatible with shape"
  | withExactShape => "incompatible with exact shape"
  | inShapeProperties => "incompatible in shape properties"
  | inExactShapeProperties => "incompatible in exact shape properties"
  | withArray => "incompatible with array"
  | inArrayMembers => "incompatible in array members"
  | withTuple => "incompatible with tuple"
  | inTupleMembers => "incompatible in tuple members"

/-- The identifier of a kind in reports. -/
def identifier : FailureKind → String
  | withUnion => "with_union"
  | withIntersection => "with_intersection"
  | withShape => "with_shape"
  | withExactShape => "with_exact_shape"
  | inShapeProperties => "in_shape_properties"
  | inExactShapeProperties => "in_exact_shape_properties"
  | withArray => "with_array"
  | inArrayMembers => "in_array_members"
  | withTuple => "with_tuple"
  | inTupleMembers => "in_tuple_members"

/-- The kind of an identifier. -/
def ofIdentifier? (name : String) : Option FailureKind :=
  all.find? (·.identifier == name)

end FailureKind

/-- The refused side of a failure: a kind for composites, a text for leaves. -/
inductive Unexpected where
  | kind (k : FailureKind)
  | reason (text : String)
deriving DecidableEq, Inhabited

namespace Unexpected

def text : Unexpected → String
  | kind k => k.text
  | reason text => text

def kind? : Unexpected → Option FailureKind
  | kind k => some k
  | reason _ => none

end Unexpected

/-- A refused value. The reason is what the message says of it; the children are
the failures of its parts, or of the alternatives tried, in order. -/
inductive Failure where
  | mk (given : String) (unexpected : Unexpected) (reason : String)
      (children : List (Value × Failure))
deriving Inhabited

namespace Failure

def given : Failure → String
  | mk given .. => given

def unexpected : Failure → Unexpected
  | mk _ unexpected .. => unexpected

def reason : Failure → String
  | mk _ _ reason _ => reason

def children : Failure → List (Value × Failure)
  | mk _ _ _ children => children

def kind? (f : Failure) : Option FailureKind :=
  f.unexpected.kind?

/-- What the failure itself says. -/
def message (f : Failure) : String :=
  f.given ++ " is " ++ f.reason

/-- A failure whose given side is a ready-made description. -/
def described (description : String) (unexpected : Unexpected)
    (children : List (Value × Failure)) : Failure :=
  mk description unexpected unexpected.text children

/-- A failure of a value refused for a reason of its own. -/
def leaf (given : Value) (reason : String) : Failure :=
  described given.describe (.reason reason) []

/-- A failure of a value refused by a composite type. -/
def composite (given : Value) (kind : FailureKind) (children : List (Value × Failure)) : Failure :=
  described given.describe (.kind kind) children

/-- Failures keyed by their positions. -/
def numbered (failures : List Failure) : List (Value × Failure) :=
  failures.zipIdx.map fun p => (.int p.2, p.1)

mutual

/-- Follows single children down to the first failure that branches or has none. -/
def deepest : Failure → Failure
  | mk given unexpected reason children =>
    (deepestOnly children).getD (mk given unexpected reason children)

/-- The deepest failure below an only child. -/
def deepestOnly : List (Value × Failure) → Option Failure
  | [(_, child)] => some child.deepest
  | _ => none

end

/-- The display form of a failure: both sides and the keys of its children. -/
def display (f : Failure) : String :=
  "IncompatibleTypeError(given=" ++ Quoted.render f.given
    ++ ", unexpected=" ++ Quoted.render f.unexpected.text
    ++ ", children=" ++ (Value.list (f.children.map (·.1))).display ++ ")"

end Failure

end StructuralTypes

import StructuralTypes.Failure.Messages

/-! How many messages a failure has, told from its tree alone. An atomic failure has
one; a failure of a leaf that passes on one failure adds a message of its own; every
other failure has the messages of its children. -/

namespace StructuralTypes

namespace FailureKind

/-- Whether a kind speaks of the value as a whole, whatever children it has. -/
def isWhole : FailureKind → Bool
  | withShape | withExactShape | withArray | withTuple => true
  | _ => false

end FailureKind

namespace Failure

mutual

/-- Whether a failure has a single message. -/
def isAtomic : Failure → Bool
  | mk _ (.reason _) _ children => children.isEmpty
  | mk _ (.kind .withUnion) _ children => allAtomic children
  | mk _ (.kind k) _ _ => k.isWhole

def allAtomic : List (Value × Failure) → Bool
  | [] => true
  | (_, child) :: rest => isAtomic child && allAtomic rest

end

mutual

/-- The number of messages of a failure. -/
def points : Failure → Nat
  | mk given unexpected reason children =>
    if isAtomic (mk given unexpected reason children) then 1
    else match unexpected with
      | .reason _ => 1 + pointsAll children
      | .kind _ => pointsAll children

def pointsAll : List (Value × Failure) → Nat
  | [] => 0
  | (_, child) :: rest => points child + pointsAll rest

end

mutual

/-- Whether a leaf with several children lies below, kinds that speak of the value as a
whole hiding what they hold. -/
def hasCrowdedLeaf : Failure → Bool
  | mk _ (.reason _) _ children => 1 < children.length || anyCrowded children
  | mk _ (.kind k) _ children => !k.isWhole && anyCrowded children

def anyCrowded : List (Value × Failure) → Bool
  | [] => false
  | (_, child) :: rest => hasCrowdedLeaf child || anyCrowded rest

end

/-! ### Children of each kind -/

/-- Whether a failure has as many children as its kind asks for. -/
def hasFittingChildren (f : Failure) : Bool :=
  match f.unexpected with
  | .reason _ => f.children.isEmpty
  | .kind .withUnion => 2 ≤ f.children.length
  | .kind k => f.children.isEmpty == k.isWhole

mutual

/-- The failures of a tree, each before those below it. -/
def walk : Failure → List Failure
  | mk given unexpected reason children =>
    mk given unexpected reason children :: walkAll children

def walkAll : List (Value × Failure) → List Failure
  | [] => []
  | (_, child) :: rest => walk child ++ walkAll rest

end

/-- Every failure of a tree has as many children as its kind asks for. -/
def WellFormed (f : Failure) : Prop :=
  ∀ g ∈ f.walk, g.hasFittingChildren = true

/-! ### Laws -/

theorem self_mem_walk (f : Failure) : f ∈ f.walk := by
  cases f
  simp [walk]

end Failure

end StructuralTypes

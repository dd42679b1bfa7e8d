import Mathlib.Data.List.Forall2
import StructuralTypes.Failure.Points
import StructuralTypes.Validator.Guarded

/-! The messages of a failure as they are written. Some failures of a tree have a message of
their own, and the messages of the tree are theirs from left to right, each followed by where
its failure lies. Writing ends early at a leaf that holds several failures, or at a key with
too many digits. -/

namespace StructuralTypes

/-- How messages of parts are completed, for a kind that names its parts. -/
def FailureKind.finish? (given path : String) : FailureKind → Option (Value → String → String)
  | inArrayMembers => some (Failure.atIndex "array" path)
  | inTupleMembers => some (Failure.atIndex "tuple" path)
  | inShapeProperties | inExactShapeProperties => some (Failure.inProperty given path)
  | _ => none

namespace Failure

/-! ### What is told -/

/-- What a failure says without a word on where it lies. -/
def ownText : Failure → String
  | mk given (.kind .withUnion) _ children =>
    given ++ " is either " ++ " or ".intercalate (alternatives children)
  | mk given _ reason _ => given ++ " is " ++ reason

/-- A message says what a failure says, and perhaps where. -/
def IsToldBy (f : Failure) (text : String) : Prop :=
  ∃ place, text = f.ownText ++ place

mutual

/-- The failures with a message of their own, from left to right. -/
def tellers : Failure → List Failure
  | mk given unexpected reason children =>
    if isAtomic (mk given unexpected reason children) then [mk given unexpected reason children]
    else match unexpected with
      | .reason _ => mk given unexpected reason children :: tellersAll children
      | .kind _ => tellersAll children

def tellersAll : List (Value × Failure) → List Failure
  | [] => []
  | (_, child) :: rest => tellers child ++ tellersAll rest

end

/-! ### Where it lies -/

/-- A failure that is told and what is said on where it lies. -/
structure Telling where
  teller : Failure
  place : String

def Telling.text (t : Telling) : String :=
  t.teller.ownText ++ t.place

mutual

/-- What a failure at a path tells. Only a part with a single message gets a place there. -/
def tellings (path : String) : Failure → List Telling
  | mk given unexpected reason children =>
    if isAtomic (mk given unexpected reason children) then
      [⟨mk given unexpected reason children, ""⟩]
    else match unexpected with
      | .reason _ => ⟨mk given unexpected reason children, ""⟩ :: tellingsAll path children
      | .kind k => match k.finish? given path with
        | some finish => tellingsKeyed path (fun key => finish key "") children
        | none => tellingsAll path children

/-- What failures at one path tell. -/
def tellingsAll (path : String) : List (Value × Failure) → List Telling
  | [] => []
  | (_, child) :: rest => tellings path child ++ tellingsAll path rest

/-- What failures of parts tell, each at its own path. -/
def tellingsKeyed (path : String) (place : Value → String) :
    List (Value × Failure) → List Telling
  | [] => []
  | (key, child) :: rest =>
    (if isAtomic child then [⟨child, place key⟩] else tellings (joinPath path key) child)
      ++ tellingsKeyed path place rest

end

/-- The messages of a failure, told from its tree. -/
def told (path : String) (f : Failure) : Messages :=
  if f.isAtomic then .one f.ownText else .many ((f.tellings path).map Telling.text)

/-! ### Writing -/

mutual

/-- Goes through a failure in the order in which its messages are made. -/
def checkTold : Failure → Except Fault Unit
  | mk _ (.reason text) _ children =>
    if 1 < children.length then throw (.ofCause (.leafWithChildren text children.length))
    else checkAllTold false children
  | mk _ (.kind k) _ children =>
    if k.isWhole then return () else checkAllTold k.namesKeys children

def checkAllTold (named : Bool) : List (Value × Failure) → Except Fault Unit
  | [] => return ()
  | (key, child) :: rest => do
    if named && key.labelsOverlong then throw (.overlong .written)
    checkTold child
    checkAllTold named rest

end

/-- The messages of a failure at a path, where they can be written. -/
def tell (path : String) (f : Failure) : Except Fault Messages := do
  f.checkTold
  (f.flatten path).mapError .type

/-- What is promised of the messages of a failure: there are none just when a leaf holds
several failures, there is one just when the failure is atomic, and else there is one for each
failure that is told. -/
structure Flattens (f : Failure) (path : String) : Prop where
  fails : (∃ cause : Cause, cause.causeClass = .inconsistent
    ∧ f.tell path = .error (.ofCause cause)) ↔ f.hasCrowdedLeaf = true
  single : f.hasCrowdedLeaf = false →
    ((∃ text, f.tell path = .ok (.one text)) ↔ f.isAtomic = true)
  several : f.hasCrowdedLeaf = false → f.isAtomic = false →
    ∃ texts, f.tell path = .ok (.many texts) ∧ texts.length = f.points
      ∧ List.Forall₂ IsToldBy f.tellers texts

end Failure

end StructuralTypes

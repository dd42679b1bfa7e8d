import StructuralTypes.Failure.Written

/-! Where the failures of parts are said to lie. A kind that names its parts completes their
messages with the key, but only where a part has a single message; what has several of them
passes through unchanged, so that the place is lost unless something further down has put one. -/

namespace StructuralTypes

/-- Whether messages of parts are completed with the path, or with one that extends it. -/
def FailureKind.givesPath (path : String) : FailureKind → Bool
  | inArrayMembers | inTupleMembers => !path.isEmpty
  | inShapeProperties | inExactShapeProperties => true
  | _ => false

namespace Failure

/-! ### Parts below -/

/-- The path of a child: that of the failure, longer where its kind names its parts. -/
def childPath (unexpected : Unexpected) (path : String) (key : Value) : String :=
  if unexpected.kind?.any FailureKind.namesKeys then joinPath path key else path

/-- A failure with its path leads to another one below it, with the path of that. A kind that
speaks of the value as a whole hides what it holds. -/
inductive LeadsTo : Failure → String → Failure → String → Prop
  | here (f : Failure) (path : String) : LeadsTo f path f path
  | part {given reason path place : String} {unexpected : Unexpected} {key : Value}
      {child g : Failure} {children : List (Value × Failure)}
      (whole : unexpected.kind?.any FailureKind.isWhole = false) (mem : (key, child) ∈ children)
      (leads : LeadsTo child (childPath unexpected path key) g place) :
      LeadsTo (mk given unexpected reason children) path g place

/-- How a failure at a path completes the messages of its children, if it does. -/
def finish? (f : Failure) (path : String) : Option (Value → String → String) :=
  f.kind?.bind fun k => k.finish? f.given path

/-- The messages that a child of a failure at a path contributes, a single one completed by
its key where the kind of the failure names its parts. -/
def contribution (f : Failure) (path : String) (key : Value) (child : Failure) :
    Except TypeFault (List String) :=
  match f.finish? path with
  | some finish => do return (← child.flatten (joinPath path key)).complete (finish key)
  | none => do return (← child.flatten path).toList

/-! ### Places -/

/-- A text occurs in another one. -/
def Mentions (text part : String) : Prop :=
  ∃ before after, text = before ++ part ++ after

/-- A text names a path, or one that extends it. -/
def NamesPath (path text : String) : Prop :=
  ∃ keys : List Value, Mentions text ("of property `" ++ keys.foldl joinPath path ++ "`")

/-- A message names the position of a part: by its index among the members, or by its path or
one that extends it. -/
def NamesPosition (k : FailureKind) (path : String) (key : Value) (text : String) : Prop :=
  (k = .inArrayMembers ∨ k = .inTupleMembers) ∧ Mentions text ("at index #" ++ key.label ++ " in")
    ∨ NamesPath (joinPath path key) text

/-- A place without a path: there is none at all, or only the index of a member. -/
def IsPathless (place : String) : Prop :=
  place = "" ∨ ∃ container key, place = atIndex container "" key ""

mutual

/-- Whether all messages of a failure at a path name it or one that extends it. They come
unchanged out of unions and intersections, and there is no path in a single message. -/
def isPlaced (path : String) : Failure → Bool
  | mk given unexpected reason children =>
    !isAtomic (mk given unexpected reason children) && match unexpected with
      | .reason _ => false
      | .kind k => allPlaced k path children

def allPlaced (k : FailureKind) (path : String) : List (Value × Failure) → Bool
  | [] => true
  | (key, child) :: rest =>
    (isAtomic child && k.givesPath path || isPlaced (childPath (.kind k) path key) child)
      && allPlaced k path rest

end

end Failure

end StructuralTypes

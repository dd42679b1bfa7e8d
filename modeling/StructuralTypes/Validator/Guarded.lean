import StructuralTypes.Validator.Evaluate
import StructuralTypes.Value.Display

/-! Judging values whose failures are to be written out. A number with too many digits
cannot be described, so refusing one ends the judgement, even where another alternative
would have accepted it. The same holds of a mapping that a shape refuses for a key in
which such a number stands, and of messages that name a key like that. -/

namespace StructuralTypes

/-- Whether a number with too many digits stands in the first key that is no text. -/
def Value.hasOverlongKey (v : Value) : Bool :=
  (v.observed.find? fun p => !p.1.isText).any (·.1.showsOverlong)

/-- Whether the messages of a failure of the kind name the keys of its children. -/
def FailureKind.namesKeys : FailureKind → Bool
  | inShapeProperties | inExactShapeProperties | inArrayMembers | inTupleMembers => true
  | _ => false

mutual

/-- Whether a number with too many digits stands in a key that messages name. -/
def Failure.hasOverlongKey : Failure → Bool
  | .mk _ unexpected _ children =>
    Failure.anyOverlongKey (unexpected.kind?.any FailureKind.namesKeys) children

def Failure.anyOverlongKey (named : Bool) : List (Value × Failure) → Bool
  | [] => false
  | (key, child) :: rest =>
    (named && key.labelsOverlong) || child.hasOverlongKey || Failure.anyOverlongKey named rest

end

namespace Validator

/-- A validator that cannot refuse the values of a kind. -/
def guard (cannotRefuse : Value → Bool) (w : Validator) : Validator :=
  custom fun v => do
    let verdict ← w.evaluate v
    if !verdict.ok && cannotRefuse v then throw (.overlong .written)
    return verdict

mutual

/-- The same validator where every refusal is described at once. -/
def guarded : Validator → Validator
  | predicate p => guard Value.isOverlong (predicate p)
  | callable name respond => guard Value.isOverlong (callable name respond)
  | union members => guard Value.isOverlong (union (guardedAll members))
  | intersection members => guard Value.isOverlong (intersection (guardedAll members))
  | array element => guard Value.isOverlong (array (guarded element))
  | tuple elements => guard Value.isOverlong (tuple (guardedAll elements))
  | shape exact properties indexer =>
    guard (fun v => v.isOverlong || v.hasOverlongKey)
      (shape exact (guardedProperties properties) (guardedIndexer indexer))
  | custom judge => custom judge

def guardedAll : List Validator → List Validator
  | [] => []
  | w :: rest => guarded w :: guardedAll rest

def guardedProperties : List PropertyValidator → List PropertyValidator
  | [] => []
  | .mk key w optional :: rest => .mk key (guarded w) optional :: guardedProperties rest

def guardedIndexer : Option IndexerValidator → Option IndexerValidator
  | none => none
  | some (.mk key value) => some (.mk (guarded key) (guarded value))

end

/-- The verdict of a validator, given where it can be written out. -/
def written (w : Validator) (v : Value) : Except Fault Verdict := do
  let verdict ← w.guarded.evaluate v
  if verdict.failure.any Failure.hasOverlongKey then throw (.overlong .written)
  return verdict

end Validator

end StructuralTypes

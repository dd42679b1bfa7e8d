import StructuralTypes.Table
import StructuralTypes.Validator

/-! Judging a value. Every validator answers with a verdict; composites combine the
verdicts of their parts into one failure, keyed by where the parts lie. -/

namespace StructuralTypes

namespace Verdict

/-- The failure of a refused part, which a composite cannot do without. -/
def refusal? (v : Verdict) : Except Fault (Option Failure) :=
  if v.ok then return none
  else match v.failure with
    | some f => return some f
    | none => throw (.ofCause .failureMissing)

end Verdict

namespace Validator

/-- A check of one value. -/
abbrev Check := Value → Except Fault Verdict

/-- The verdict on a container whose failing parts are known. -/
def judgeParts (v : Value) (kind : FailureKind) (failures : List (Value × Failure)) : Verdict :=
  if failures.isEmpty then .passed else .failed (.composite v kind failures)

/-- The verdict on a value that all alternatives refuse: an only one speaks for itself. -/
def judgeAlternatives (v : Value) : List Failure → Verdict
  | [f] => .failed f
  | failures => .failed (.composite v .withUnion (Failure.numbered failures))

/-- The failures of keyed items under one check. -/
def failingItems (check : Check) : List (Value × Value) → Except Fault (List (Value × Failure))
  | [] => return []
  | (key, item) :: rest => do
    let refusal ← (← check item).refusal?
    let failures ← failingItems check rest
    return (refusal.map fun f => (key, f)).toList ++ failures

/-! ### Shapes -/

/-- The failure of a key that an exact shape does not know. -/
def extraKey (exact : Bool) (key : String) : Failure :=
  .described ("property `" ++ key ++ "`")
    (.reason ("missing in " ++ shapeLabel exact ++ " but exists in value")) []

/-- The failure of a declared key that a value does not have. -/
def missingKey (exact : Bool) (key : String) : Failure :=
  .described ("property `" ++ key ++ "`")
    (.reason ("missing in value but exists in " ++ shapeLabel exact)) []

/-- The failure of a value with a key that is no text. -/
def foreignKey (exact : Bool) (v key : Value) : Failure :=
  .described (v.describe ++ " with non-string key " ++ key.display)
    (.kind (if exact then .withExactShape else .withShape)) []

/-- The failure of an item under an undeclared key. An exact shape refuses the key
unless its indexer accepts it; an inexact one does not ask. -/
def checkUndeclared (exact : Bool) (indexer : Option (Check × Check)) (key : String)
    (item : Value) : Except Fault (Option Failure) := do
  match indexer with
  | none => return if exact then some (extraKey exact key) else none
  | some (checkKey, checkItem) =>
    if exact then
      if !(← checkKey (.text key)).ok then return some (extraKey exact key)
    (← checkItem item).refusal?

/-- The failures under the observed keys, or the first key that is no text. -/
def failingKeys (check : String → Value → Except Fault (Option Failure)) :
    List (Value × Value) → Table Failure → Except Fault (Except Value (Table Failure))
  | [], failures => return .ok failures
  | (.text key, item) :: rest, failures => do
    match ← check key item with
    | some f => failingKeys check rest (Table.insert key f failures)
    | none => failingKeys check rest failures
  | (key, _) :: _, _ => return .error key

/-- Adds the declared keys that must be present and are not observed. -/
def addMissing (exact : Bool) (observed : List (Value × Value)) (failures : Table Failure) :
    List PropertyValidator → Table Failure
  | [] => failures
  | .mk key _ optional :: rest =>
    let present := observed.any fun p => match p.1 with
      | .text k => k == key
      | _ => false
    addMissing exact observed
      (if present || optional then failures else Table.insert key (missingKey exact key) failures)
      rest

/-- The verdict on a value under a shape, given the check of each observed item. -/
def judgeShape (exact : Bool) (properties : List PropertyValidator)
    (check : String → Value → Except Fault (Option Failure)) (v : Value) :
    Except Fault Verdict := do
  if !(v.isArrayLike || v.isObjectLike) then
    return .failed (.composite v (if exact then .withExactShape else .withShape) [])
  match ← failingKeys check v.observed [] with
  | .error key => return .failed (foreignKey exact v key)
  | .ok failures =>
    let failures := addMissing exact v.observed failures properties
    return judgeParts v (if exact then .inExactShapeProperties else .inShapeProperties)
      (failures.map fun p => (.text p.1, p.2))

/-! ### Tuples -/

/-- The failure of a container of another length. -/
def wrongLength (v : Value) (given wanted : Nat) : Failure :=
  .mk (v.describe ++ " with arity of " ++ toString given) (.kind .withTuple)
    ("incompatible with tuple type with arity of " ++ toString wanted) []

/-! ### All validators -/

mutual

/-- The verdict of a validator on a value. -/
def evaluate : Validator → Check
  | predicate p, v =>
    return if p.accepts v then .passed else .failed (.leaf v p.reason)
  | callable name respond, v =>
    match respond v with
    | .accepts => return .passed
    | .refuses => return .failed (.leaf v ("incompatible with " ++ name))
    | .fails f => return .failed f
    | .raises r => throw (.raised r)
  | union members, v => do
    match ← refusedByAll members v with
    | none => return .passed
    | some failures => return judgeAlternatives v failures
  | intersection members, v => do
    return judgeParts v .withIntersection (Failure.numbered (← refusals members v))
  | array element, v => do
    match v.entries? with
    | none => return .failed (.composite v .withArray [])
    | some entries =>
      let failures ← failingItems (fun item => evaluate element item) entries
      return judgeParts v .inArrayMembers failures
  | tuple elements, v => do
    match v.elements? with
    | none => return .failed (.composite v .withTuple [])
    | some items =>
      if items.length ≠ elements.length then
        return .failed (wrongLength v items.length elements.length)
      return judgeParts v .inTupleMembers (← failingPositions elements 0 items)
  | shape exact properties indexer, v =>
    judgeShape exact properties
      (fun key item =>
        match evaluateDeclared properties key item with
        | some verdict => do (← verdict).refusal?
        | none => checkUndeclared exact (indexerChecks indexer) key item)
      v
  | custom judge, v => judge v

/-- The failures of all alternatives in order, or nothing when one accepts. -/
def refusedByAll : List Validator → Value → Except Fault (Option (List Failure))
  | [], _ => return some []
  | member :: rest, v => do
    match ← (← evaluate member v).refusal? with
    | none => return none
    | some f => return (← refusedByAll rest v).map (f :: ·)

/-- The failures of the members that refuse a value, in order. -/
def refusals : List Validator → Value → Except Fault (List Failure)
  | [], _ => return []
  | member :: rest, v => do
    let refusal ← (← evaluate member v).refusal?
    return refusal.toList ++ (← refusals rest v)

/-- The failures of items under the validators of their positions. -/
def failingPositions : List Validator → Nat → List Value → Except Fault (List (Value × Failure))
  | element :: elements, position, item :: items => do
    let refusal ← (← evaluate element item).refusal?
    let failures ← failingPositions elements (position + 1) items
    return (refusal.map fun f => (Value.int position, f)).toList ++ failures
  | _, _, _ => return []

/-- The verdict on an item by the last property declared under its key. -/
def evaluateDeclared : List PropertyValidator → String → Value → Option (Except Fault Verdict)
  | [], _, _ => none
  | .mk declared v _ :: rest, key, item =>
    match evaluateDeclared rest key item with
    | some verdict => some verdict
    | none => if declared = key then some (evaluate v item) else none

/-- The checks of an indexer on keys and on items. -/
def indexerChecks : Option IndexerValidator → Option (Check × Check)
  | none => none
  | some (.mk key value) => some (fun k => evaluate key k, fun item => evaluate value item)

end

/-- Calls a validator: a value that fails is raised as a fault. A refusal without a
failure raises nothing. -/
def call (v : Validator) (x : Value) : Except Fault Unit := do
  match (← v.evaluate x).failure with
  | some f => throw (.incompatible f)
  | none => return ()

end Validator

end StructuralTypes

import StructuralTypes.Failure.Report
import StructuralTypes.Failure.Written

/-! What it means for the plain data of a failure to show all of it: the same texts at
every place, and one entry for each child, in order and under its label. A report does so
and counts the messages of the failure, where it can be written and no labels meet. -/

namespace StructuralTypes

namespace Summary

mutual

/-- Whether plain data show a failure and everything below it. -/
def Shows : Summary → Failure → Prop
  | .mk given unexpected message kind entries, .mk value expected reason children =>
    given = value ∧ unexpected = expected.text ∧ message = value ++ " is " ++ reason
      ∧ kind = expected.kind? ∧ ShowsAll entries children

def ShowsAll : List (String × Summary) → List (Value × Failure) → Prop
  | [], [] => True
  | (label, summary) :: entries, (key, child) :: children =>
    label = key.label ∧ Shows summary child ∧ ShowsAll entries children
  | _, _ => False

end

/-- Entries that show all children are under their labels. -/
theorem ShowsAll.keys_eq {entries : List (String × Summary)} {children : List (Value × Failure)}
    (h : ShowsAll entries children) :
    Table.keys entries = children.map fun p => p.1.label := by
  induction children generalizing entries with
  | nil =>
    cases entries with
    | nil => rfl
    | cons entry rest => exact absurd h (by simp [ShowsAll])
  | cons p rest ih =>
    cases entries with
    | nil => exact absurd h (by simp [ShowsAll])
    | cons entry entries =>
      obtain ⟨hlabel, -, hrest⟩ := h
      exact congr (congrArg List.cons hlabel) (ih hrest)

end Summary

/-! ### Labels -/

namespace Failure

/-- The labels of the children of a failure, in order. -/
def labels (f : Failure) : List String :=
  f.children.map fun p => p.1.label

/-- No child lies under a key whose label would have to write a number with too many digits. -/
def HasShortKeys (f : Failure) : Prop :=
  ∀ p ∈ f.children, p.1.labelsOverlong = false

mutual

/-- Goes through a failure in the order in which a report labels its children. -/
def checkLabels : Failure → Except Fault Unit
  | mk _ _ _ children => checkAllLabels children

def checkAllLabels : List (Value × Failure) → Except Fault Unit
  | [] => return ()
  | (key, child) :: rest => do
    if key.labelsOverlong then throw (.overlong .written)
    checkLabels child
    checkAllLabels rest

end

end Failure

/-- A value in which no two items of a mapping have the same label, at any depth. -/
inductive Value.WellLabelled : Value → Prop
  | of {v : Value}
    (labels : ∀ entries, v = .mapping entries →
      (entries.map fun p => p.1.plainKey.label).Nodup)
    (items : ∀ p ∈ v.observed, WellLabelled p.2) : WellLabelled v

/-! ### Reports -/

namespace Report

/-- The report on an outcome, where it can be written: first the messages, then the labels. -/
def write (source : Option String) (outcome : Option Failure) : Except Fault Report := do
  if let some f := outcome then
    f.checkTold
    f.checkLabels
  (build source outcome).mapError .type

/-- A report that shows a failure with everything below it, and lists and counts its messages. -/
structure Tells (r : Report) (f : Failure) : Prop where
  shown : ∃ summary, r.failure = some summary ∧ ("error", summary.toJson) ∈ r.members
    ∧ summary.Shows f
  listed : f.messageList = .ok r.messages ∧ ("messages", .ofStrings r.messages) ∈ r.members
  counted : ("message_count", .int r.messages.length) ∈ r.members
    ∧ r.messages.length = f.points

end Report

end StructuralTypes

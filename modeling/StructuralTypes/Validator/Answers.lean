import StructuralTypes.Failure.Points
import StructuralTypes.Validator.Guarded

/-! What it is for a validator to answer. It gives a verdict, with a failure just when it
refuses; the failure is well formed and its messages can be written, at whatever path the
value lies. -/

namespace StructuralTypes

/-- A failure that is well formed and has messages at every path, some of its own at least. -/
def Failure.IsTold (f : Failure) : Prop :=
  f.WellFormed ∧ (∀ path, ∃ messages, f.flatten path = .ok messages)
    ∧ ∃ texts, f.messageList = .ok texts ∧ texts ≠ []

/-- A validator that gives a value a verdict, with a failure just when it refuses it. -/
def Validator.Answers (w : Validator) (v : Value) : Prop :=
  ∃ verdict, w.written v = .ok verdict ∧ (verdict.ok = true ↔ verdict.failure = none)
    ∧ ∀ f ∈ verdict.failure, f.IsTold

/-- A validator that answers on a value, and accepts it. -/
def Validator.Accepts (w : Validator) (v : Value) : Prop :=
  ∃ verdict, w.written v = .ok verdict ∧ verdict.ok = true

/-- A value without numbers of too many digits, in its keys and at any depth. -/
inductive Value.Writable : Value → Prop
  | of {v : Value} (whole : v.isOverlong = false)
    (keys : ∀ p ∈ v.observed, p.1.showsOverlong = false ∧ p.1.labelsOverlong = false)
    (items : ∀ p ∈ v.observed, Writable p.2) : Writable v

end StructuralTypes

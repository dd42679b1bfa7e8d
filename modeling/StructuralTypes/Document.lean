import StructuralTypes.Fault

/-! Documents: texts that stand for values. How a text is read is left to a loader, which
gives the value or says why there is none; everything that reads documents takes the
loader as an argument. -/

namespace StructuralTypes.Document

/-- Why a loader gives no value. -/
inductive Fault where
  /-- The text is no document. -/
  | malformed (message : String)
  /-- Something in it is written like a value that cannot be. -/
  | invalid (message : String)
  /-- The loader breaks off. -/
  | raised (r : Raised)

def Fault.message : Fault → String
  | malformed message | invalid message => message
  | raised r => r.message

/-- The value of a text, if it has one. -/
abbrev Loader := String → Except Fault Value

/-- A text that a loader gives a value, or finds to be no document or to hold no value. -/
def Settled (load : Loader) (text : String) : Prop :=
  ∀ r, load text ≠ .error (.raised r)

end StructuralTypes.Document

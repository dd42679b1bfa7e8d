import StructuralTypes.Check

/-! One verdict in four ways. A value can be asked about, checked, handed to the validator
itself, and passed through a checkpoint without a default. -/

namespace StructuralTypes.Check

/-- The ways to check a value against a definition, each from the same registry, agree on
accepting it, and none of those that raise returns when the value is refused. -/
structure Agree (d : Definition) (w : Validator) (v : Value) (r : Registry) : Prop where
  checked : ((isValid d v).run r).1 = .ok true ↔ ((check d v).run r).1 = .ok ()
  called : ((isValid d v).run r).1 = .ok true ↔ w.call v = .ok ()
  passed : ((isValid d v).run r).1 = .ok true ↔ ((passthrough true v d .null).run r).1 = .ok v
  refused : ((isValid d v).run r).1 = .ok false →
    ((check d v).run r).1 ≠ .ok () ∧ w.call v ≠ .ok ()
      ∧ ∀ u, ((passthrough true v d .null).run r).1 ≠ .ok u

end StructuralTypes.Check

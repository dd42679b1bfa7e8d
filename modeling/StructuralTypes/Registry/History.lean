import StructuralTypes.Registry.Build

/-! Histories of a registry: sequences of operations, each of which may fail and still
leaves its traces. The journal of the registry tells what happened inside them. -/

namespace StructuralTypes.Registry

/-- One operation on a registry. -/
inductive Action where
  | register (name : Value) (d : Definition)
  | postpone (name : Value) (recipe : Recipe)
  | resolve (name : String)
  | compile (source : String)
  | knows (name : String)

/-- The outcome of an operation, with a validator where it gives one. -/
def Action.run : Action → RegistryM (Option Entry)
  | register name d => return some (← Registry.register name d)
  | postpone name recipe => do
    Registry.postpone name recipe
    return none
  | resolve name => return some (← Registry.resolve name)
  | compile source => return some (← Registry.compile source)
  | knows name => do
    let _ ← liftExcept (((← get).knows name).mapError Fault.overlong)
    return none

/-- The registry after an operation, whatever its outcome. -/
def after (r : Registry) (a : Action) : Registry :=
  (a.run.run r).2

/-- The registry after a sequence of operations. -/
def afterAll (r : Registry) (actions : List Action) : Registry :=
  actions.foldl after r

@[simp] theorem afterAll_nil (r : Registry) : r.afterAll [] = r := rfl

@[simp] theorem afterAll_cons (r : Registry) (a : Action) (rest : List Action) :
    r.afterAll (a :: rest) = (r.after a).afterAll rest := rfl

/-- Asking whether a name is known changes nothing. -/
@[simp] theorem after_knows (r : Registry) (name : String) : r.after (.knows name) = r := by
  have h : (Action.knows name).run.run r
      = ((liftExcept ((r.knows name).mapError Fault.overlong) >>= fun _ => return none :
          RegistryM (Option Entry)).run r) := rfl
  rw [after, h]
  cases r.knows name <;> rfl

end StructuralTypes.Registry

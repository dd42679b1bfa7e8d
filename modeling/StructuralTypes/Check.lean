import StructuralTypes.Node.Printer
import StructuralTypes.Registry.Build
import StructuralTypes.Validator.Evaluate

/-! Checking a value against whatever can be given as a type: once as a verdict, once
as a call that raises, and once as a checkpoint that passes the value through or puts a
default in its place. -/

namespace StructuralTypes

/-- The children of a failure as supplied, some of them not failures but things of
another kind. -/
def Failure.checkChildren : List (Value × Except String Failure) →
    Except Fault (List (Value × Failure))
  | [] => return []
  | (key, .ok f) :: rest => return (key, f) :: (← checkChildren rest)
  | (key, .error received) :: _ => throw (.ofCause (.childNotFailure key received))

namespace Check

/-- The validator of a definition. -/
def validatorFor : Definition → RegistryM Validator
  | .validator v => return v
  | .entry e => return e.validator
  | .text source => return (← Registry.compile source).validator
  | .node n => do
    let depth := (← get).levels
    return (← Registry.compileNode (Registry.resolveWithin depth) n).validator
  | .function f => return .callable (f.name.getD "[anonymous]") f.respond
  | .foreign kind => throw (.misuse (.noValidator kind))

/-- Whether a definition is its own validator. -/
def isValidator : Definition → Bool
  | .validator _ | .entry _ => true
  | _ => false

/-- The name of a definition in messages. -/
def nameOf : Definition → Except Misuse String
  | .text source => return source
  | .node n => n.format
  | .validator v | .entry { validator := v, .. } => return "[" ++ v.kind ++ "]"
  | .function f => return f.name.getD "[anonymous]"
  | .foreign kind => throw (.noValidator kind)

def verdict (d : Definition) (v : Value) : RegistryM Verdict := do
  liftExcept ((← validatorFor d).evaluate v)

/-- Whether a value matches a definition. -/
def isValid (d : Definition) (v : Value) : RegistryM Bool :=
  return (← verdict d v).ok

/-- Raises when a value does not match a definition. -/
def check (d : Definition) (v : Value) : RegistryM Unit := do
  liftExcept ((← validatorFor d).call v)

/-- Raises the refusal of a value at the checkpoint, the failure below a description. -/
def refuse (description name : String) (failure : Option Failure) : Except Fault Unit := do
  let child := match failure with
    | some f => .ok f
    | none => .error Value.null.kindName
  let children ← Failure.checkChildren [(.int 0, child)]
  throw (.incompatible (.described description (.reason ("incompatible with " ++ name)) children))

/-- Lets a value pass a validator. -/
def require (description name : String) (validator : Validator) (v : Value) :
    Except Fault Unit := do
  let verdict ← validator.evaluate v
  if !verdict.ok then refuse description name verdict.failure

/-- The value, or the default in place of null, once both have passed. A disabled
checkpoint checks nothing. -/
def passthrough (enabled : Bool) (v : Value) (d : Definition) (fallback : Value) :
    RegistryM Value := do
  if !enabled then return if v.isNull then fallback else v
  let validator ← validatorFor d
  let name ← liftExcept ((nameOf d).mapError Fault.misuse)
  if !fallback.isNull then liftExcept (require "Default value" name validator fallback)
  if v.isNull then return fallback
  liftExcept (require ("Cannot pass " ++ v.describe) name validator v)
  return v

end Check

end StructuralTypes

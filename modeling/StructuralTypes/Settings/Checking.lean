import StructuralTypes.Check
import StructuralTypes.Settings

/-! Checking under settings. Every operation works on a fresh registry in which each
alias waits to be defined when it is first needed, and answers with the warnings it
gave. A definition that is its own validator needs no registry. -/

namespace StructuralTypes.Settings

/-- A registry with the aliases of the settings. -/
def registry (s : Settings) : Except StructuralTypes.Fault Registry :=
  let postponeAll : RegistryM Unit :=
    s.aliases.forM fun p => Registry.postpone (.text p.1) (.define (.text p.2))
  let (r, registry) := postponeAll.run (.empty s.warns)
  r.map fun _ => registry

/-- The outcome of an operation on a fresh registry, with its warnings. -/
def run {α : Type} (s : Settings) (act : RegistryM α) :
    Except StructuralTypes.Fault α × List Warning :=
  match s.registry with
  | .error fault => (.error fault, [])
  | .ok registry =>
    let (r, registry) := act.run registry
    (r, registry.warnings)

def validatorFor (s : Settings) : Definition → Except StructuralTypes.Fault Validator × List Warning
  | .validator v | .entry { validator := v, .. } => (.ok v, [])
  | d => s.run (Check.validatorFor d)

/-- Raises when a value does not match a definition. -/
def check (s : Settings) (d : Definition) (v : Value) :
    Except StructuralTypes.Fault Unit × List Warning :=
  let (validator, warnings) := s.validatorFor d
  (validator.bind fun validator => validator.call v, warnings)

/-- Whether a value matches a definition. -/
def isValid (s : Settings) (d : Definition) (v : Value) :
    Except StructuralTypes.Fault Bool × List Warning :=
  let (validator, warnings) := s.validatorFor d
  (validator.bind fun validator => (validator.evaluate v).map Verdict.ok, warnings)

/-- The value, or the default in place of null, checked where the settings want it. -/
def passthrough (s : Settings) (v : Value) (d : Definition) (fallback : Value) :
    Except StructuralTypes.Fault Value × List Warning :=
  s.run (Check.passthrough s.enabled v d fallback)

end StructuralTypes.Settings

import StructuralTypes.CommandLine.Run

/-! What the exit code of a command promises: zero when everything it names can be read and,
for a check, the value is accepted; else one. Promised is also that there always is an exit
code. -/

namespace StructuralTypes

/-- The first alias, as they are listed, that cannot be registered: its name is empty or
unsafe. -/
def Settings.forbidden? (s : Settings) : Option String :=
  (s.aliases.find? fun p => p.1.isEmpty || p.1 == "any").map (·.1)

namespace CommandLine

/-! ### Documents -/

/-- The text of the value that an override gives. -/
def overrideText? (item : String) : Option String :=
  (Split.cut? '=' item.toList).map fun p => String.ofList p.2

def configText? (env : Surroundings) (config : Option String) : Option String :=
  (settingsFile? env config).bind fun name => (env.files (tidyName name)).toOption

def Command.valueText? (env : Surroundings) : Command → Option String
  | .parse .. => none
  | .check _ given _ => (documentText env.files given).toOption

/-- The texts that a command may come to read as documents. -/
def Invocation.documents (env : Surroundings) (i : Invocation) : List String :=
  i.overrides.filterMap overrideText? ++ (configText? env i.config).toList
    ++ (i.command.valueText? env).toList

/-! ### Success -/

/-- A command is a check of this value, under these settings. -/
structure Invocation.Checks (env : Surroundings) (i : Invocation) (settings : Settings)
    (source : String) (v : Value) : Prop where
  settings : readSettings env i.config i.overrides = .ok settings
  command : ∃ given json, i.command = .check source given json ∧ readValue env given = .ok v

/-- A command can read what it names, and the value it is to check is accepted. -/
def Invocation.Succeeds (env : Surroundings) (i : Invocation) : Prop :=
  match i.command with
  | .parse source _ =>
    (∃ settings, readSettings env i.config i.overrides = .ok settings)
      ∧ ∃ n, Node.parse? source = .ok n
  | .check .. =>
    ∃ settings source v w verdict, i.Checks env settings source v
      ∧ (settings.validatorFor (.text source)).1 = .ok w
      ∧ w.evaluate v = .ok verdict ∧ verdict.ok = true

/-- What is promised of the arguments that ask for a command. -/
def KeepsPromise (env : Surroundings) (args : List String) (i : Invocation) : Prop :=
  ∃ o, run env args = .ok o ∧ (o.exitCode = 0 ∨ o.exitCode = 1)
    ∧ (o.exitCode = 0 ↔ i.Succeeds env)

/-! ### Where the promise is broken -/

/-- A check under settings with an alias without a name, and no unsafe one before it. -/
def Invocation.HasEmptyAlias (env : Surroundings) (i : Invocation) : Prop :=
  ∃ settings source v, i.Checks env settings source v ∧ settings.forbidden? = some ""

/-- A check of a value that is accepted, but not before a number of too many digits had to be
written. -/
def Invocation.StopsAtNumber (env : Surroundings) (i : Invocation) : Prop :=
  ∃ settings source v w verdict, i.Checks env settings source v
    ∧ (settings.validatorFor (.text source)).1 = .ok w
    ∧ w.evaluate v = .ok verdict ∧ verdict.ok = true ∧ w.written v = .error (.overlong .written)

end CommandLine

end StructuralTypes

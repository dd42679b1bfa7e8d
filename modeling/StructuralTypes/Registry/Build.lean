import StructuralTypes.Node.Parser
import StructuralTypes.Registry
import StructuralTypes.Validator.Compile

/-! Registering, resolving and compiling. The three call each other: to resolve a
pending name is to run its recipe and register the outcome, to register an annotation
is to compile it, and to compile is to resolve its names. A name is absent while its
recipe runs. It is put back after an error, but not after a signal to leave the program. -/

namespace StructuralTypes.Registry

/-! ### Storing -/

/-- A validator as an object: the one of its keyword, or a new one. -/
def adopt (v : Validator) : RegistryM Entry := do
  let shared := match v with
    | .predicate p => Keyword.ofName? p.name
    | _ => none
  match shared with
  | some k => return { identity := .keyword k, validator := v }
  | none =>
    let r ← get
    set { r with made := r.made + 1 }
    return { identity := .made r.made, validator := v }

/-- The name of a type given as a value. -/
def checkName (v : Value) : Except Fault String :=
  match v.plainKey with
  | .text name =>
    if name.isEmpty then throw (.misuse .nameNotText)
    else if name = "any" then throw (.ofCause (.forbiddenName name))
    else return name
  | _ => throw (.misuse .nameNotText)

def record (e : Event) : RegistryM Unit :=
  modify fun r => { r with journal := r.journal ++ [e] }

/-- Stores a validator under a name, which is no longer pending. -/
def store (name : String) (e : Entry) : RegistryM Unit := do
  modify fun r =>
    { r with built := Table.insert name e r.built, pending := Table.erase name r.pending }
  record (.registered name)

/-- Makes a name pending and forgets the validator it had. -/
def postpone (name : Value) (recipe : Recipe) : RegistryM Unit := do
  let name ← liftExcept (checkName name)
  modify fun r =>
    { r with built := Table.erase name r.built, pending := Table.insert name recipe r.pending }
  record (.postponed name)

/-! ### Building, given how names are resolved -/

/-- Reads an annotation and passes its warnings on where they are wanted. -/
def read (source : String) : RegistryM Node := do
  let (result, warnings) := (Node.parse source).run []
  if (← get).warns then
    warnings.forM fun w => record (.warned w)
  liftExcept result

/-- The validator of a type; a lone name is the object it resolves to. -/
def compileNode (resolve : String → RegistryM Entry) : Node → RegistryM Entry
  | .leaf name => resolve name
  | node => do adopt (← node.compile fun name => return (← resolve name).validator)

/-- The validator of an annotation, stored by its text. -/
def compileWith (resolve : String → RegistryM Entry) (source : String) : RegistryM Entry := do
  match Table.lookup? source (← get).compiled with
  | some e => return e
  | none =>
    let e ← compileNode resolve (← read source)
    modify fun r => { r with compiled := Table.insert source e r.compiled }
    return e

/-- The validator of a definition under a name. -/
def buildWith (resolve : String → RegistryM Entry) (name : String) : Definition → RegistryM Entry
  | .validator v => adopt v
  | .entry e => return e
  | .text source => compileWith resolve source
  | .function f =>
    if f.unary then adopt (.callable name f.respond) else throw (.ofCause (.wrongArity name))
  | .node n => throw (.misuse (.typeOfWrongKind name n.variant))
  | .foreign kind => throw (.misuse (.typeOfWrongKind name kind))

def registerWith (resolve : String → RegistryM Entry) (name : Value) (d : Definition) :
    RegistryM Entry := do
  let name ← liftExcept (checkName name)
  let e ← buildWith resolve name d
  store name e
  return e

/-- The outcome of an operation as a result. -/
def attempt {α : Type} (x : RegistryM α) : RegistryM (Except Fault α) :=
  ExceptT.lift x.run

def takeNote (memory : Value) : RegistryM Unit :=
  modify fun r => { r with host := { r.host with memory } }

/-- Runs a recipe up to its definition. -/
def runRecipe (resolve : String → RegistryM Entry) : Recipe → RegistryM Definition
  | .define d => return d
  | .raise f => throw f
  | .register name d next => do
    let outcome ← attempt (registerWith resolve name d)
    runRecipe resolve (next outcome)
  | .postpone name recipe next => do
    let outcome ← attempt (postpone name recipe)
    runRecipe resolve (next outcome)
  | .postponeNumbered name number next => do
    let recipe := (← get).host.recipes number
    let outcome ← attempt (postpone name recipe)
    runRecipe resolve (next outcome)
  | .resolve name next => do
    let outcome ← attempt (resolve name)
    runRecipe resolve (next outcome)
  | .compile source next => do
    let outcome ← attempt (compileWith resolve source)
    runRecipe resolve (next outcome)
  | .look next => do
    let sight := (← get).sight
    runRecipe resolve (next sight)
  | .keep memory next => do
    takeNote memory
    runRecipe resolve next

/-! ### Resolving -/

/-- The type that a name stands for without registration. -/
def resolveBuiltin (name : String) : RegistryM Entry :=
  match Predicate.ofName name with
  | .ok (some p) => adopt (.predicate p)
  | .ok none => throw (.ofCause (.typeNotFound name))
  | .error e => throw (.overlong e)

/-- Puts a pending name back, unless it is pending again. -/
def restore (name : String) (recipe : Recipe) : RegistryM Unit :=
  modify fun r =>
    if Table.has name r.pending then r
    else { r with pending := Table.insert name recipe r.pending }

/-- Ends the build of a name that has come to a fault. -/
def endBuild (name : String) (recipe : Recipe) (fault : Fault) : RegistryM Unit := do
  if fault.isSignal then record (.ended name .abandoned)
  else
    restore name recipe
    record (.ended name .failed)

/-- The validator that a recipe gives its name. -/
def buildName (resolve : String → RegistryM Entry) (name : String) (recipe : Recipe) :
    RegistryM Entry := do
  let d ← runRecipe resolve recipe
  registerWith resolve (.text name) d

/-- Builds a pending name, which is absent until it is built or the build has failed. -/
def settlePending (resolve : String → RegistryM Entry) (name : String) (recipe : Recipe) :
    RegistryM Entry := do
  modify fun r => { r with pending := Table.erase name r.pending }
  record (.started name)
  try
    let e ← buildName resolve name recipe
    record (.ended name .built)
    pure e
  catch fault =>
    endBuild name recipe fault
    throw fault

/-- The validator of a name, given how it is built if it is pending. -/
def lookUp (build : Recipe → RegistryM Entry) (name : String) : RegistryM Entry := do
  let r ← get
  match Table.lookup? name r.built, Table.lookup? name r.pending with
  | some e, _ => return e
  | none, some recipe => build recipe
  | none, none => resolveBuiltin name

/-- The validator of a name, with builds nested up to a depth. -/
def resolveWithin : Nat → String → RegistryM Entry
  | 0, name => lookUp (fun _ => throw (.raised .tooDeep)) name
  | depth + 1, name => lookUp (settlePending (resolveWithin depth) name) name

/-! ### Operations -/

/-- The validator of a name: a registered one, else a keyword or a literal. -/
def resolve (name : String) : RegistryM Entry := do
  resolveWithin (← get).levels name

/-- The validator of an annotation. -/
def compile (source : String) : RegistryM Entry := do
  compileWith (resolveWithin (← get).levels) source

/-- Defines a name at once. -/
def register (name : Value) (d : Definition) : RegistryM Entry := do
  registerWith (resolveWithin (← get).levels) name d

/-- A registry with names defined one after another. -/
def ofDefinitions (warns : Bool) (definitions : List (Value × Definition)) (host : Host := {}) :
    Except Fault Unit × Registry :=
  (definitions.forM fun p => do let _ ← register p.1 p.2 : RegistryM Unit).run (empty warns host)

end StructuralTypes.Registry

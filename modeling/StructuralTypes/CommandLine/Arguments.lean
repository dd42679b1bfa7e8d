import StructuralTypes.CommandLine
import StructuralTypes.Text.NumberText

/-! Reading arguments. An option begins with hyphens, may be cut short as long as only
one option begins like it, and takes its operand from behind an equals sign or from the
next argument. Negative numbers, texts with a space and everything after `--` are
operands. Settings options stand before the command, those of a command behind it. -/

namespace StructuralTypes.CommandLine

/-! ### One argument -/

inductive Flag where
  | help
  | config
  | set
  | json
  | value
  | file
deriving DecidableEq

def Flag.takesOperand : Flag → Bool
  | help | json => false
  | config | set | value | file => true

def globalFlags : Table Flag :=
  [("-h", .help), ("--help", .help), ("--config", .config), ("--set", .set)]

def parseFlags : Table Flag :=
  [("-h", .help), ("--help", .help), ("--json", .json)]

def checkFlags : Table Flag :=
  [("-h", .help), ("--help", .help), ("--value", .value), ("--file", .file), ("--json", .json)]

/-- How an argument is taken. -/
inductive Argument where
  | operand
  | option (f : Flag) (attached : Option String)
  | unknown
deriving DecidableEq

/-- A hyphen before a whole number or a decimal with digits behind its point. -/
def isNegativeNumber (s : List Char) : Bool :=
  match s with
  | '-' :: magnitude =>
    (NumberText.wholeDigits? magnitude).isSome || (NumberText.decimal? magnitude).isSome
      || (match magnitude with
        | '.' :: digits => (NumberText.wholeDigits? digits).isSome
        | _ => false)
  | _ => false

/-- An argument cut at its first equals sign. -/
def splitAttached (arg : String) : String × Option String :=
  match Split.cut? '=' arg.toList with
  | some (name, operand) => (String.ofList name, some (String.ofList operand))
  | none => (arg, none)

/-- The options that an argument can stand for when it is cut short. Behind one hyphen
the first letter counts, and the rest is taken as attached. -/
def candidates (flags : Table Flag) (arg : String) : List (Flag × Option String) :=
  match arg.toList with
  | '-' :: '-' :: _ =>
    let (name, attached) := splitAttached arg
    (flags.filter fun p => name.isPrefixOf p.1).map fun p => (p.2, attached)
  | '-' :: letter :: rest =>
    (flags.filter fun p => p.1 == String.ofList ['-', letter]).map fun p =>
      (p.2, some (String.ofList rest))
  | _ => []

/-- How an argument is taken among some options. -/
def classify (flags : Table Flag) (arg : String) : Argument :=
  if !"-".isPrefixOf arg then .operand else
  match Table.lookup? arg flags with
  | some f => .option f none
  | none =>
    if arg == "-" then .operand else
    let (name, attached) := splitAttached arg
    match Table.lookup? name flags, attached with
    | some f, some operand => .option f (some operand)
    | _, _ =>
      match candidates flags arg with
      | [(f, attached)] => .option f attached
      | _ :: _ :: _ => .unknown
      | [] => if isNegativeNumber arg.toList || arg.contains ' ' then .operand else .unknown

/-! ### All arguments -/

/-- What comes of reading arguments. -/
inductive Request where
  | run (i : Invocation)
  | help
  | misused
deriving DecidableEq

/-- Why reading stops. -/
inductive Halt where
  | helpWanted
  | misused
deriving DecidableEq

/-- What the arguments of a command have given so far. -/
structure Options where
  source : Option String
  given : Option Source
  json : Bool
deriving DecidableEq

/-- Takes an option of a command. Only one source of the value can be given, though it
can be given again. -/
def Options.take (o : Options) (f : Flag) (operand : String) : Except Halt Options :=
  match f, o.given with
  | .json, _ => return { o with json := true }
  | .value, some (.file _) | .file, some (.text _) => throw .misused
  | .value, _ => return { o with given := some (.text operand) }
  | .file, _ => return { o with given := some (.file operand) }
  | _, _ => throw .misused

/-- Takes the arguments behind `--`, which are operands. Right behind the annotation
nothing may follow. -/
def Options.close (o : Options) (adjacent : Bool) (rest : List String) : Except Halt Options :=
  match o.source, rest with
  | none, [source] => return { o with source := some source }
  | some _, [] => if adjacent then return o else throw .misused
  | _, _ => throw .misused

/-- Reads the arguments of a command. `adjacent` says that the annotation was the last
one read. -/
def readOptions (flags : Table Flag) (o : Options) (adjacent : Bool) :
    List String → Except Halt Options
  | [] => return o
  | arg :: rest =>
    if arg == "--" then o.close adjacent rest else
    match classify flags arg with
    | .unknown => throw .misused
    | .operand =>
      if o.source.isSome then throw .misused
      else readOptions flags { o with source := some arg } true rest
    | .option .help none => throw .helpWanted
    | .option f attached =>
      match f.takesOperand, attached, rest with
      | false, none, rest => do readOptions flags (← o.take f "") false rest
      | true, some operand, rest => do readOptions flags (← o.take f operand) false rest
      | true, none, operand :: rest =>
        if operand != "--" && classify flags operand == .operand then do
          readOptions flags (← o.take f operand) false rest
        else throw .misused
      | _, _, _ => throw .misused

/-- Reads a command and its arguments. -/
def readCommand (name : String) (args : List String) : Except Halt Command := do
  let none : Options := { source := none, given := none, json := false }
  match name with
  | "parse" =>
    match ← readOptions parseFlags none false args with
    | { source := some source, json, .. } => return .parse source json
    | _ => throw .misused
  | "check" =>
    match ← readOptions checkFlags none false args with
    | { source := some source, given := some given, json } => return .check source given json
    | _ => throw .misused
  | _ => throw .misused

/-- Reads all arguments; options given twice count by their last operand, overrides add
up. -/
def readInvocation (config : Option String) (overrides : List String) :
    List String → Except Halt Invocation
  | [] => throw .misused
  | arg :: rest =>
    if arg == "--" then throw .misused else
    match classify globalFlags arg with
    | .unknown => throw .misused
    | .operand => return { config, overrides, command := ← readCommand arg rest }
    | .option .help none => throw .helpWanted
    | .option f attached =>
      match attached, rest with
      | some operand, rest =>
        match f with
        | .config => readInvocation (some operand) overrides rest
        | .set => readInvocation config (overrides ++ [operand]) rest
        | _ => throw .misused
      | none, operand :: rest =>
        if operand != "--" && classify globalFlags operand == .operand then
          match f with
          | .config => readInvocation (some operand) overrides rest
          | .set => readInvocation config (overrides ++ [operand]) rest
          | _ => throw .misused
        else throw .misused
      | none, [] => throw .misused

/-- What arguments ask for. -/
def Request.ofArguments (args : List String) : Request :=
  match readInvocation none [] args with
  | .ok i => .run i
  | .error .helpWanted => .help
  | .error .misused => .misused

end StructuralTypes.CommandLine

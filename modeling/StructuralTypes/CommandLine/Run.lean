import StructuralTypes.CommandLine.Arguments
import StructuralTypes.Failure.Report
import StructuralTypes.Json.Printer
import StructuralTypes.Node.Encoding
import StructuralTypes.Settings.Checking
import StructuralTypes.Settings.Document
import StructuralTypes.Validator.Guarded

/-! Running commands. Overrides are read first, then the settings, then what the
command names. What a user can mend is reported with exit code 1; any other fault ends
the run and is passed on. The exit code of a check is its verdict. -/

namespace StructuralTypes.CommandLine

/-- What is reported to the user. -/
inductive Complaint where
  | override (f : Override.Fault)
  | settings (f : Settings.Fault)
  | document (f : Document.Fault)
  | file (name : String) (f : FileFault)
  | type (f : TypeFault)
  | number (e : Overlong)

def FileFault.message (name : String) : FileFault → String
  | missing => "[Errno 2] No such file or directory: " ++ Quoted.render name
  | directory => "[Errno 21] Is a directory: " ++ Quoted.render name
  | unreadable reason => reason

def Complaint.message : Complaint → String
  | override f => f.message
  | settings f => f.message
  | document f => f.message
  | file name f => f.message name
  | type f => f.message
  | number e => e.message

/-- What ends a command early: a complaint, or a fault that is passed on. -/
inductive Stop where
  | complaint (c : Complaint)
  | fault (f : Fault)

def Stop.ofFault : Fault → Stop
  | .type f => complaint (.type f)
  | .overlong e => complaint (.number e)
  | f => fault f

/-- A fault in a document is complained of; what the loader raises is passed on. -/
def Stop.ofDocument (complain : Document.Fault → Complaint) : Document.Fault → Stop
  | .raised r => fault (.raised r)
  | f => complaint (complain f)

def Stop.ofOverride : Override.Fault → Stop
  | .document f => ofDocument (fun f => .override (.document f)) f
  | f => complaint (.override f)

def Stop.ofSettings : Settings.Fault → Stop
  | .document f => ofDocument (fun f => .settings (.document f)) f
  | f => complaint (.settings f)

/-- What a command prints, and whether it ends well. -/
structure Printed where
  good : Bool
  lines : List String

/-! ### Files -/

/-- A name without empty and idle parts. -/
def tidyName (name : String) : String :=
  let parts := (Split.fields '/' name.toList).filter fun p => !p.isEmpty && p != ['.']
  let tidy := String.ofList (List.intercalate ['/'] parts)
  if "/".isPrefixOf name then "/" ++ tidy else if parts.isEmpty then "." else tidy

/-- The text of a document to check. -/
def documentText (files : Files) : Source → Except Stop String
  | .text document => return document
  | .file name =>
    (files (tidyName name)).mapError fun f => .complaint (.file (tidyName name) f)

/-- The value to check. -/
def readValue (env : Surroundings) (given : Source) : Except Stop Value := do
  let text ← documentText env.files given
  (env.load text).mapError (Stop.ofDocument .document)

/-- The settings file to read, if there is one. -/
def settingsFile? (env : Surroundings) (config : Option String) : Option String :=
  config.orElse fun _ => env.standard

/-- The entries of the settings file. -/
def configEntries (env : Surroundings) (config : Option String) :
    Except Stop (List (Value × Value)) :=
  match settingsFile? env config with
  | none => return []
  | some name =>
    match env.files (tidyName name) with
    | .ok text => (Settings.readEntries env.load text).mapError Stop.ofSettings
    | .error .missing => throw (.complaint (.settings (.fileNotFound (tidyName name))))
    | .error f => throw (.complaint (.file (tidyName name) f))

/-- The settings that a command runs under. -/
def readSettings (env : Surroundings) (config : Option String) (overrides : List String) :
    Except Stop Settings := do
  let entries ← (Override.entries env.load overrides).mapError Stop.ofOverride
  let base ← configEntries env config
  ((Settings.ofEntries base).bind fun s => s.merge entries).mapError Stop.ofSettings

/-! ### Commands -/

/-- A line of output. -/
def tagged (text : String) : String :=
  "[ducktypes] " ++ text

/-- Prints a tree. -/
def printNode (json : Bool) (n : Node) : Except Stop Printed :=
  if json then return { good := true, lines := [n.toJson true] }
  else match n.format with
    | .ok text => return { good := true, lines := [tagged text] }
    | .error m => throw (.fault (.misuse m))

/-- Prints the outcome of a check. -/
def printVerdict (source : String) (json : Bool) (verdict : Verdict) : Except Stop Printed := do
  if json then
    let report ← (Report.build (some source) verdict.failure).mapError
      fun f => Stop.complaint (.type f)
    return { good := verdict.ok, lines := [report.toJson.render (Json.indented true)] }
  else match verdict.failure with
    | none =>
      return { good := verdict.ok, lines := [tagged ("value is compatible with " ++ source)] }
    | some f =>
      let messages ← f.messageList.mapError fun f => Stop.complaint (.type f)
      return { good := verdict.ok, lines := messages.map tagged }

/-- Checks a value and prints the outcome, with the warnings given meanwhile. -/
def checkValue (settings : Settings) (source : String) (json : Bool) (v : Value) :
    Except Stop Printed × List Warning :=
  let (validator, warnings) := settings.validatorFor (.text source)
  let printed := do
    let validator ← validator.mapError Stop.ofFault
    let verdict ← (validator.written v).mapError Stop.ofFault
    printVerdict source json verdict
  (printed, warnings)

/-- Runs a command under settings. -/
def perform (env : Surroundings) (settings : Settings) : Command → Except Stop Printed × List Warning
  | .parse source json =>
    let (node, warnings) := (Node.parse source).run []
    let printed := do printNode json (← node.mapError Stop.ofFault)
    (printed, if settings.warns then warnings else [])
  | .check source given json =>
    match readValue env given with
    | .error stop => (.error stop, [])
    | .ok v => checkValue settings source json v

/-- Reads the settings and runs the command. -/
def Invocation.perform (env : Surroundings) (i : Invocation) :
    Except Stop Printed × List Warning :=
  match readSettings env i.config i.overrides with
  | .error stop => (.error stop, [])
  | .ok settings => CommandLine.perform env settings i.command

/-! ### Outcomes -/

def lineEnds (lines : List String) : String :=
  String.join (lines.map (· ++ "\n"))

/-- Where arguments make no sense, the caller writes how they are used in place of
this text. -/
def usage : String := "<usage>"

/-- The outcome of a command that ran. -/
def Outcome.ofResult (log : List Logging.Record) : Except Stop Printed → Except Fault Outcome
  | .ok p =>
    let exitCode := if p.good then 0 else 1
    return { exitCode, output := lineEnds p.lines, diagnostics := "", log }
  | .error (.complaint c) =>
    let diagnostics := lineEnds [tagged ("error: " ++ c.message)]
    return { exitCode := 1, output := "", diagnostics, log }
  | .error (.fault f) => throw f

/-- Runs what the arguments ask for. -/
def run (env : Surroundings) (args : List String) : Except Fault Outcome :=
  match Request.ofArguments args with
  | .misused => return { exitCode := 2, output := "", diagnostics := usage, log := [] }
  | .help => return { exitCode := 0, output := usage, diagnostics := "", log := [] }
  | .run i =>
    let (result, warnings) := i.perform env
    Outcome.ofResult (warnings.map .ofWarning) result

end StructuralTypes.CommandLine

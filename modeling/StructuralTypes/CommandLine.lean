import StructuralTypes.Logging
import StructuralTypes.Settings.Overrides

/-! What can be asked for on the command line, what comes of it, and what can be found
in the files that are named there. -/

namespace StructuralTypes.CommandLine

/-- Where the value to check is given. -/
inductive Source where
  | text (document : String)
  | file (name : String)
deriving DecidableEq

inductive Command where
  /-- Prints an annotation in its canonical form. -/
  | parse (source : String) (json : Bool)
  /-- Checks a value against an annotation. -/
  | check (source : String) (given : Source) (json : Bool)
deriving DecidableEq

/-- A command with the settings it runs under. -/
structure Invocation where
  config : Option String
  overrides : List String
  command : Command
deriving DecidableEq

/-- Why a file has no text. -/
inductive FileFault where
  | missing
  | directory
  | unreadable (reason : String)
deriving DecidableEq

/-- The texts of files by name. -/
abbrev Files := String → Except FileFault String

/-- Named texts in the current directory. -/
def filesOfTexts (texts : List (String × String)) : Files := fun name =>
  match texts.find? (·.1 == name) with
  | some p => return p.2
  | none => throw (if name == "." then .directory else .missing)

/-- What a command finds around it. -/
structure Surroundings where
  files : Files
  /-- The settings file that is read where none is named. -/
  standard : Option String
  /-- How documents are read. -/
  load : Document.Loader

/-- What a command leaves behind. -/
structure Outcome where
  exitCode : Nat
  output : String
  diagnostics : String
  log : List Logging.Record
deriving DecidableEq

end StructuralTypes.CommandLine

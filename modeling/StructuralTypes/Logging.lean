import StructuralTypes.Document
import StructuralTypes.Level

/-! Log records and the configuration of logging, whose known sections replace the
standard ones. -/

namespace StructuralTypes.Logging

/-- One record of a log. -/
structure Record where
  level : String
  logger : String
  message : String
deriving DecidableEq

/-- The logger of the reader of annotations. -/
def readerLogger : String := "ducktypes.normalizer"

def Record.ofWarning (w : Warning) : Record :=
  { level := "WARNING", logger := readerLogger, message := w.message }

/-! ### Configuration -/

def group (members : List (String × Value)) : Value :=
  .mapping (members.map fun p => (.text p.1, p.2))

/-- One handler that writes warnings to the console. -/
def standard : List (String × Value) :=
  [("version", .int 1),
   ("disable_existing_loggers", .bool false),
   ("formatters", group [("standard", group
      [("format", .text "%(asctime)s | %(levelname)-8s | %(name)s | %(message)s")])]),
   ("handlers", group [("console", group
      [("class", .text "logging.StreamHandler"), ("stream", .text "ext://sys.stderr"),
       ("formatter", .text "standard")])]),
   ("loggers", group [("ducktypes", group
      [("level", .text "WARNING"), ("handlers", .list [.text "console"]),
       ("propagate", .bool false)])])]

def sections : List String :=
  ["version", "disable_existing_loggers", "formatters", "handlers", "root", "loggers"]

/-- The known sections among some entries. -/
def known (entries : List (Value × Value)) : List (String × Value) :=
  entries.filterMap fun p =>
    match p.1 with
    | .text name => if sections.contains name then some (name, p.2) else none
    | _ => none

/-- The configuration that a text gives; a text that holds no mapping gives the
standard one. -/
def config (load : Document.Loader) : Option String → Except Document.Fault (Table Value)
  | none => return standard
  | some text =>
    match load text with
    | .ok (.mapping entries) =>
      return (known entries).foldl (fun t p => Table.insert p.1 p.2 t) standard
    | .ok _ | .error (.malformed _) => return standard
    | .error f => throw f

/-- Why a logger cannot be had. -/
def nameFault : String := "logger name must be a non-empty string"

/-- The logger of a name. -/
def loggerOf? : Value → Option String
  | .text name => if name.isEmpty then none else some name
  | _ => none

end StructuralTypes.Logging

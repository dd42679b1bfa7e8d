import StructuralTypes.Failure.Messages
import StructuralTypes.Json
import StructuralTypes.Table

/-! Reports: the outcome of a check as plain data, with the flattened messages and the
failure tree keyed by text. Keys with the same label meet in one entry. -/

namespace StructuralTypes

/-- A failure as plain data. -/
inductive Summary where
  | mk (given unexpected message : String) (kind : Option FailureKind)
      (children : List (String × Summary))

/-- The outcome of a check: nothing is said of a value that passed. -/
structure Report where
  source : Option String
  messages : List String
  failure : Option Summary

namespace Summary

mutual

/-- The plain data of a failure. -/
def ofFailure : Failure → Summary
  | .mk given unexpected reason children =>
    mk given unexpected.text (given ++ " is " ++ reason) unexpected.kind?
      (Table.ofPairs (ofChildren children))

def ofChildren : List (Value × Failure) → List (String × Summary)
  | [] => []
  | (key, child) :: rest => (key.label, ofFailure child) :: ofChildren rest

end

mutual

def toJson : Summary → Json
  | mk given unexpected message kind children =>
    .object ([("given", .string given), ("unexpected", .string unexpected),
        ("message", .string message)]
      ++ (kind.map fun k => ("kind", Json.string k.identifier)).toList
      ++ (if children.isEmpty then [] else [("children", .object (toMembers children))]))

def toMembers : List (String × Summary) → List (String × Json)
  | [] => []
  | (key, summary) :: rest => (key, summary.toJson) :: toMembers rest

end

end Summary

namespace Report

/-- The report on an outcome, with the text of the type where it is wanted. -/
def build (source : Option String) : Option Failure → Except TypeFault Report
  | none => return { source, messages := [], failure := none }
  | some f => return { source, messages := ← f.messageList, failure := some (.ofFailure f) }

def status (r : Report) : String :=
  if r.failure.isSome then "incompatible" else "ok"

/-- The members of a report, given how its failure is written. -/
def members (r : Report) : List (String × Json) :=
  ("status", .string r.status)
    :: (r.source.map fun s => ("annotation", Json.string s)).toList
    ++ match r.failure with
      | none => []
      | some summary =>
        [("message_count", .int r.messages.length), ("messages", .ofStrings r.messages),
         ("error", summary.toJson)]

def toJson (r : Report) : Json :=
  .object r.members

end Report

end StructuralTypes

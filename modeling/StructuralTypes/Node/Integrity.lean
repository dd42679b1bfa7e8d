import StructuralTypes.Node.Encoding

/-! Stored types that may have been altered. A text is a form of a type if its value is what
the type is written as, but for the order of members. Reading refuses a text for what it
says, which is not the same as stopping at a member that is absent or of a kind that cannot
be read. -/

namespace StructuralTypes

namespace Json

/-- The value that a text holds. Halves of surrogate pairs that stand alone are no part of
it: they have been replaced, or identifiers leave them out. -/
def ofText? (text : String) : Option Json :=
  match parse? text with
  | some j => some j
  | none => do
    let j ← (parse (some (Char.ofNat 0x10FFFE)) text).toOption
    let k ← (parse (some (Char.ofNat 0x10FFFD)) text).toOption
    if j.canonicalText = k.canonicalText then some j else none

/-- The identifier that an object holds. -/
def storedIdentifier? : Json → Option Json
  | object members => Table.lookup? identifierName members
  | _ => none

/-- Two values are the same, the order of members aside. -/
def SameButOrder (d e : Json) : Prop :=
  d.sortMembers = e.sortMembers

/-- What identifiers are taken from: a value without any identifiers, members in order. -/
def content (j : Json) : Json :=
  sortMembers (erase identifierName j)

end Json

namespace Node

/-- A text holds what a type is written as, the order of members aside. -/
def IsForm (n : Node) (text : String) : Prop :=
  ∃ d, Json.ofText? text = some d ∧ d.SameButOrder (encode n)

/-- Whether an error refuses a text for what it says. -/
def DecodeError.isRefusal : DecodeError → Bool
  | memberMissing _ | wrongKind => false
  | _ => true

end Node

end StructuralTypes

import StructuralTypes.Digest.Sha256
import StructuralTypes.Json.Parser
import StructuralTypes.Json.Printer
import StructuralTypes.Json.Value
import StructuralTypes.Node
import StructuralTypes.Value.Display

/-! Types as JSON. Each node, property and indexer carries an identifier derived from
its content without any identifiers; reading checks every one of them before it looks
at the content. -/

namespace StructuralTypes

/-! ### Identifiers -/

namespace Json

/-- The member that holds an identifier. -/
def identifierName : String := "id"

/-- The text that an identifier is the digest of: members sorted, one line, no
identifiers at any depth. -/
def canonicalText (j : Json) : String :=
  (sortMembers (erase identifierName j)).render (compact false)

/-- The first sixteen digits of the digest of the canonical text. -/
def identifier (j : Json) : String :=
  String.ofList ((Sha256.hexDigest (canonicalText j).toUTF8.data.toList).toList.take 16)

/-- An object with its identifier as the last member. -/
def identified (members : List (String × Json)) : Json :=
  .object (members ++ [(identifierName, .string (identifier (.object members)))])

end Json

namespace Node

/-! ### Writing -/

mutual

/-- The JSON form of a type. -/
def encode : Node → Json
  | leaf name => .identified [("type", .string "Leaf"), ("name", .string name)]
  | union members =>
    .identified [("type", .string "Union"), ("members", .array (encodeAll members))]
  | intersection members =>
    .identified [("type", .string "Intersection"), ("members", .array (encodeAll members))]
  | array element => .identified [("type", .string "Array"), ("element", encode element)]
  | tuple elements =>
    .identified [("type", .string "Tuple"), ("elements", .array (encodeAll elements))]
  | shape exact properties indexer =>
    .identified [("type", .string "Shape"), ("exact", .bool exact),
      ("properties", .array (encodeProperties properties)), ("indexer", encodeIndexer indexer)]
  | stray .blank => .identified [("type", .string "Node")]
  | stray (.value v) => v.toJson

def encodeAll : List Node → List Json
  | [] => []
  | node :: rest => encode node :: encodeAll rest

def encodeProperty : Property → Json
  | .mk key value optional =>
    .identified [("key", .string key), ("value", encode value), ("optional", .bool optional)]

def encodeProperties : List Property → List Json
  | [] => []
  | property :: rest => encodeProperty property :: encodeProperties rest

def encodeIndexer : Option Indexer → Json
  | none => .null
  | some (.mk key value) => .identified [("key", encode key), ("value", encode value)]

end

/-- The JSON text of a type. -/
def toJson (asciiOnly : Bool) (node : Node) : String :=
  (encode node).render (Json.indented asciiOnly)

/-! ### Reading -/

/-- Why a JSON text is not the form of a type. -/
inductive DecodeError where
  | notJson
  | tooManyDigits (count : Nat)
  /-- A surrogate that stands alone, where the content has to be digested. -/
  | unencodable
  | rootNotObject
  | entryNotObject
  | identifierMissing
  | identifierMismatch
  | unknownType (label : String)
  | memberMissing (name : String)
  /-- A value of a kind that cannot be read there at all. -/
  | wrongKind
deriving DecidableEq

def DecodeError.message : DecodeError → String
  | notJson => "not a JSON text"
  | tooManyDigits count => (Overlong.read count).message
  | unencodable => "surrogate without its pair"
  | rootNotObject => "Serialized annotation must be a JSON object"
  | entryNotObject => "Serialized entry must be a JSON object"
  | identifierMissing => "Serialized node is missing 'id'"
  | identifierMismatch => "Serialized node failed integrity check"
  | unknownType label => "Unknown node type '" ++ label ++ "'"
  | memberMissing name => "member missing: " ++ name
  | wrongKind => "value of the wrong kind"

/-- Checks the identifier of an object against its content. -/
def verify (members : List (String × Json)) : Except DecodeError Unit :=
  match Table.lookup? Json.identifierName members with
  | none | some .null => throw .identifierMissing
  | some (.string stored) =>
    if stored = Json.identifier (.object members) then return () else throw .identifierMismatch
  | some _ => throw .identifierMismatch

/-- The member of a name. -/
def need (name : String) (members : List (String × Json)) : Except DecodeError Json :=
  match Table.lookup? name members with
  | some j => return j
  | none => throw (.memberMissing name)

def needText (name : String) (members : List (String × Json)) : Except DecodeError String :=
  return (← need name members).toValue.label

/-- The result of reading a member that may be missing. -/
def orMissing {α : Type} (name : String) (r : Option (Except DecodeError α)) :
    Except DecodeError α :=
  r.getD (throw (.memberMissing name))

/-- Reading something without items: nothing where it is empty, a fault where its parts
would be no objects. -/
def readHollow {α : Type} : Json → Except DecodeError (List α)
  | .string s => if s.isEmpty then return [] else throw .entryNotObject
  | .object members => if members.isEmpty then return [] else throw .entryNotObject
  | _ => throw .wrongKind

mutual

/-- The type of a JSON form. -/
def decode : Json → Except DecodeError Node
  | .object members => do
    verify members
    match Table.lookup? "type" members with
    | some (.array _) | some (.object _) => throw .wrongKind
    | some (.string "Leaf") => return .leaf (← needText "name" members)
    | some (.string "Array") => return .array (← orMissing "element" (decodeAt "element" members))
    | some (.string "Union") =>
      return .union (← orMissing "members" (decodeItemsAt "members" members))
    | some (.string "Intersection") =>
      return .intersection (← orMissing "members" (decodeItemsAt "members" members))
    | some (.string "Tuple") =>
      return .tuple (← orMissing "elements" (decodeItemsAt "elements" members))
    | some (.string "Shape") =>
      let exact ← need "exact" members
      let properties ← (decodePropertiesAt "properties" members).getD (return [])
      let indexer ← (decodeIndexerAt "indexer" members).getD (return none)
      return .shape exact.toValue.truthy properties indexer
    | other => throw (.unknownType ((other.map Json.toValue).getD .null).label)
  | _ => throw .entryNotObject

def decodeAt (name : String) : List (String × Json) → Option (Except DecodeError Node)
  | [] => none
  | (n, j) :: rest => if n = name then some (decode j) else decodeAt name rest

def decodeItemsAt (name : String) :
    List (String × Json) → Option (Except DecodeError (List Node))
  | [] => none
  | (n, j) :: rest => if n = name then some (decodeItems j) else decodeItemsAt name rest

def decodeItems : Json → Except DecodeError (List Node)
  | .array items => decodeAll items
  | j => readHollow j

def decodeAll : List Json → Except DecodeError (List Node)
  | [] => return []
  | j :: rest => do
    let node ← decode j
    return node :: (← decodeAll rest)

def decodePropertiesAt (name : String) :
    List (String × Json) → Option (Except DecodeError (List Property))
  | [] => none
  | (n, j) :: rest => if n = name then some (decodeProperties j) else decodePropertiesAt name rest

def decodeProperties : Json → Except DecodeError (List Property)
  | .array items => decodeEachProperty items
  | j => readHollow j

def decodeEachProperty : List Json → Except DecodeError (List Property)
  | [] => return []
  | j :: rest => do
    let property ← decodeProperty j
    return property :: (← decodeEachProperty rest)

def decodeProperty : Json → Except DecodeError Property
  | .object members => do
    verify members
    let key ← needText "key" members
    let value ← orMissing "value" (decodeAt "value" members)
    let optional := (Table.lookup? "optional" members).map fun j => j.toValue.truthy
    return .mk key value (optional.getD false)
  | _ => throw .entryNotObject

def decodeIndexerAt (name : String) :
    List (String × Json) → Option (Except DecodeError (Option Indexer))
  | [] => none
  | (n, j) :: rest => if n = name then some (decodeIndexer j) else decodeIndexerAt name rest

def decodeIndexer : Json → Except DecodeError (Option Indexer)
  | .null => return none
  | .object members => do
    verify members
    let key ← orMissing "key" (decodeAt "key" members)
    let value ← orMissing "value" (decodeAt "value" members)
    return some (.mk key value)
  | _ => throw .entryNotObject

end

/-- The reading of a text in which halves of surrogate pairs stand alone. They matter
where the content of the root is digested, that is where two characters standing in for
them give two canonical texts; a half inside an identifier matches no digest. -/
def ofHalvedJson (text : String) : Except DecodeError Node := do
  let read (standIn : Char) : Except DecodeError Json :=
    (Json.parse (some standIn) text).mapError fun
      | .malformed => .notJson
      | .tooManyDigits count => .tooManyDigits count
  let j ← read (Char.ofNat 0x10FFFE)
  let k ← read (Char.ofNat 0x10FFFD)
  match j with
  | .object members =>
    if j.canonicalText = k.canonicalText then decode (.object members)
    else
      match Table.lookup? Json.identifierName members with
      | none | some .null => throw .identifierMissing
      | some _ => throw .unencodable
  | _ => throw .rootNotObject

/-- The type that a JSON text holds. -/
def ofJson (text : String) : Except DecodeError Node :=
  match Json.parse? text with
  | some (.object members) => decode (.object members)
  | some _ => throw .rootNotObject
  | none => ofHalvedJson text

end Node

end StructuralTypes

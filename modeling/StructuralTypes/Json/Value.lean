import StructuralTypes.Json
import StructuralTypes.Value

/-! JSON values as dynamic values, and back where a dynamic value has a JSON form. -/

namespace StructuralTypes

mutual

/-- The dynamic value of a JSON value. -/
def Json.toValue : Json → Value
  | .null => .null
  | .bool b => .bool b
  | .int i => .int i
  | .float d => .float d
  | .string s => .text s
  | .array items => .list (Json.toValues items)
  | .object members => .mapping (Json.toEntries members)

def Json.toValues : List Json → List Value
  | [] => []
  | item :: rest => Json.toValue item :: Json.toValues rest

def Json.toEntries : List (String × Json) → List (Value × Value)
  | [] => []
  | (name, item) :: rest => (.text name, Json.toValue item) :: Json.toEntries rest

end

mutual

/-- The JSON form of a value; what has none becomes null. -/
def Value.toJson : Value → Json
  | .bool b => .bool b
  | .int i => .int i
  | .float d => .float d
  | .text s => .string s
  | .list items | .tuple items => .array (Value.toJsons items)
  | .mapping entries => .object (Value.toMembers entries)
  | _ => .null

def Value.toJsons : List Value → List Json
  | [] => []
  | item :: rest => Value.toJson item :: Value.toJsons rest

def Value.toMembers : List (Value × Value) → List (String × Json)
  | [] => []
  | (.text name, item) :: rest => (name, Value.toJson item) :: Value.toMembers rest
  | _ :: rest => Value.toMembers rest

end

end StructuralTypes

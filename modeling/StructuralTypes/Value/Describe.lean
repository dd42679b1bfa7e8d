import StructuralTypes.Json.Printer
import StructuralTypes.Value.Display

/-! The short description of a value in messages: its kind, and for a scalar its
literal text in JSON. -/

namespace StructuralTypes.Value

/-- The description of a value. -/
def describe : Value → String
  | undefined => "undefined"
  | null => "null"
  | bool b => "bool literal " ++ (Json.bool b).render (Json.compact true)
  | int i => "int literal " ++ toString i
  | float d => "float literal " ++ Json.renderFloat d
  | text s => "string literal " ++ (Json.string s).render (Json.compact true)
  | rawText codes => "string literal " ++ String.ofList (Json.quoteCodes true codes)
  | list _ => "list literal"
  | tuple _ => "tuple literal"
  | mapping _ => "mapping literal"
  | _ => "object literal"

end StructuralTypes.Value

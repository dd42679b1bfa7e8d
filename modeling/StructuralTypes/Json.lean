import StructuralTypes.Numeric.Double
import StructuralTypes.Table

/-! JSON values. Members of an object keep their order; whole numbers and
floating-point numbers are told apart. -/

namespace StructuralTypes

inductive Json where
  | null
  | bool (b : Bool)
  | int (i : Int)
  | float (d : Double)
  | string (s : String)
  | array (items : List Json)
  | object (members : List (String × Json))
deriving Inhabited

namespace Json

def ofStrings (items : List String) : Json := .array (items.map .string)

end Json

end StructuralTypes

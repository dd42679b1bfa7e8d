import StructuralTypes.Fault

/-! The messages of a failure: one text, or a list of texts that each say where in the
value they apply. The path is the dotted position of the value among its containers;
it qualifies messages and nothing is looked up by it. -/

namespace StructuralTypes

/-- One message, or several. -/
inductive Messages where
  | one (text : String)
  | many (texts : List String)
deriving DecidableEq

namespace Messages

def toList : Messages → List String
  | one text => [text]
  | many texts => texts

def isMany : Messages → Bool
  | one _ => false
  | many _ => true

/-- Messages one after another. -/
def concat (parts : List Messages) : List String :=
  parts.flatMap toList

/-- Completes a single message and leaves a list as it is. -/
def complete (finish : String → String) : Messages → List String
  | one text => [finish text]
  | many texts => texts

end Messages

namespace Failure

/-- The path of a part below a path. -/
def joinPath (path : String) (key : Value) : String :=
  if path.isEmpty then key.label else path ++ "." ++ key.label

/-- Completes the message of an item of an array or tuple. -/
def atIndex (container path : String) (key : Value) (text : String) : String :=
  text ++ " at index #" ++ key.label ++ " in " ++ container ++ " members"
    ++ (if path.isEmpty then "" else " of property `" ++ path ++ "`")

/-- Completes the message of a property of a shape. -/
def inProperty (given path : String) (key : Value) (text : String) : String :=
  text ++ " in " ++ given ++ " of property `" ++ joinPath path key ++ "`"

mutual

/-- The reasons of the alternatives of a union, those of nested unions among them. -/
def alternatives : List (Value × Failure) → List String
  | [] => []
  | (_, child) :: rest => child.alternative :: alternatives rest

/-- The reason of an alternative. -/
def alternative : Failure → String
  | mk _ (.kind .withUnion) _ children => " or ".intercalate (alternatives children)
  | mk _ _ reason _ => reason

end

mutual

/-- The messages of a failure at a path. A leaf that holds several failures has none. -/
def flatten (path : String) : Failure → Except TypeFault Messages
  | mk given unexpected reason children =>
    let message := given ++ " is " ++ reason
    match unexpected with
    | .kind .withUnion => do
      let parts ← flattenAll path children
      if parts.any Messages.isMany then return .many (Messages.concat parts)
      return .one (given ++ " is either " ++ " or ".intercalate (alternatives children))
    | .kind .withIntersection => return .many (Messages.concat (← flattenAll path children))
    | .kind .inArrayMembers =>
      return .many (← flattenKeyed path (atIndex "array" path) children)
    | .kind .inTupleMembers =>
      return .many (← flattenKeyed path (atIndex "tuple" path) children)
    | .kind .inShapeProperties | .kind .inExactShapeProperties =>
      return .many (← flattenKeyed path (inProperty given path) children)
    | .kind .withShape | .kind .withExactShape | .kind .withArray | .kind .withTuple =>
      return .one message
    | .reason text =>
      match children with
      | [] => return .one message
      | [(_, child)] => return .many (message :: (← child.flatten path).toList)
      | _ => throw { cause := .leafWithChildren text children.length, source := none }

/-- The messages of children that stand at the same path. -/
def flattenAll (path : String) : List (Value × Failure) → Except TypeFault (List Messages)
  | [] => return []
  | (_, child) :: rest => do
    let part ← child.flatten path
    return part :: (← flattenAll path rest)

/-- The messages of children at their own paths, single ones completed by the key. -/
def flattenKeyed (path : String) (finish : Value → String → String) :
    List (Value × Failure) → Except TypeFault (List String)
  | [] => return []
  | (key, child) :: rest => do
    let part ← child.flatten (joinPath path key)
    return part.complete (finish key) ++ (← flattenKeyed path finish rest)

end

/-- The messages of a failure as a list. -/
def messageList (f : Failure) : Except TypeFault (List String) :=
  return (← f.flatten "").toList

end Failure

end StructuralTypes

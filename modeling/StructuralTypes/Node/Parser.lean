import StructuralTypes.Level
import StructuralTypes.Token.Lexer

/-! Reading an annotation: its tokens, their nesting, and the type of the nested
tokens. A fault found on the way is given the text of the annotation. -/

namespace StructuralTypes

/-- The text of an annotation given as a value. -/
def sourceText : Value → Except Fault String
  | .text s => return s
  | v => throw (.misuse (.sourceNotText v.kindName))

/-- The nested tokens of an annotation. -/
def TokenTree.ofText (text : String) : Except TypeFault (List TokenTree) := do
  ofTokens (← Token.scan text)

namespace Node

/-- The type that an annotation stands for. -/
def parse (text : String) : Reading Node :=
  let reading : Reading Node := do
    let tree ← Reading.ofExcept ((TokenTree.ofText text).mapError Fault.type)
    Node.ofTree tree
  reading.adapt (Fault.attach text)

/-- The result of reading an annotation, its warnings left out. -/
def parse? (text : String) : Except Fault Node :=
  ((parse text).run []).1

end Node

end StructuralTypes

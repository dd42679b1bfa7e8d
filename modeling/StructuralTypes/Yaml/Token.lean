import StructuralTypes.Yaml

/-! Tokens of a document: brackets and marks, the bounds of blocks, scalars, and what
can stand before a node. -/

namespace StructuralTypes.Yaml

/-- A tag as written: the rest of its name behind a handle, or a whole name. -/
structure Tag where
  handle : Option String
  name : String
deriving DecidableEq

/-- An instruction before a document. -/
inductive Directive where
  | version (major : Nat)
  | handle (name stem : String)
  | other
deriving DecidableEq

inductive Token where
  | directive (d : Directive)
  | documentStart
  | documentEnd
  | blockSequence
  | blockMapping
  | blockEnd
  | sequenceStart
  | sequenceEnd
  | mappingStart
  | mappingEnd
  /-- A hyphen before an item. -/
  | item
  | comma
  | key
  | value
  | alias (name : String)
  | anchor (name : String)
  | tag (t : Tag)
  | plain (text : String)
  | quoted (codes : List Nat)
  /-- Where the text goes on with something that is no token. -/
  | broken (f : Fault)
deriving DecidableEq

end StructuralTypes.Yaml

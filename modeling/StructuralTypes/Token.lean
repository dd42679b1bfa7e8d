/-! Tokens of the annotation language: names and literals, punctuation, and the
markers that open composite types. -/

namespace StructuralTypes

inductive TokenKind where
  | groupOpen
  | groupClose
  | union
  | intersection
  | optional
  | comma
  | colon
  | exactShape
  | shape
  | array
  | tuple
  | arraySuffix
  | name
  /-- A kind without meaning in the language. -/
  | other (label : String)
deriving DecidableEq, Inhabited

/-- A token with its text in the marker form of the source. -/
structure Token where
  kind : TokenKind
  text : String
deriving DecidableEq, Inhabited

namespace Token

/-- Everything but names and literals. -/
def isMarker (t : Token) : Bool :=
  t.kind != .name

/-- The spelling in the source of a token that the marker form respells. -/
def surface (t : Token) : String :=
  match t.kind with
  | .exactShape => "\x7b|"
  | .shape => "\x7b"
  | .array => "Array<"
  | .tuple => "["
  | .arraySuffix => "[]"
  | _ => t.text

end Token

end StructuralTypes

import StructuralTypes.Fault
import StructuralTypes.Token

/-! Token trees: tokens nested as their brackets are. Building a tree loses nothing:
a group takes one place among the items of its parent, in order. -/

namespace StructuralTypes

/-- An item of a level of tokens. -/
inductive TokenTree where
  | token (t : Token)
  | group (items : List TokenTree)
  /-- A value that is neither a token nor a group; building a tree makes none. -/
  | stray (v : Value)
deriving Inhabited

namespace TokenTree

/-- Adds tokens to the innermost level, whose items so far and whose enclosing levels,
innermost first, are given. -/
def build (level : List TokenTree) (outer : List (List TokenTree)) :
    List Token → Except TypeFault (List TokenTree)
  | [] =>
    if outer.isEmpty then return level
    else throw { cause := .unclosedGroups outer.length, source := none }
  | t :: rest =>
    match t.kind, outer with
    | .groupOpen, _ => build [] (level :: outer) rest
    | .groupClose, [] => throw { cause := .unexpectedClose, source := none }
    | .groupClose, parent :: outer => build (parent ++ [group level]) outer rest
    | _, _ => build (level ++ [token t]) outer rest

/-- The items that tokens form. -/
def ofTokens (tokens : List Token) : Except TypeFault (List TokenTree) :=
  build [] [] tokens

end TokenTree

end StructuralTypes

import StructuralTypes.Token.Tree

/-! Building a token tree in place. A cursor says where in the innermost open list the next
item goes. A group takes its place in the list around it as soon as it opens; that list and
the place wait on a stack until the group closes. -/

namespace StructuralTypes.TokenTree

/-- Puts an item at a place of a list: behind the end, or over the item that is there. There
is no place further out. -/
def place? (items : List TokenTree) (index : Nat) (item : TokenTree) :
    Option (List TokenTree) :=
  if index = items.length then some (items ++ [item])
  else if index < items.length then some (items.set index item)
  else none

/-- The list that is being filled, the place of its next item, and the lists around it, each
with the place of its open group, innermost first. -/
structure Cursor where
  current : List TokenTree
  index : Nat
  stack : List (Nat × List TokenTree)

namespace Cursor

/-- Opens a group at the cursor, or behind it where an item is there already. -/
def openGroup? (c : Cursor) : Option Cursor :=
  let index := if c.index < c.current.length then c.index + 1 else c.index
  (place? c.current index (group [])).map fun items => ⟨[], 0, (index, items) :: c.stack⟩

/-- Puts a token at the cursor. -/
def put? (c : Cursor) (t : Token) : Option Cursor :=
  (place? c.current c.index (token t)).map fun items => ⟨items, c.index + 1, c.stack⟩

/-- Adds tokens one by one; `none` if the cursor gets outside of its list. -/
def run? (c : Cursor) : List Token → Option (Except TypeFault (List TokenTree))
  | [] =>
    if c.stack.isEmpty then some (.ok c.current)
    else some (.error { cause := .unclosedGroups c.stack.length, source := none })
  | t :: rest =>
    match t.kind, c.stack with
    | .groupOpen, _ => c.openGroup?.bind (run? · rest)
    | .groupClose, [] => some (.error { cause := .unexpectedClose, source := none })
    | .groupClose, (index, items) :: stack =>
      run? ⟨items.set index (group c.current), index + 1, stack⟩ rest
    | _, _ => (c.put? t).bind (run? · rest)

end Cursor

/-- The items that tokens form, built in place. -/
def inPlace? (tokens : List Token) : Option (Except TypeFault (List TokenTree)) :=
  Cursor.run? ⟨[], 0, []⟩ tokens

end StructuralTypes.TokenTree

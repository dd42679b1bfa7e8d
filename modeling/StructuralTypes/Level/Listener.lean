import StructuralTypes.Level

/-! Reading with a listener. A caller may have something done at each remark, with effects of
its own, or leave it out. -/

namespace StructuralTypes

variable {m : Type → Type} [Monad m]

/-- What is done at each remark, if anything. -/
abbrev Listener (m : Type → Type) := Option (Warning → m Unit)

/-- Replaces each marker of a kind and the item after it by one type. -/
def Item.resolvePrefixBy (kind : TokenKind) (read : Item → ExceptT Fault m Node) :
    List Item → ExceptT Fault m (List Item)
  | [] => return []
  | token t :: rest =>
    if t.kind = kind then
      match rest with
      | [] => throw (.ofCause (.markerWithoutType t.surface))
      | operand :: rest =>
        if operand.isNoOperand then throw (.ofCause (.markerWithoutType t.surface))
        else do
          let type ← read operand
          return node type :: (← resolvePrefixBy kind read rest)
    else return token t :: (← resolvePrefixBy kind read rest)
  | item :: rest => return item :: (← resolvePrefixBy kind read rest)

namespace Listener

open Item

def tell (listener : Listener m) (w : Warning) : m Unit :=
  match listener with
  | none => pure ()
  | some call => call w

/-- A shape, told of when it is exact and has an indexer. -/
def readShape (listener : Listener m) (exact : Bool) (item : Item) : ExceptT Fault m Node := do
  let node ← ExceptT.mk (pure (asShape exact item))
  match node with
  | .shape true _ (some _) => ExceptT.lift (listener.tell .exactShapeIndexer)
  | _ => pure ()
  return node

/-- The passes, in the order in which the constructs bind. -/
def resolve (listener : Listener m) (items : List Item) : ExceptT Fault m Item := do
  let items ← resolvePrefixBy .exactShape (listener.readShape true) items
  let items ← resolvePrefixBy .shape (listener.readShape false) items
  let items ← resolvePrefixBy .array
    (fun item => return .array (← ExceptT.mk (pure (asType item)))) items
  let items ← resolvePrefixBy .tuple
    (fun item => return .tuple (← ExceptT.mk (pure (asElements item)))) items
  let items ← ExceptT.mk (pure (resolveSuffixes none items))
  let items ← resolvePrefixBy .optional
    (fun item => return .union [.leaf "null", ← ExceptT.mk (pure (asType item))]) items
  let items ← ExceptT.mk (pure (foldOperator .intersection .intersection .nothing items))
  let items ← ExceptT.mk (pure (foldOperator .union .union .nothing items))
  ExceptT.mk (pure (close (items.filter (!·.isKind .comma))))

mutual

/-- A tree item with its nested levels resolved. -/
def ofTree (listener : Listener m) : TokenTree → ExceptT Fault m Item
  | .token t => return if t.kind = .name then node (.leaf t.text) else token t
  | .group items => do listener.resolve (← listener.ofTrees items)
  | .stray v => return stray v

def ofTrees (listener : Listener m) : List TokenTree → ExceptT Fault m (List Item)
  | [] => return []
  | tree :: rest => do
    let item ← listener.ofTree tree
    return item :: (← listener.ofTrees rest)

end

/-- The type that a token tree stands for. -/
def typeOf (listener : Listener m) (items : List TokenTree) : ExceptT Fault m Node := do
  match ← listener.ofTree (.group items) with
  | .group [] => throw (.ofCause .emptyTree)
  | item => ExceptT.mk (pure item.asType)

end Listener

end StructuralTypes

import StructuralTypes.Node.Printer
import StructuralTypes.Text.Escapes
import StructuralTypes.Token.MarkerForm
import StructuralTypes.Token.Tree

/-! One level of a token tree on its way to a type. Nested groups are read first, then
a fixed sequence of passes over the items of the level resolves markers, suffixes,
optionals, intersections and unions, in this order, which is the order in which they
bind. What is left is a group of types or the body of a shape. -/

namespace StructuralTypes

/-- A remark on a type that is accepted all the same. -/
inductive Warning where
  | exactShapeIndexer
deriving DecidableEq

def Warning.message : Warning → String
  | .exactShapeIndexer => "Indexers are usually useful for inexact shapes"

/-- An item of a level between two passes. -/
inductive Item where
  | token (t : Token)
  | node (n : Node)
  /-- A level without a meaning of its own: alternatives of a union where a type is
  wanted, or the elements of a tuple. -/
  | group (items : List Item)
  /-- A level of `key: value` pairs. -/
  | body (properties : List Property) (indexer : Option Indexer)
  | stray (v : Value)
deriving Inhabited

/-- Reading collects warnings, also those that come before a fault. -/
abbrev Reading (α : Type) := ExceptT Fault (StateM (List Warning)) α

namespace Reading

def warn (w : Warning) : Reading Unit :=
  modify (· ++ [w])

def ofExcept {α : Type} (e : Except Fault α) : Reading α :=
  ExceptT.mk (pure e)

end Reading

namespace Item

def isKind (kind : TokenKind) : Item → Bool
  | token t => t.kind == kind
  | _ => false

def isToken : Item → Bool
  | token _ => true
  | _ => false

/-- Whether an item cannot be the operand of a marker or operator. -/
def isNoOperand : Item → Bool
  | token _ | stray .null => true
  | _ => false

/-! ### Items as types -/

mutual

/-- An item read as a type. -/
def asType : Item → Except Fault Node
  | node n => return n
  | group [] => throw (.ofCause .emptyGroup)
  | group [item] => asType item
  | group items => return .union (← asTypes items)
  | body .. => throw (.ofCause .pairsOutsideShape)
  | token t => throw (.ofCause (.unexpectedToken t.surface))
  | stray v => throw (.misuse (.strayItem v))

def asTypes : List Item → Except Fault (List Node)
  | [] => return []
  | item :: rest => do
    let node ← asType item
    return node :: (← asTypes rest)

end

/-- An item read as the elements of a tuple. -/
def asElements : Item → Except Fault (List Node)
  | group [] => throw (.ofCause .emptyGroup)
  | group items => asTypes items
  | item => return [← asType item]

/-- An item read as the inside of a shape. -/
def asShape (exact : Bool) : Item → Except Fault Node
  | group [] => return .shape exact [] none
  | body properties indexer => return .shape exact properties indexer
  | _ => throw (.ofCause .shapeWithoutPairs)

/-- A shape, with a warning when it is exact and has an indexer. -/
def readShape (exact : Bool) (item : Item) : Reading Node := do
  let node ← Reading.ofExcept (asShape exact item)
  match node with
  | .shape true _ (some _) => Reading.warn .exactShapeIndexer
  | _ => pure ()
  return node

/-! ### Passes -/

/-- Replaces each marker of a kind and the item after it by one type. -/
def resolvePrefix (kind : TokenKind) (read : Item → Reading Node) :
    List Item → Reading (List Item)
  | [] => return []
  | token t :: rest =>
    if t.kind = kind then
      match rest with
      | [] => throw (.ofCause (.markerWithoutType t.surface))
      | operand :: rest => do
        if operand.isNoOperand then throw (.ofCause (.markerWithoutType t.surface))
        let type ← read operand
        return node type :: (← resolvePrefix kind read rest)
    else return token t :: (← resolvePrefix kind read rest)
  | item :: rest => return item :: (← resolvePrefix kind read rest)

/-- Wraps the item before each array suffix. After a bare existential the suffix
stands for the word `array` beside it. -/
def resolveSuffixes (last : Option Item) : List Item → Except Fault (List Item)
  | [] => return last.toList
  | item :: rest => do
    if !item.isKind .arraySuffix then
      return last.toList ++ (← resolveSuffixes (some item) rest)
    match last with
    | none | some (token _) => throw (.ofCause .suffixWithoutType)
    | some previous =>
      match previous with
      | node (.leaf name) =>
        if name = Node.existential then
          return previous :: (← resolveSuffixes (some (node (.leaf "array"))) rest)
        else resolveSuffixes (some (node (.array (.leaf name)))) rest
      | _ => resolveSuffixes (some (node (.array (← asType previous)))) rest

/-- The item before an operator: nothing, an item, or the members of a chain. -/
inductive Pending where
  | nothing
  | item (i : Item)
  | chain (members : List Node)

/-- The items that a pending operand leaves when no operator follows it. -/
def Pending.flush (make : List Node → Node) : Pending → List Item
  | nothing => []
  | item i => [i]
  | chain members => [node (make members)]

/-- The members of the chain that an operator continues or begins. -/
def Pending.members (operator : String) : Pending → Except Fault (List Node)
  | nothing | item (token _) => throw (.ofCause (.operatorWithoutLeft operator))
  | item i => return [← asType i]
  | chain members => return members

/-- Folds each chain of operands joined by one operator into a single type. -/
def foldOperator (kind : TokenKind) (make : List Node → Node) (pending : Pending) :
    List Item → Except Fault (List Item)
  | [] => return pending.flush make
  | token t :: rest =>
    if t.kind = kind then
      match rest with
      | [] => throw (.ofCause (.operatorWithoutRight t.text))
      | operand :: rest => do
        if operand.isNoOperand then throw (.ofCause (.operatorWithoutRight t.text))
        let members ← pending.members t.text
        let member ← asType operand
        foldOperator kind make (.chain (members ++ [member])) rest
    else return pending.flush make ++ (← foldOperator kind make (.item (token t)) rest)
  | item :: rest => return pending.flush make ++ (← foldOperator kind make (.item item) rest)

/-! ### Shape bodies -/

/-- The names before colons, each with the items up to the next one; `current` is the
entry being filled. -/
def entries (current : Option (String × List Item)) :
    List Item → Except Fault (List (String × List Item))
  | [] => return current.toList
  | item :: rest => do
    if item.isKind .colon then entries current rest
    else if (rest.head?.map (isKind .colon)).getD false then
      match item with
      | node (.leaf name) => return current.toList ++ (← entries (some (name, [])) rest)
      | _ => throw (.ofCause .keyNotName)
    else
      match current with
      | none => throw (.ofCause .valueBeforeKey)
      | some (name, values) => entries (some (name, values ++ [item])) rest

/-- The text of a key without its quotes and its optional mark. -/
def keyText (name : String) : String :=
  let inner := match Escapes.quoted? name.toList with
    | some (_, content) => content
    | none => name.toList
  String.ofList (if inner.getLast? = some MarkerForm.optionalMark then inner.dropLast else inner)

/-- Whether a quoted key carries the optional mark. -/
def hasOptionalMark (name : String) : Bool :=
  [MarkerForm.optionalMark, '"'].isSuffixOf name.toList

/-- The type of an entry: of several items, their union. -/
def entryType (name : String) : List Item → Except Fault Node
  | [] => throw (.ofCause (.keyWithoutType (keyText name)))
  | [item] => asType item
  | items => return .union (← asTypes items)

/-- Adds entries to a shape body: quoted names are properties, one other name may be
the key of an indexer. -/
def addEntries (properties : List Property) (indexer : Option Indexer) :
    List (String × List Item) → Except Fault Item
  | [] => return body properties indexer
  | (name, items) :: rest => do
    let value ← entryType name items
    if (Escapes.quoted? name.toList).isSome then
      if properties.any (·.key == keyText name) then
        throw (.ofCause (.duplicateProperty (keyText name)))
      addEntries (properties ++ [.mk (keyText name) value (hasOptionalMark name)]) indexer rest
    else
      if indexer.isSome then throw (.ofCause .secondIndexer)
      addEntries properties (some (.mk (.leaf name) value)) rest

/-- What the items of a level amount to once all passes are done. -/
def close (items : List Item) : Except Fault Item :=
  if items.any (isKind .colon) then do
    addEntries [] none (← entries none items)
  else
    match items with
    | [group inner] => return group inner
    | _ => return group items

/-! ### Levels -/

/-- The type of an optional: null or the operand. -/
def readOptional (item : Item) : Reading Node :=
  return .union [.leaf "null", ← Reading.ofExcept (asType item)]

/-- The passes, in the order in which the constructs bind. -/
def resolve (items : List Item) : Reading Item := do
  let items ← resolvePrefix .exactShape (readShape true) items
  let items ← resolvePrefix .shape (readShape false) items
  let items ← resolvePrefix .array
    (fun item => return .array (← Reading.ofExcept (asType item))) items
  let items ← resolvePrefix .tuple
    (fun item => return .tuple (← Reading.ofExcept (asElements item))) items
  let items ← Reading.ofExcept (resolveSuffixes none items)
  let items ← resolvePrefix .optional readOptional items
  let items ← Reading.ofExcept (foldOperator .intersection .intersection .nothing items)
  let items ← Reading.ofExcept (foldOperator .union .union .nothing items)
  Reading.ofExcept (close (items.filter (!·.isKind .comma)))

mutual

/-- A tree item with its nested levels resolved. -/
def ofTree : TokenTree → Reading Item
  | .token t => return if t.kind = .name then node (.leaf t.text) else token t
  | .group items => do resolve (← ofTrees items)
  | .stray v => return stray v

def ofTrees : List TokenTree → Reading (List Item)
  | [] => return []
  | tree :: rest => do
    let item ← ofTree tree
    return item :: (← ofTrees rest)

end

end Item

/-! ### Whole types -/

/-- The type that a token tree stands for. -/
def Node.ofTree (items : List TokenTree) : Reading Node := do
  match ← Item.ofTree (.group items) with
  | .group [] => throw (.ofCause .emptyTree)
  | item => Reading.ofExcept item.asType

end StructuralTypes

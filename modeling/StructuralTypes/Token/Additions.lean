import StructuralTypes.Node.Printer
import StructuralTypes.Token.Tree

/-! The words that reading adds to those that are written: `null` for an optional mark, and
`array` for an array suffix right behind a bare `*`. A `*` is bare unless the marker of a
composite type stands right before it, whose operand it then is. -/

namespace StructuralTypes.TokenTree

/-- A place of a level, as far as one token tells. -/
def token? : TokenTree → Option Token
  | token t => some t
  | _ => none

/-- The markers that take the item after them before array suffixes do. -/
def takers : List TokenKind :=
  [.exactShape, .shape, .array, .tuple]

/-- The name that array suffixes do not wrap. -/
def star : Token :=
  ⟨.name, Node.existential⟩

/-- Whether a level goes on with an array suffix. -/
def isSuffixed : List (Option Token) → Bool
  | place :: _ => place.any (·.kind == .arraySuffix)
  | [] => false

/-- The array suffixes of a level right behind a `*` that no marker takes; `taken` says
whether a marker stands before the level. -/
def bareSuffixes (markers : List TokenKind) (taken : Bool) : List (Option Token) → Nat
  | [] => 0
  | place :: rest =>
    (if !taken && place == some star && isSuffixed rest then 1 else 0)
      + bareSuffixes markers (place.any (·.kind ∈ markers)) rest

mutual

/-- The optional marks in a tree. -/
def optionals : TokenTree → Nat
  | token t => if t.kind = .optional then 1 else 0
  | group items => optionalsAll items
  | stray _ => 0

def optionalsAll : List TokenTree → Nat
  | [] => 0
  | tree :: rest => optionals tree + optionalsAll rest

end

mutual

/-- The array suffixes right behind a bare `*`, in all levels of a tree. -/
def starSuffixes : TokenTree → Nat
  | token _ => 0
  | group items => bareSuffixes takers false (items.map token?) + starSuffixesAll items
  | stray _ => 0

def starSuffixesAll : List TokenTree → Nat
  | [] => 0
  | tree :: rest => starSuffixes tree + starSuffixesAll rest

end

end StructuralTypes.TokenTree

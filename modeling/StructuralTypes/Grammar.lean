import StructuralTypes.Node
import StructuralTypes.Token
import StructuralTypes.Token.MarkerForm

/-! The surface grammar of annotations, by binding strength: unions of intersections of
optionals of suffixed atoms. A term has its tokens in marker form, and the type that it
stands for. Chains of one operator are one node; brackets add none. -/

namespace StructuralTypes.Grammar

mutual

/-- Alternatives, one or more. -/
inductive UnionTerm where
  | mk (first : JointTerm) (rest : List JointTerm)

/-- Joint requirements, one or more. -/
inductive JointTerm where
  | mk (first : OptionalTerm) (rest : List OptionalTerm)

inductive OptionalTerm where
  | plain (term : SuffixedTerm)
  | marked (term : SuffixedTerm)

/-- An atom and the number of array suffixes behind it. -/
inductive SuffixedTerm where
  | mk (atom : AtomTerm) (suffixes : Nat)

inductive AtomTerm where
  | name (text : String)
  | brackets (term : UnionTerm)
  | array (element : UnionTerm)
  | tuple (first : UnionTerm) (rest : List UnionTerm)
  | shape (exact : Bool) (fields : List FieldTerm)

inductive FieldTerm where
  | property (key : String) (optional : Bool) (type : UnionTerm)
  | indexer (name : String) (type : UnionTerm)

end

/-! ### Tokens -/

def word (text : String) : Token := ⟨.name, text⟩

def openGroup : Token := ⟨.groupOpen, "("⟩

def closeGroup : Token := ⟨.groupClose, ")"⟩

/-- The tokens of terms, each behind a separator. -/
def tokensAfter (separator : Token) : List (List Token) → List Token
  | [] => []
  | tokens :: rest => separator :: (tokens ++ tokensAfter separator rest)

/-- The tokens of terms with a separator between them. -/
def separated (separator : Token) : List (List Token) → List Token
  | [] => []
  | tokens :: rest => tokens ++ tokensAfter separator rest

/-- A key in its quotes, with the mark of an optional one. -/
def keyWord (key : String) (optional : Bool) : Token :=
  word (String.ofList ('"' ::
    (key.toList ++ (if optional then [MarkerForm.optionalMark] else []) ++ ['"'])))

mutual

def UnionTerm.tokens : UnionTerm → List Token
  | .mk first rest => first.tokens ++ tokensAfter ⟨.union, "|"⟩ (jointTokens rest)

def jointTokens : List JointTerm → List (List Token)
  | [] => []
  | term :: rest => term.tokens :: jointTokens rest

def JointTerm.tokens : JointTerm → List Token
  | .mk first rest => first.tokens ++ tokensAfter ⟨.intersection, "&"⟩ (optionalTokens rest)

def optionalTokens : List OptionalTerm → List (List Token)
  | [] => []
  | term :: rest => term.tokens :: optionalTokens rest

def OptionalTerm.tokens : OptionalTerm → List Token
  | .plain term => term.tokens
  | .marked term => ⟨.optional, "?"⟩ :: term.tokens

def SuffixedTerm.tokens : SuffixedTerm → List Token
  | .mk atom suffixes => atom.tokens ++ List.replicate suffixes ⟨.arraySuffix, "$"⟩

def AtomTerm.tokens : AtomTerm → List Token
  | .name text => [word text]
  | .brackets term => openGroup :: (term.tokens ++ [closeGroup])
  | .array element => ⟨.array, "~"⟩ :: openGroup :: (element.tokens ++ [closeGroup])
  | .tuple first rest =>
    ⟨.tuple, "^"⟩ :: openGroup
      :: (first.tokens ++ tokensAfter ⟨.comma, ","⟩ (unionTokens rest) ++ [closeGroup])
  | .shape exact fields =>
    (if exact then ⟨.exactShape, "#"⟩ else ⟨.shape, "@"⟩) :: openGroup
      :: (separated ⟨.comma, ","⟩ (fieldTokens fields) ++ [closeGroup])

def unionTokens : List UnionTerm → List (List Token)
  | [] => []
  | term :: rest => term.tokens :: unionTokens rest

def FieldTerm.tokens : FieldTerm → List Token
  | .property key optional type => keyWord key optional :: ⟨.colon, ":"⟩ :: type.tokens
  | .indexer name type => word name :: ⟨.colon, ":"⟩ :: type.tokens

def fieldTokens : List FieldTerm → List (List Token)
  | [] => []
  | field :: rest => field.tokens :: fieldTokens rest

end

/-! ### Types -/

/-- One type, or several under one node. -/
def joined (make : List Node → Node) : List Node → Node
  | [node] => node
  | nodes => make nodes

mutual

/-- The type that a term stands for. -/
def UnionTerm.node : UnionTerm → Node
  | .mk first rest => joined .union (first.node :: jointNodes rest)

def jointNodes : List JointTerm → List Node
  | [] => []
  | term :: rest => term.node :: jointNodes rest

def JointTerm.node : JointTerm → Node
  | .mk first rest => joined .intersection (first.node :: optionalNodes rest)

def optionalNodes : List OptionalTerm → List Node
  | [] => []
  | term :: rest => term.node :: optionalNodes rest

def OptionalTerm.node : OptionalTerm → Node
  | .plain term => term.node
  | .marked term => .union [.leaf "null", term.node]

def SuffixedTerm.node : SuffixedTerm → Node
  | .mk atom suffixes => (List.replicate suffixes ()).foldl (fun n _ => .array n) atom.node

def AtomTerm.node : AtomTerm → Node
  | .name text => .leaf text
  | .brackets term => term.node
  | .array element => .array element.node
  | .tuple first rest => .tuple (first.node :: unionNodes rest)
  | .shape exact fields => .shape exact (properties fields) (indexer? fields)

def unionNodes : List UnionTerm → List Node
  | [] => []
  | term :: rest => term.node :: unionNodes rest

def properties : List FieldTerm → List Property
  | [] => []
  | .property key optional type :: rest => .mk key type.node optional :: properties rest
  | .indexer .. :: rest => properties rest

/-- The first indexer among fields. -/
def indexer? : List FieldTerm → Option Indexer
  | [] => none
  | .indexer name type :: _ => some (.mk (.leaf name) type.node)
  | .property .. :: rest => indexer? rest

end

/-! ### Legal terms -/

/-- The key of a property field. -/
def FieldTerm.key? : FieldTerm → Option String
  | .property key .. => some key
  | .indexer .. => none

/-- An indexer keyed by a text in quotes. -/
def FieldTerm.isQuotedIndexer : FieldTerm → Bool
  | .property .. => false
  | .indexer name _ => (Escapes.quoted? name.toList).isSome

/-- Properties with distinct keys, and at most one indexer, keyed by a plain name. -/
def fitTogether (fields : List FieldTerm) : Prop :=
  (fields.filterMap FieldTerm.key?).Nodup
    ∧ fields.countP (·.key?.isNone) ≤ 1
    ∧ ∀ field ∈ fields, field.isQuotedIndexer = false

mutual

/-- Terms that the grammar admits: no suffix directly behind the existential, and
shapes whose fields fit together. -/
def UnionTerm.Legal : UnionTerm → Prop
  | .mk first rest => first.Legal ∧ jointsLegal rest

def jointsLegal : List JointTerm → Prop
  | [] => True
  | term :: rest => term.Legal ∧ jointsLegal rest

def JointTerm.Legal : JointTerm → Prop
  | .mk first rest => first.Legal ∧ optionalsLegal rest

def optionalsLegal : List OptionalTerm → Prop
  | [] => True
  | term :: rest => term.Legal ∧ optionalsLegal rest

def OptionalTerm.Legal : OptionalTerm → Prop
  | .plain term | .marked term => term.Legal

def SuffixedTerm.Legal : SuffixedTerm → Prop
  | .mk atom suffixes => atom.Legal ∧ (suffixes = 0 ∨ ∀ text, atom = .name text → text ≠ "*")

def AtomTerm.Legal : AtomTerm → Prop
  | .name _ => True
  | .brackets term => term.Legal
  | .array element => element.Legal
  | .tuple first rest => first.Legal ∧ unionsLegal rest
  | .shape _ fields => fitTogether fields ∧ fieldsLegal fields

def unionsLegal : List UnionTerm → Prop
  | [] => True
  | term :: rest => term.Legal ∧ unionsLegal rest

def FieldTerm.Legal : FieldTerm → Prop
  | .property _ _ type | .indexer _ type => type.Legal

def fieldsLegal : List FieldTerm → Prop
  | [] => True
  | field :: rest => field.Legal ∧ fieldsLegal rest

end

end StructuralTypes.Grammar

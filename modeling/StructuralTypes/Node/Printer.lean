import StructuralTypes.Fault
import StructuralTypes.Node
import StructuralTypes.Text.CharClass

/-! Writing a type as an annotation, with the fewest brackets that keep its reading.
An array of existentials is always written with the word, never with the suffix. -/

namespace StructuralTypes.Node

/-- The name of the existential type. -/
def existential : String := "*"

/-- Where a type is written as a part of another one. -/
inductive Operand where
  | ofUnion
  | ofIntersection
  | ofArray
deriving DecidableEq

/-- Whether a part needs brackets: a union does everywhere, an intersection does
outside unions. -/
def needsBrackets (place : Operand) : Node → Bool
  | union members => 1 < members.length
  | intersection members => place != .ofUnion && 1 < members.length
  | _ => false

def bracketed (place : Operand) (node : Node) (text : String) : String :=
  if needsBrackets place node then "(" ++ text ++ ")" else text

/-- Whether a key is written without quotes: word characters, a final line feed aside. -/
def isBareKey (key : String) : Bool :=
  match key.toList.reverse with
  | [] => false
  | c :: rest =>
    if c = '\n' then !rest.isEmpty && rest.all CharClass.isWord
    else CharClass.isWord c && rest.all CharClass.isWord

def formatKey (key : String) : String :=
  if isBareKey key then key else "\"" ++ key ++ "\""

/-- The annotation of a shape, from those of its entries. -/
def shapeText (exact : Bool) (entries : List String) : String :=
  let body := ", ".intercalate entries
  match exact, entries.isEmpty with
  | true, true => "\x7b||\x7d"
  | true, false => "\x7b| " ++ body ++ " |\x7d"
  | false, true => "\x7b\x7d"
  | false, false => "\x7b " ++ body ++ " \x7d"

mutual

/-- The annotation of a type. Stray nodes have none. -/
def format : Node → Except Misuse String
  | leaf name => return name
  | union members => return " | ".intercalate (← formatOperands .ofUnion members)
  | intersection members => return " & ".intercalate (← formatOperands .ofIntersection members)
  | array (leaf name) =>
    return if name = existential then "Array<*>" else name ++ "[]"
  | array element => return bracketed .ofArray element (← format element) ++ "[]"
  | tuple elements => return "[" ++ ", ".intercalate (← formatAll elements) ++ "]"
  | shape exact properties indexer => do
    return shapeText exact ((← formatProperties properties) ++ (← formatIndexer indexer))
  | stray s => throw (.cannotFormat (variant (stray s)))

def formatOperands (place : Operand) : List Node → Except Misuse (List String)
  | [] => return []
  | node :: rest => do
    let text ← format node
    return bracketed place node text :: (← formatOperands place rest)

def formatAll : List Node → Except Misuse (List String)
  | [] => return []
  | node :: rest => do
    let text ← format node
    return text :: (← formatAll rest)

def formatProperty : Property → Except Misuse String
  | .mk key value optional =>
    return formatKey key ++ (if optional then "?" else "") ++ ": " ++ (← format value)

def formatProperties : List Property → Except Misuse (List String)
  | [] => return []
  | property :: rest => do
    let text ← formatProperty property
    return text :: (← formatProperties rest)

def formatIndexer : Option Indexer → Except Misuse (List String)
  | none => return []
  | some (.mk key value) => do
    let key ← format key
    return ["[" ++ key ++ "]: " ++ (← format value)]

end

end StructuralTypes.Node

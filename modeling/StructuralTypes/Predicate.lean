import StructuralTypes.Numeric.Overlong
import StructuralTypes.Text.Escapes
import StructuralTypes.Text.NumberText
import StructuralTypes.Value

/-! Leaf types decided by a test on the value: the keywords of the language and the
literals. Truth values are never numbers; null and an absent argument are accepted by
the same keywords. -/

namespace StructuralTypes

/-- A named test with the reason it gives when it refuses. -/
structure Predicate where
  name : String
  reason : String
  accepts : Value → Bool

/-! ### Keywords -/

inductive Keyword where
  | existential
  | null
  | undefined
  | number
  | numeric
  | string
  | int
  | float
  | bool
  | boolean
  | trueOnly
  | falseOnly
  | array
  | object
deriving DecidableEq

namespace Keyword

/-- Every keyword, in the order of the table. -/
def all : List Keyword :=
  [existential, null, undefined, number, numeric, string, int, float, bool, boolean,
   trueOnly, falseOnly, array, object]

def name : Keyword → String
  | existential => "*"
  | null => "null"
  | undefined => "undefined"
  | number => "number"
  | numeric => "numeric"
  | string => "string"
  | int => "int"
  | float => "float"
  | bool => "bool"
  | boolean => "boolean"
  | trueOnly => "true"
  | falseOnly => "false"
  | array => "array"
  | object => "object"

/-- The word for the keyword in reasons. -/
def reasonWord : Keyword → String
  | existential => "existential"
  | boolean | trueOnly | falseOnly => "bool"
  | k => k.name

/-- Numbers, and texts that write one. -/
def isNumeric : Value → Bool
  | .text s => NumberText.isNumeric s.toList
  | v => v.isNumber

def accepts : Keyword → Value → Bool
  | existential, v => !v.isMissing
  | null, v | undefined, v => v.isMissing
  | number, v => v.isNumber
  | numeric, v => isNumeric v
  | string, v => v.isText
  | int, v => v.isInt
  | float, v => v.isFloat
  | bool, v | boolean, v => v.isBool
  | trueOnly, .bool b => b
  | trueOnly, _ => false
  | falseOnly, .bool b => !b
  | falseOnly, _ => false
  | array, v => v.isArrayLike
  | object, v => v.isObjectLike

def ofName? (name : String) : Option Keyword :=
  all.find? (·.name == name)

def predicate (k : Keyword) : Predicate :=
  { name := k.name, reason := "incompatible with " ++ k.reasonWord, accepts := k.accepts }

end Keyword

/-! ### Literals -/

/-- The one value that a literal accepts. -/
inductive Literal where
  | text (s : String)
  | int (n : Nat)
  | float (d : Double)
deriving DecidableEq

namespace Literal

/-- The literal that a name writes, if it writes one: a text in quotes of either style,
an unsigned whole number or an unsigned decimal. -/
def ofName (name : String) : Except Overlong (Option Literal) :=
  match Escapes.quoted? name.toList with
  | some (quote, content) =>
    return if Escapes.hasBareQuote quote content then none
      else some (text (String.ofList (Escapes.unescape quote content)))
  | none =>
    match NumberText.wholeDigits? name.toList with
    | some digits => do
      Overlong.check digits.length
      return some (int (NumberText.digitsToNat digits))
    | none => return (NumberText.decimal? name.toList).map float

def accepts : Literal → Value → Bool
  | text s, .text t => t == s
  | int n, .int i => i == n
  | float d, .float e => e.eqv d
  | _, _ => false

def kindWord : Literal → String
  | text _ => "string"
  | int _ => "int"
  | float _ => "float"

/-- The test of a literal written by a name. -/
def predicate (name : String) (l : Literal) : Predicate :=
  { name, reason := "incompatible with " ++ l.kindWord ++ " literal " ++ name,
    accepts := l.accepts }

end Literal

/-- The test that a name stands for without any registration, if it does: a keyword, or
else a literal. -/
def Predicate.ofName (name : String) : Except Overlong (Option Predicate) :=
  match Keyword.ofName? name with
  | some k => return some k.predicate
  | none => return (← Literal.ofName name).map (Literal.predicate name)

end StructuralTypes

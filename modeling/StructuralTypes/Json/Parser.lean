import StructuralTypes.Json
import StructuralTypes.Numeric.Overlong
import StructuralTypes.Text.CodePoints
import StructuralTypes.Text.Radix

/-! Reading JSON text. The names `NaN` and `Infinity` are read as numbers; of two
members of one name the later replaces the value of the earlier; a whole number beyond
the limit of digits stops the reading where it stands. A surrogate escape is half of a
pair; one that stands alone is read as the character that stands in for it, and refused
where none does. Every reader answers with the text that follows; the depth of nesting
is bounded by the length of the text. -/

namespace StructuralTypes.Json

/-- Why a text cannot be read. -/
inductive Fault where
  | malformed
  | tooManyDigits (count : Nat)
deriving DecidableEq

/-- Requires that something was found. -/
def found {α : Type} : Option α → Except Fault α
  | some a => .ok a
  | none => .error .malformed

def isSpace (c : Char) : Bool :=
  c == ' ' || c == '\t' || c == '\n' || c == '\r'

def skipSpace (s : List Char) : List Char :=
  s.dropWhile isSpace

/-- Removes a fixed word from the front. -/
def expect? (word s : List Char) : Option (List Char) :=
  if word.isPrefixOf s then some (s.drop word.length) else none

/-! ### Strings -/

def simpleEscape? : Char → Option Char
  | '"' => some '"'
  | '\\' => some '\\'
  | '/' => some '/'
  | 'b' => some (Char.ofNat 0x08)
  | 'f' => some (Char.ofNat 0x0C)
  | 'n' => some '\n'
  | 'r' => some '\r'
  | 't' => some '\t'
  | _ => none

/-- The second half of a pair. -/
def lowHalf? (s : List Char) : Option (Nat × List Char) := do
  let rest ← expect? ['\\', 'u'] s
  let (low, rest) ← Radix.hexNumber? 4 rest
  if CodePoints.isLowHalf low then some (low, rest) else none

/-- The character of a `\u` escape; two surrogates make one character. -/
def unicodeEscape? (standIn : Option Char) (s : List Char) : Option (Char × List Char) := do
  let (n, rest) ← Radix.hexNumber? 4 s
  if CodePoints.isHighHalf n then
    match lowHalf? rest with
    | some (low, rest) => some (Char.ofNat (CodePoints.join n low), rest)
    | none => standIn.map (·, rest)
  else if CodePoints.isLowHalf n then standIn.map (·, rest)
  else some (Char.ofNat n, rest)

/-- One character of a string, escaped or not; none at the closing quote. -/
def stringChar? (standIn : Option Char) : List Char → Option (Char × List Char)
  | '\\' :: 'u' :: rest => unicodeEscape? standIn rest
  | '\\' :: c :: rest => (simpleEscape? c).map (·, rest)
  | '\\' :: [] => none
  | c :: rest => if c = '"' ∨ c.toNat < 0x20 then none else some (c, rest)
  | [] => none

/-- The characters of a string up to its closing quote. The count bounds the number
of characters. -/
def stringBody? (standIn : Option Char) : Nat → List Char → Option (List Char × List Char)
  | _, '"' :: rest => some ([], rest)
  | 0, _ => none
  | n + 1, s => do
    let (c, rest) ← stringChar? standIn s
    let (cs, rest) ← stringBody? standIn n rest
    some (c :: cs, rest)

/-- A string, its opening quote already read. -/
def readString? (standIn : Option Char) (s : List Char) : Option (String × List Char) :=
  (stringBody? standIn s.length s).map fun p => (String.ofList p.1, p.2)

/-! ### Numbers -/

def isDigit (c : Char) : Bool :=
  '0' ≤ c && c ≤ '9'

/-- The number written by decimal digits. -/
def digitsToNat (digits : List Char) : Nat :=
  digits.foldl (fun n c => 10 * n + (c.toNat - 48)) 0

/-- The longest run of digits, which must not be empty. -/
def digits? (s : List Char) : Option (List Char × List Char) :=
  match s.takeWhile isDigit with
  | [] => none
  | ds => some (ds, s.dropWhile isDigit)

/-- The whole part of a number: no leading zero except zero itself. -/
def wholePart? : List Char → Option (List Char × List Char)
  | '0' :: rest => some (['0'], rest)
  | s => digits? s

/-- The digits after a point, if a point with a digit follows. -/
def fractionPart (s : List Char) : List Char × List Char :=
  match s with
  | '.' :: rest => (digits? rest).getD ([], s)
  | _ => ([], s)

/-- A signed exponent, if one with a digit follows. -/
def exponentPart (s : List Char) : Option Int × List Char :=
  match s with
  | e :: rest =>
    if e = 'e' ∨ e = 'E' then
      let (negative, rest) := match rest with
        | '-' :: rest => (true, rest)
        | '+' :: rest => (false, rest)
        | _ => (false, rest)
      match digits? rest with
      | some (ds, rest) =>
        let n : Int := digitsToNat ds
        (some (if negative then -n else n), rest)
      | none => (none, s)
    else (none, s)
  | [] => (none, s)

/-- A number after its sign. One without fraction and exponent is whole. -/
def readNumber (negative : Bool) (s : List Char) : Except Fault (Json × List Char) := do
  let (whole, rest) ← found (wholePart? s)
  let (fraction, rest) := fractionPart rest
  let (exponent, rest) := exponentPart rest
  if fraction.isEmpty && exponent.isNone then
    if Overlong.limit < whole.length then throw (.tooManyDigits whole.length)
    let n : Int := digitsToNat whole
    return (.int (if negative then -n else n), rest)
  else
    let power : Int := exponent.getD 0 - fraction.length
    return (.float (.ofDecimal negative (digitsToNat (whole ++ fraction)) power), rest)

/-! ### Values -/

/-- The values that are written as a word. -/
def words : List (List Char × Json) :=
  [("null".toList, .null), ("true".toList, .bool true), ("false".toList, .bool false),
   ("NaN".toList, .float .nan), ("Infinity".toList, .float (.infinity false)),
   ("-Infinity".toList, .float (.infinity true))]

/-- Numbers and words. -/
def readScalar (s : List Char) : Except Fault (Json × List Char) :=
  match words.findSome? fun p => (expect? p.1 s).map (p.2, ·) with
  | some r => .ok r
  | none =>
    match s with
    | '-' :: rest => readNumber true rest
    | _ => readNumber false s

mutual

/-- A value at the front of the text. -/
def readValue (standIn : Option Char) : Nat → List Char → Except Fault (Json × List Char)
  | 0, _ => throw .malformed
  | n + 1, s =>
    match s with
    | '"' :: rest => (found (readString? standIn rest)).map fun p => (.string p.1, p.2)
    | '[' :: rest =>
      match skipSpace rest with
      | ']' :: rest => return (.array [], rest)
      | rest => (readItems standIn n rest).map fun p => (.array p.1, p.2)
    | '\x7b' :: rest =>
      match skipSpace rest with
      | '\x7d' :: rest => return (.object [], rest)
      | rest => (readMembers standIn n [] rest).map fun p => (.object p.1, p.2)
    | _ => readScalar s

/-- Items up to the closing bracket. -/
def readItems (standIn : Option Char) :
    Nat → List Char → Except Fault (List Json × List Char)
  | 0, _ => throw .malformed
  | n + 1, s => do
    let (item, rest) ← readValue standIn n s
    match skipSpace rest with
    | ']' :: rest => return ([item], rest)
    | ',' :: rest =>
      let (items, rest) ← readItems standIn n (skipSpace rest)
      return (item :: items, rest)
    | _ => throw .malformed

/-- Members up to the closing brace, added to those already read. -/
def readMembers (standIn : Option Char) :
    Nat → List (String × Json) → List Char →
    Except Fault (List (String × Json) × List Char)
  | 0, _, _ => throw .malformed
  | n + 1, members, s => do
    let (name, rest) ← found (expect? ['"'] s >>= readString? standIn)
    let rest ← found (expect? [':'] (skipSpace rest))
    let (value, rest) ← readValue standIn n (skipSpace rest)
    let members := Table.insert name value members
    match skipSpace rest with
    | '\x7d' :: rest => return (members, rest)
    | ',' :: rest => readMembers standIn n members (skipSpace rest)
    | _ => throw .malformed

end

/-- Reads a whole text. -/
def parse (standIn : Option Char) (text : String) : Except Fault Json := do
  let s := text.toList
  let (value, rest) ← readValue standIn (s.length + 1) (skipSpace s)
  if (skipSpace rest).isEmpty then return value else throw .malformed

/-- The value of a text in which no half stands alone. -/
def parse? (text : String) : Option Json :=
  (parse none text).toOption

end StructuralTypes.Json

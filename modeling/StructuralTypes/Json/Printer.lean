import StructuralTypes.Json
import StructuralTypes.Numeric.Shortest
import StructuralTypes.Text.Quoted

/-! JSON text. A `Style` chooses between one line without blanks and one line per
item, and whether characters beyond ASCII are escaped as UTF-16 units. -/

namespace StructuralTypes.Json

/-- How a JSON text is laid out. -/
structure Style where
  /-- Blanks per level; none puts everything on one line without blanks. -/
  indent : Option Nat
  /-- Escapes every character outside visible ASCII. -/
  asciiOnly : Bool
deriving DecidableEq

def compact (asciiOnly : Bool) : Style := { indent := none, asciiOnly := asciiOnly }

def indented (asciiOnly : Bool) : Style := { indent := some 2, asciiOnly := asciiOnly }

/-! ### Leaves -/

/-- Numbers are written as in display forms; the others have names of their own. -/
def numberLayout : Shortest.Layout :=
  { positionalFrom := -4, exponentFrom := 16, exponentWidth := 2,
    nan := "NaN", infinity := "Infinity" }

def renderFloat (d : Double) : String :=
  Shortest.render numberLayout d

/-- One UTF-16 unit as an escape. -/
def unitEscape (unit : Nat) : List Char :=
  '\\' :: 'u' :: (Quoted.hex 4 unit).toList

/-- A code point as one escape, or as a pair of surrogates beyond the first plane. -/
def unicodeEscape (n : Nat) : List Char :=
  if n < 0x10000 then unitEscape n
  else unitEscape (0xD800 + (n - 0x10000) / 0x400) ++ unitEscape (0xDC00 + (n - 0x10000) % 0x400)

/-- Whether a character stands for itself in a string. -/
def isPlain (asciiOnly : Bool) (c : Char) : Bool :=
  0x20 ≤ c.toNat && (!asciiOnly || c.toNat < 0x7F)

/-- A character inside a string. -/
def escape (asciiOnly : Bool) (c : Char) : List Char :=
  if c = '"' then ['\\', '"']
  else if c = '\\' then ['\\', '\\']
  else if c = '\n' then ['\\', 'n']
  else if c = '\r' then ['\\', 'r']
  else if c = '\t' then ['\\', 't']
  else if c.toNat = 0x08 then ['\\', 'b']
  else if c.toNat = 0x0C then ['\\', 'f']
  else if isPlain asciiOnly c then [c]
  else unicodeEscape c.toNat

def quote (asciiOnly : Bool) (s : String) : List Char :=
  '"' :: (s.toList.flatMap (escape asciiOnly) ++ ['"'])

/-- A text given by its code points; what is no character is escaped. -/
def quoteCodes (asciiOnly : Bool) (codes : List Nat) : List Char :=
  let piece (n : Nat) := if n.isValidChar then escape asciiOnly (Char.ofNat n) else unitEscape n
  '"' :: (codes.flatMap piece ++ ['"'])

/-! ### Whole values -/

/-- The text between an opening bracket, an item or a closing bracket. -/
def lineBreak (style : Style) (depth : Nat) : List Char :=
  match style.indent with
  | none => []
  | some width => '\n' :: List.replicate (width * depth) ' '

def nameEnd (style : Style) : List Char :=
  if style.indent.isSome then [':', ' '] else [':']

/-- Items between brackets, each on a line of its own where the style breaks lines. -/
def enclose (style : Style) (depth : Nat) (opening closing : Char) (items : List (List Char)) :
    List Char :=
  if items.isEmpty then [opening, closing] else
  opening :: (lineBreak style (depth + 1) ++
    List.intercalate (',' :: lineBreak style (depth + 1)) items ++
    lineBreak style depth ++ [closing])

mutual

def chars (style : Style) (depth : Nat) : Json → List Char
  | null => "null".toList
  | bool b => (if b then "true" else "false").toList
  | int i => (toString i).toList
  | float d => (renderFloat d).toList
  | string s => quote style.asciiOnly s
  | array items => enclose style depth '[' ']' (itemChars style (depth + 1) items)
  | object members => enclose style depth '\x7b' '\x7d' (memberChars style (depth + 1) members)

def itemChars (style : Style) (depth : Nat) : List Json → List (List Char)
  | [] => []
  | item :: rest => chars style depth item :: itemChars style depth rest

def memberChars (style : Style) (depth : Nat) : List (String × Json) → List (List Char)
  | [] => []
  | (name, value) :: rest =>
    (quote style.asciiOnly name ++ nameEnd style ++ chars style depth value)
      :: memberChars style depth rest

end

/-- The text of a value. -/
def render (style : Style) (j : Json) : String :=
  String.ofList (chars style 0 j)

/-! ### Canonical order -/

mutual

/-- The same value with the members of every object sorted by name. -/
def sortMembers : Json → Json
  | array items => array (sortItems items)
  | object members => object ((sortAll members).mergeSort fun a b => a.1 ≤ b.1)
  | j => j

def sortItems : List Json → List Json
  | [] => []
  | item :: rest => sortMembers item :: sortItems rest

def sortAll : List (String × Json) → List (String × Json)
  | [] => []
  | (name, value) :: rest => (name, sortMembers value) :: sortAll rest

end

mutual

/-- The same value without the members of one name, at every depth. -/
def erase (name : String) : Json → Json
  | array items => array (eraseItems name items)
  | object members => object (eraseMembers name members)
  | j => j

def eraseItems (name : String) : List Json → List Json
  | [] => []
  | item :: rest => erase name item :: eraseItems name rest

def eraseMembers (name : String) : List (String × Json) → List (String × Json)
  | [] => []
  | (n, value) :: rest =>
    if n = name then eraseMembers name rest else (n, erase name value) :: eraseMembers name rest

end

end StructuralTypes.Json

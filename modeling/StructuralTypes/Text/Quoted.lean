import StructuralTypes.Text.CharClass

/-! The quoted form of a text: delimiters, a backslash before the delimiter and
before a backslash, short escapes for tab, line feed and carriage return, and
hexadecimal escapes for the other characters that do not print. -/

namespace StructuralTypes.Quoted

/-- Lower-case hexadecimal digits of a number, padded with zeros to a width. -/
def hex (width n : Nat) : String :=
  let digits := Nat.toDigits 16 n
  String.ofList (List.replicate (width - digits.length) '0' ++ digits)

/-- The shortest of the three hexadecimal escapes that holds the code point. -/
def hexEscape (n : Nat) : String :=
  if n < 0x100 then "\\x" ++ hex 2 n
  else if n < 0x10000 then "\\u" ++ hex 4 n
  else "\\U" ++ hex 8 n

/-- One character between delimiters `quote`, given which characters print. -/
def escapeWith (prints : Char → Bool) (quote c : Char) : String :=
  if c = quote ∨ c = '\\' then String.ofList ['\\', c]
  else if c = '\n' then "\\n"
  else if c = '\r' then "\\r"
  else if c = '\t' then "\\t"
  else if prints c then c.toString
  else hexEscape c.toNat

/-- Single quotes, unless the text holds a single quote and no double quote. -/
def delimiter (text : List Char) : Char :=
  if text.contains '\'' && !text.contains '"' then '"' else '\''

def renderWith (prints : Char → Bool) (text : List Char) : String :=
  let quote := delimiter text
  quote.toString ++ String.join (text.map (escapeWith prints quote)) ++ quote.toString

/-- The quoted form of a text. -/
def render (text : String) : String :=
  renderWith CharClass.isPrintable text.toList

/-- The quoted form of a text given by its code points; what is no character does not
print. -/
def renderCodes (codes : List Nat) : String :=
  let quote := delimiter (codes.map Char.ofNat)
  let piece (n : Nat) :=
    if n.isValidChar then escapeWith CharClass.isPrintable quote (Char.ofNat n) else hexEscape n
  quote.toString ++ String.join (codes.map piece) ++ quote.toString

/-- The quoted form of a byte string, in which only visible ASCII stands for itself. -/
def renderBytes (bytes : List UInt8) : String :=
  "b" ++ renderWith (fun c => 0x20 ≤ c.toNat && c.toNat < 0x7F)
    (bytes.map fun b => Char.ofNat b.toNat)

end StructuralTypes.Quoted

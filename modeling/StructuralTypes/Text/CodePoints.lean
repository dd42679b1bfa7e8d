/-! Texts as code points. Beside characters there are the halves of surrogate pairs,
which stand for no character when they stand alone and together for one beyond the
first plane. -/

namespace StructuralTypes.CodePoints

def isHighHalf (n : Nat) : Bool :=
  0xD800 ≤ n && n < 0xDC00

def isLowHalf (n : Nat) : Bool :=
  0xDC00 ≤ n && n < 0xE000

/-- The code point of two halves. -/
def join (high low : Nat) : Nat :=
  0x10000 + (high - 0xD800) * 0x400 + (low - 0xDC00)

/-- The text of code points that are all characters. -/
def text? (codes : List Nat) : Option String :=
  if codes.all fun n => decide n.isValidChar then some (String.ofList (codes.map Char.ofNat))
  else none

/-- The character of a code point. A half has none, and one of the last private plane
stands in for it. -/
def standIn (n : Nat) : Char :=
  if n.isValidChar then Char.ofNat n else Char.ofNat (n + 0x100000)

/-- A text of as many characters as there are code points. -/
def plainText (codes : List Nat) : String :=
  String.ofList (codes.map standIn)

/-- The characters that code points show: two halves of a pair as one. -/
def shown : List Nat → List Char
  | high :: low :: rest =>
    if isHighHalf high && isLowHalf low then Char.ofNat (join high low) :: shown rest
    else standIn high :: shown (low :: rest)
  | [n] => [standIn n]
  | [] => []

end StructuralTypes.CodePoints

import StructuralTypes.Numeric.Double
import StructuralTypes.Text.CharClass

/-! Numbers written in decimal digits of any script: whole and decimal literals, and
the texts that pass for a number, with blanks around, a sign and an exponent. -/

namespace StructuralTypes.NumberText

open CharClass

/-- The number that digits write. -/
def digitsToNat (digits : List Char) : Nat :=
  digits.foldl (fun n c => 10 * n + (digitValue? c).getD 0) 0

/-- Splits the digits off the front. -/
def spanDigits (s : List Char) : List Char × List Char :=
  (s.takeWhile isDigit, s.dropWhile isDigit)

/-- Splitting off digits loses nothing. -/
theorem spanDigits_append (s : List Char) : (spanDigits s).1 ++ (spanDigits s).2 = s :=
  List.takeWhile_append_dropWhile

theorem isDigit_of_mem_spanDigits {s : List Char} {c : Char} (h : c ∈ (spanDigits s).1) :
    isDigit c = true := by
  rw [spanDigits] at h
  exact List.all_eq_true.1 List.all_takeWhile c h

/-- Drops one final line feed. -/
def dropLineEnd (s : List Char) : List Char :=
  if s.getLast? = some '\n' then s.dropLast else s

/-- The digits of an unsigned whole number; a final line feed is passed over. -/
def wholeDigits? (s : List Char) : Option (List Char) :=
  match spanDigits (dropLineEnd s) with
  | (d :: ds, []) => some (d :: ds)
  | _ => none

/-- An unsigned decimal with digits on both sides of the point; a final line feed is
passed over. -/
def decimal? (s : List Char) : Option Double :=
  match spanDigits (dropLineEnd s) with
  | (d :: ds, '.' :: rest) =>
    match spanDigits rest with
    | (f :: fs, []) =>
      some (.ofDecimal false (digitsToNat (d :: ds ++ f :: fs)) (-((f :: fs).length : Int)))
    | _ => none
  | _ => none

/-- Drops one sign. -/
def dropSign : List Char → List Char
  | '+' :: rest | '-' :: rest => rest
  | s => s

/-- Whether a text is an exponent or nothing. -/
def isExponent : List Char → Bool
  | [] => true
  | e :: rest =>
    (e == 'e' || e == 'E') &&
      match spanDigits (dropSign rest) with
      | (_ :: _, []) => true
      | _ => false

/-- Whether a text without sign and blanks is a number: digits, a point with digits on
either side, or both, then an exponent. -/
def isUnsignedNumber (s : List Char) : Bool :=
  match spanDigits s with
  | ([], '.' :: rest) =>
    !(spanDigits rest).1.isEmpty && isExponent (spanDigits rest).2
  | ([], _) => false
  | (_, '.' :: rest) => isExponent (spanDigits rest).2
  | (_, rest) => isExponent rest

/-- Whether a text passes for a number. -/
def isNumeric (s : List Char) : Bool :=
  let inner := ((s.dropWhile isBlank).reverse.dropWhile isBlank).reverse
  isUnsignedNumber (dropSign inner)

end StructuralTypes.NumberText

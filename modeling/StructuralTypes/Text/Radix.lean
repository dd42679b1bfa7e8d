/-! Digits of bases up to sixteen. -/

namespace StructuralTypes.Radix

/-- The value of a hexadecimal digit of either case. -/
def hexDigit? (c : Char) : Option Nat :=
  if '0' ≤ c ∧ c ≤ '9' then some (c.toNat - 48)
  else if 'a' ≤ c ∧ c ≤ 'f' then some (c.toNat - 87)
  else if 'A' ≤ c ∧ c ≤ 'F' then some (c.toNat - 55)
  else none

/-- The value of a digit of a base. -/
def digit? (base : Nat) (c : Char) : Option Nat :=
  (hexDigit? c).filter (· < base)

/-- The number that digits write, most significant first. -/
def ofDigits (base : Nat) (digits : List Nat) : Nat :=
  digits.foldl (fun n d => base * n + d) 0

/-- The number written by a fixed count of hexadecimal digits, and what follows. -/
def hexNumber? : Nat → List Char → Option (Nat × List Char)
  | count, s =>
    let digits := s.take count
    if digits.length < count then none
    else (digits.mapM hexDigit?).map fun ds => (ofDigits 16 ds, s.drop count)

end StructuralTypes.Radix

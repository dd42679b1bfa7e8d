/-! Binary floating-point numbers of 64 bits, held as their bit pattern so that two
of them are told apart exactly. A finite number is a sign and `mantissa * 2 ^ exponent`
in whole numbers; decimals are read by rounding an exact quotient to the nearest
number, ties to the even mantissa. -/

namespace StructuralTypes

/-- A 64-bit floating-point number, given by its bits. -/
structure Double where
  bits : UInt64
deriving DecidableEq, Inhabited

namespace Double

/-! ### Fields -/

def negative (d : Double) : Bool :=
  Nat.pow 2 63 ≤ d.bits.toNat

def biasedExponent (d : Double) : Nat :=
  d.bits.toNat / Nat.pow 2 52 % Nat.pow 2 11

def fraction (d : Double) : Nat :=
  d.bits.toNat % Nat.pow 2 52

def isFinite (d : Double) : Bool :=
  d.biasedExponent < 2047

def isNaN (d : Double) : Bool :=
  !d.isFinite && d.fraction != 0

/-- The whole-number mantissa of a finite number. -/
def mantissa (d : Double) : Nat :=
  if d.biasedExponent = 0 then d.fraction else Nat.pow 2 52 + d.fraction

/-- The power of two that scales the mantissa of a finite number. -/
def exponent (d : Double) : Int :=
  (max d.biasedExponent 1 : Nat) - 1075

def isZero (d : Double) : Bool :=
  d.isFinite && d.mantissa == 0

def ofFields (negative : Bool) (biased fraction : Nat) : Double :=
  ⟨UInt64.ofNat ((if negative then Nat.pow 2 63 else 0) + biased * Nat.pow 2 52 + fraction)⟩

def zero (negative : Bool) : Double :=
  ofFields negative 0 0

def infinity (negative : Bool) : Double :=
  ofFields negative 2047 0

def nan : Double :=
  ofFields false 2047 (Nat.pow 2 51)

/-! ### Comparison -/

/-- Numeric equality: a NaN equals nothing and the two zeros are equal. -/
def eqv (a b : Double) : Bool :=
  !a.isNaN && !b.isNaN && (a == b || (a.isZero && b.isZero))

/-- Whether a number is exactly an integer. -/
def eqInt (d : Double) (i : Int) : Bool :=
  d.isFinite && d.negative == decide (i < 0) && (
    match d.exponent with
    | .ofNat e => d.mantissa * Nat.pow 2 e == i.natAbs
    | .negSucc e => d.mantissa == i.natAbs * Nat.pow 2 (e + 1))
  || d.isZero && i == 0

/-! ### Rounding a quotient -/

/-- A quotient rounded to the nearest whole number, a tie to the even one. -/
def roundDiv (num den : Nat) : Nat :=
  let q := num / den
  let r := num % den
  if 2 * r < den then q else if den < 2 * r then q + 1 else q + q % 2

/-- `num / (den * 2 ^ e)`, rounded to a whole number. -/
def scaledMantissa (num den : Nat) : Int → Nat
  | .ofNat e => roundDiv num (den * Nat.pow 2 e)
  | .negSucc e => roundDiv (num * Nat.pow 2 (e + 1)) den

/-- Whether `num / den` is below `2 ^ e`. -/
def ratioBelow (num den : Nat) : Int → Bool
  | .ofNat e => num < den * Nat.pow 2 e
  | .negSucc e => num * Nat.pow 2 (e + 1) < den

/-- The exponent of the spacing at `num / den`: mantissas there have 53 bits, fewer
only at the smallest exponent. -/
def spacing (num den : Nat) : Int :=
  let guess : Int := (num.log2 : Int) - den.log2
  max (if ratioBelow num den guess then guess - 53 else guess - 52) (-1074)

/-- The number nearest to `num / den`. -/
def ofRatio (negative : Bool) (num den : Nat) : Double :=
  if num = 0 then zero negative else
  let e := spacing num den
  let m := scaledMantissa num den e
  let (m, e) := if m = Nat.pow 2 53 then (Nat.pow 2 52, e + 1) else (m, e)
  if m < Nat.pow 2 52 then ofFields negative 0 m
  else if 971 < e then infinity negative
  else ofFields negative (e + 1075).toNat (m - Nat.pow 2 52)

/-- The number nearest to `digits * 10 ^ power`. Far outside the range of finite
numbers the answer is given without forming the power. -/
def ofDecimal (negative : Bool) (digits : Nat) (power : Int) : Double :=
  let magnitude : Int := power + (Nat.toDigits 10 digits).length
  if digits = 0 ∨ magnitude < -330 then zero negative
  else if 320 < magnitude then infinity negative
  else match power with
    | .ofNat p => ofRatio negative (digits * Nat.pow 10 p) 1
    | .negSucc p => ofRatio negative digits (Nat.pow 10 (p + 1))

def ofNat (n : Nat) : Double :=
  ofRatio false n 1

/-! ### Magnitudes -/

/-- The magnitude of a finite number as a quotient. -/
def ratio (d : Double) : Nat × Nat :=
  match d.exponent with
  | .ofNat e => (d.mantissa * Nat.pow 2 e, 1)
  | .negSucc e => (d.mantissa, Nat.pow 2 (e + 1))

/-- The rounded sum of two magnitudes. -/
def addMagnitude (a b : Double) : Double :=
  if a.isFinite && b.isFinite then
    ofRatio false (a.ratio.1 * b.ratio.2 + b.ratio.1 * a.ratio.2) (a.ratio.2 * b.ratio.2)
  else infinity false

/-- The rounded product of two magnitudes. -/
def mulMagnitude (a b : Double) : Double :=
  if a.isFinite && b.isFinite then
    ofRatio false (a.ratio.1 * b.ratio.1) (a.ratio.2 * b.ratio.2)
  else infinity false

/-- The magnitude of a number under a sign. -/
def withSign (negative : Bool) (d : Double) : Double :=
  ofFields negative d.biasedExponent d.fraction

end Double

end StructuralTypes

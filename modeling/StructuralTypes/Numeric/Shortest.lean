import StructuralTypes.Numeric.Double

/-! The shortest decimal text of a floating-point number: the fewest digits that
round back to it and, among those, the nearest. All comparisons are between whole
numbers. A `Layout` then fixes how digits and exponent are written. -/

namespace StructuralTypes.Shortest

/-- Decimal digits, most significant first, and the power of ten of the first. -/
structure Digits where
  digits : List Char
  leading : Int
deriving DecidableEq

/-! ### Choosing the digits -/

/-- The reals that round to a positive number, over a common denominator: a point
`d * 10 ^ power` lies between when `low ≤ d * unit ≤ high`. -/
structure Interval where
  low : Nat
  value : Nat
  high : Nat
  closed : Bool

/-- Four times the mantissa, and the halfway points to both neighbours; the lower
neighbour of a power of two is nearer by half. -/
def interval (d : Double) : Interval :=
  let m := d.mantissa
  { low := if m = Nat.pow 2 52 ∧ 1 < d.biasedExponent then 4 * m - 1 else 4 * m - 2
    value := 4 * m
    high := 4 * m + 2
    closed := m % 2 == 0 }

def Interval.scale (i : Interval) (k : Nat) : Interval :=
  { i with low := i.low * k, value := i.value * k, high := i.high * k }

def Interval.holds (i : Interval) (n : Nat) : Bool :=
  if i.closed then i.low ≤ n && n ≤ i.high else i.low < n && n < i.high

/-- A power split into its whole part and the whole part of its inverse. -/
def splitPower (base : Nat) : Int → Nat × Nat
  | .ofNat e => (Nat.pow base e, 1)
  | .negSucc e => (1, Nat.pow base (e + 1))

/-- The multiple of `10 ^ power` that rounds to the number, the nearer of two. -/
def onGrid? (d : Double) (power : Int) : Option Nat :=
  let (twoNum, twoDen) := splitPower 2 (d.exponent - 2)
  let (tenNum, tenDen) := splitPower 10 power
  let i := (interval d).scale (twoNum * tenDen)
  let unit := twoDen * tenNum
  let below := i.value / unit
  let above := below + 1
  match i.holds (below * unit), i.holds (above * unit) with
  | true, true =>
    let gap := i.value - below * unit
    if 2 * gap < unit then some below
    else if unit < 2 * gap then some above
    else some (below + below % 2)
  | true, false => some below
  | false, true => some above
  | false, false => none

/-- The power of ten of the first digit of a positive number. -/
def leadingPower (d : Double) : Int :=
  let (num, den) := splitPower 2 d.exponent
  ((Nat.toDigits 10 (d.mantissa * num * Nat.pow 10 350 / den)).length : Int) - 351

def trimZeros (digits : List Char) : List Char :=
  (digits.reverse.dropWhile (· == '0')).reverse

/-- The first grid with a hit, from one digit to the seventeen that always suffice. -/
def search (d : Double) (leading : Int) : Digits :=
  let hit := (List.range 18).findSome? fun (n : Nat) =>
    let power := leading - n
    (onGrid? d power).map fun (k : Nat) => (k, power)
  match hit with
  | some (k, power) =>
    let digits := Nat.toDigits 10 k
    { digits := trimZeros digits, leading := power + digits.length - 1 }
  | none => { digits := ['0'], leading := 0 }

/-- The digits of a finite number, its sign left out. -/
def digits (d : Double) : Digits :=
  if d.mantissa = 0 then { digits := ['0'], leading := 0 } else search d (leadingPower d)

/-! ### Writing them down -/

/-- The decisions of a number format. -/
structure Layout where
  /-- Numbers whose first digit stands for this power of ten or more are written without
  an exponent. -/
  positionalFrom : Int
  /-- From this power on an exponent is written again. -/
  exponentFrom : Int
  /-- The least number of digits of an exponent. -/
  exponentWidth : Nat
  nan : String
  infinity : String

/-- Positional digits, always with a point and a digit after it. -/
def positional (digits : List Char) : Int → List Char
  | .ofNat p =>
    let whole := digits.take (p + 1)
    let rest := digits.drop (p + 1)
    whole ++ List.replicate (p + 1 - whole.length) '0'
      ++ '.' :: (if rest.isEmpty then ['0'] else rest)
  | .negSucc p => '0' :: '.' :: List.replicate p '0' ++ digits

/-- One digit, the others after a point, and a signed exponent. -/
def scientific (width : Nat) (digits : List Char) (leading : Int) : List Char :=
  let magnitude := Nat.toDigits 10 leading.natAbs
  digits.take 1 ++ (if digits.length ≤ 1 then [] else '.' :: digits.drop 1)
    ++ 'e' :: (if leading < 0 then '-' else '+')
    :: (List.replicate (width - magnitude.length) '0' ++ magnitude)

/-- The text of a number under a layout. -/
def render (layout : Layout) (d : Double) : String :=
  if d.isNaN then layout.nan else
  let sign := if d.negative then "-" else ""
  if !d.isFinite then sign ++ layout.infinity else
  let s := digits d
  let body := if layout.positionalFrom ≤ s.leading ∧ s.leading < layout.exponentFrom
    then positional s.digits s.leading
    else scientific layout.exponentWidth s.digits s.leading
  sign ++ String.ofList body

end StructuralTypes.Shortest

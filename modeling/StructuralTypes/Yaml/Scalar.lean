import StructuralTypes.Text.Radix
import StructuralTypes.Text.Split
import StructuralTypes.Value
import StructuralTypes.Yaml

/-! The values of unquoted scalars. A text that is spelled like null, a truth value, a
number, a day or a point in time is that value; every other text is itself. Underscores
may stand between digits, a leading zero marks octal, and colons separate digits of base
60. -/

namespace StructuralTypes.Yaml.Scalar

/-! ### Words -/

def nullWords : List String := ["~", "null", "Null", "NULL", ""]

def trueWords : List String := ["yes", "Yes", "YES", "true", "True", "TRUE", "on", "On", "ON"]

def falseWords : List String := ["no", "No", "NO", "false", "False", "FALSE", "off", "Off", "OFF"]

/-- Texts that stand for an instruction and have no value of their own. -/
def instructions : List String := ["=", "<<", "!", "&", "*"]

def infinityWords : List String := [".inf", ".Inf", ".INF"]

def nanWords : List String := [".nan", ".NaN", ".NAN"]

/-! ### Digits -/

def isDecimal (c : Char) : Bool :=
  '0' ≤ c && c ≤ '9'

def isDecimalOrGap (c : Char) : Bool :=
  isDecimal c || c == '_'

/-- A sign and what follows it. -/
def splitSign : List Char → Bool × List Char
  | '-' :: rest => (true, rest)
  | '+' :: rest => (false, rest)
  | s => (false, s)

/-- The digits of a base in a text of digits and gaps. -/
def digitsOf? (base : Nat) (s : List Char) : Option (List Nat) :=
  if s.isEmpty then none else (s.filter (· != '_')).mapM (Radix.digit? base)

/-- One of the later digits of base 60. -/
def sixtieth? : List Char → Option Nat
  | [d] => Radix.digit? 10 d
  | [t, d] => do some (10 * (← Radix.digit? 6 t) + (← Radix.digit? 10 d))
  | _ => none

/-! ### Whole numbers -/

/-- A number whose base is written before it. -/
def marked? (base : Nat) (s : List Char) : Option (Except Fault Nat) :=
  (digitsOf? base s).map fun ds =>
    if ds.isEmpty then throw (.noDigits base) else return Radix.ofDigits base ds

/-- Decimal digits, or digits of base 60 between colons. -/
def unmarked? (s : List Char) : Option (Except Fault Nat) :=
  match Split.fields ':' s with
  | [] => none
  | first :: rest => do
    let first ← digitsOf? 10 first
    let rest ← rest.mapM sixtieth?
    some (if Overlong.limit < first.length then throw (.tooManyDigits first.length)
      else return Radix.ofDigits 60 (Radix.ofDigits 10 first :: rest))

/-- The magnitude of a whole number. -/
def whole? : List Char → Option (Except Fault Nat)
  | ['0'] => some (return 0)
  | '0' :: 'b' :: s => marked? 2 s
  | '0' :: 'x' :: s => marked? 16 s
  | '0' :: s => (digitsOf? 8 s).map fun ds => return Radix.ofDigits 8 ds
  | c :: s => if isDecimal c then unmarked? (c :: s) else none
  | [] => none

/-! ### Numbers with a point -/

/-- A signed exponent, or none. -/
def exponent? : List Char → Option Int
  | [] => some 0
  | e :: sign :: d :: ds =>
    if (e == 'e' || e == 'E') && (sign == '+' || sign == '-') then do
      let ds ← (d :: ds).mapM (Radix.digit? 10)
      let n : Int := Radix.ofDigits 10 ds
      some (if sign == '-' then -n else n)
    else none
  | _ => none

/-- A decimal from its digits before and after the point. -/
def decimal (whole fraction : List Char) (exponent : Int) : Double :=
  let fraction := fraction.filter (· != '_')
  let digits := (whole.filter (· != '_') ++ fraction).filterMap (Radix.digit? 10)
  .ofDecimal false (Radix.ofDigits 10 digits) (exponent - fraction.length)

/-- The value of digits of base 60, least significant first, in floating point. -/
def sexagesimal (digits : List Double) : Double :=
  (digits.foldl (fun (p : Double × Nat) d =>
    (p.1.addMagnitude (d.mulMagnitude (.ofNat p.2)), 60 * p.2)) (.zero false, 1)).1

/-- The magnitude of a number whose whole part is given. -/
def pointed? (whole rest : List Char) : Option Double :=
  match rest with
  | '.' :: rest =>
    (exponent? (rest.dropWhile isDecimalOrGap)).map
      (decimal whole (rest.takeWhile isDecimalOrGap))
  | ':' :: rest =>
    let last := (Split.fields ':' rest).getLastD []
    let middle := (Split.fields ':' rest).dropLast
    match Split.cut? '.' last with
    | none => none
    | some (seconds, fraction) =>
      if fraction.all isDecimalOrGap then do
        let middle ← middle.mapM sixtieth?
        let _ ← sixtieth? seconds
        some (sexagesimal (decimal seconds fraction 0 ::
          (middle.reverse.map .ofNat ++ [decimal whole [] 0])))
      else none
  | _ => none

/-- The value of a number with a point, or of a word for an infinity or no number. -/
def float? (s : List Char) : Option Double :=
  let (negative, magnitude) := splitSign s
  if nanWords.contains (String.ofList s) then some .nan
  else if infinityWords.contains (String.ofList magnitude) then some (.infinity negative)
  else match magnitude with
    | [] => none
    | c :: _ =>
      if isDecimal c then
        (pointed? (magnitude.takeWhile isDecimalOrGap) (magnitude.dropWhile isDecimalOrGap)).map
          (.withSign negative)
      else match s with
        | '.' :: d :: _ => if isDecimal d then pointed? [] s else none
        | _ => none

/-! ### Dates and times -/

/-- A decimal number of a few digits with no digit behind it, and what follows. -/
def takeNumber? (least most : Nat) (s : List Char) : Option (Nat × List Char) :=
  let run := s.takeWhile isDecimal
  if least ≤ run.length && run.length ≤ most then
    some (Radix.ofDigits 10 (run.filterMap (Radix.digit? 10)), s.dropWhile isDecimal)
  else none

/-- What follows a character. -/
def behind? (c : Char) (s : List Char) : Option (List Char) :=
  if s.head? == some c then some (s.drop 1) else none

/-- Whether a day is one of the calendar. -/
def checkDay (year month day : Nat) : Except Fault Unit := do
  if year = 0 then throw (.yearOutOfRange year)
  if month = 0 ∨ 12 < month then throw .monthOutOfRange
  if day = 0 ∨ Moment.daysIn year month < day then throw .dayOutOfRange

def checkTime (hour minute second : Nat) : Except Fault Unit := do
  if 24 ≤ hour then throw .hourOutOfRange
  if 60 ≤ minute then throw .minuteOutOfRange
  if 60 ≤ second then throw .secondOutOfRange

/-- Whether a distance is shorter than a day. -/
def checkOffset (offset : Option Int) : Except Fault Unit :=
  match offset with
  | some minutes =>
    if 1440 ≤ minutes.natAbs then throw (.offsetOutOfRange minutes) else return ()
  | none => return ()

/-- Year, month and day between hyphens, and what follows. -/
def takeDay? (s : List Char) : Option ((Nat × Nat × Nat) × List Char) := do
  let (year, s) ← takeNumber? 4 4 s
  let (month, s) ← takeNumber? 1 2 (← behind? '-' s)
  let (day, s) ← takeNumber? 1 2 (← behind? '-' s)
  some ((year, month, day), s)

/-- Hours, minutes and seconds between colons, and what follows. -/
def takeTime? (s : List Char) : Option ((Nat × Nat × Nat) × List Char) := do
  let (hour, s) ← takeNumber? 1 2 s
  let (minute, s) ← takeNumber? 2 2 (← behind? ':' s)
  let (second, s) ← takeNumber? 2 2 (← behind? ':' s)
  some ((hour, minute, second), s)

/-- What stands between a day and a time. -/
def dropTimeMark? : List Char → Option (List Char)
  | 'T' :: rest | 't' :: rest => some rest
  | c :: rest =>
    if c == ' ' || c == '\t' then some (rest.dropWhile fun c => c == ' ' || c == '\t') else none
  | [] => none

/-- Microseconds from the digits behind a point, if there are any, and what follows. -/
def takeFraction : List Char → Nat × List Char
  | '.' :: rest =>
    let digits := ((rest.takeWhile isDecimal).filterMap (Radix.digit? 10)).take 6
    (Radix.ofDigits 10 (digits ++ List.replicate (6 - digits.length) 0), rest.dropWhile isDecimal)
  | s => (0, s)

/-- The distance from universal time in minutes, if it is written. -/
def offset? (s : List Char) : Option (Option Int) :=
  match s.dropWhile fun c => c == ' ' || c == '\t' with
  | [] => if s.isEmpty then some none else none
  | ['Z'] => some (some 0)
  | sign :: rest =>
    if sign == '+' || sign == '-' then do
      let (hours, rest) ← takeNumber? 1 2 rest
      let (minutes, rest) ←
        if rest.isEmpty then some (0, []) else takeNumber? 2 2 (← behind? ':' rest)
      let distance : Int := 60 * hours + minutes
      if rest.isEmpty then some (some (if sign == '-' then -distance else distance)) else none
    else none

/-- A day, written with four, two and two digits. -/
def date? (s : List Char) : Option (Except Fault Value) := do
  let ((year, month, day), rest) ← takeDay? s
  if s.length ≠ 10 || !rest.isEmpty then none
  some do
    checkDay year month day
    return .date year month day

/-- A day with a time. -/
def moment? (s : List Char) : Option (Except Fault Value) := do
  let ((year, month, day), s) ← takeDay? s
  let ((hour, minute, second), s) ← takeTime? (← dropTimeMark? s)
  let (microsecond, s) := takeFraction s
  let offset ← offset? s
  some do
    checkOffset offset
    checkDay year month day
    checkTime hour minute second
    return .moment { year, month, day, hour, minute, second, microsecond, offset }

/-! ### All scalars -/

/-- A whole number as a value. -/
def int? (s : List Char) : Option (Except Fault Value) :=
  let (negative, magnitude) := splitSign s
  (whole? magnitude).map fun n => n.map fun n => .int (if negative then -(n : Int) else n)

/-- The value of an unquoted scalar. -/
def value (text : String) : Except Fault Value :=
  let s := text.toList
  if nullWords.contains text then return .null
  else if trueWords.contains text then return .bool true
  else if falseWords.contains text then return .bool false
  else if instructions.contains text then throw .malformed
  else match float? s, ((int? s).or (date? s)).or (moment? s) with
    | some d, _ => return .float d
    | none, some v => v
    | none, none => return .text text

end StructuralTypes.Yaml.Scalar

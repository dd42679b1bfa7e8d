/-! Points in time: a day of the calendar with a time of day to the microsecond, and
where it is known the distance from universal time. -/

namespace StructuralTypes

structure Moment where
  year : Nat
  month : Nat
  day : Nat
  hour : Nat
  minute : Nat
  second : Nat
  microsecond : Nat
  /-- Minutes ahead of universal time. -/
  offset : Option Int
deriving DecidableEq, Inhabited

namespace Moment

/-! ### The calendar -/

def isLeapYear (year : Nat) : Bool :=
  year % 4 == 0 && (year % 100 != 0 || year % 400 == 0)

def daysIn (year month : Nat) : Nat :=
  if month = 2 then (if isLeapYear year then 29 else 28)
  else if month = 4 ∨ month = 6 ∨ month = 9 ∨ month = 11 then 30
  else 31

/-! ### Texts -/

/-- A number with leading zeros. -/
def padded (width n : Nat) : String :=
  let digits := Nat.toDigits 10 n
  String.ofList (List.replicate (width - digits.length) '0' ++ digits)

def dayLabel (year month day : Nat) : String :=
  padded 4 year ++ "-" ++ padded 2 month ++ "-" ++ padded 2 day

/-- A distance in minutes as whole days, rounded down, and seconds; parts that are zero
are left out. -/
def displayDistance (minutes : Int) : String :=
  let days := minutes.fdiv 1440
  let seconds := minutes.fmod 1440 * 60
  let parts := (if days = 0 then [] else ["days=" ++ toString days])
    ++ (if seconds = 0 then [] else ["seconds=" ++ toString seconds])
  "datetime.timedelta(" ++ (if parts.isEmpty then "0" else ", ".intercalate parts) ++ ")"

def displayOffset (minutes : Int) : String :=
  if minutes = 0 then "datetime.timezone.utc"
  else "datetime.timezone(" ++ displayDistance minutes ++ ")"

/-- The display form: seconds and smaller parts are left out where they are zero. -/
def display (m : Moment) : String :=
  let small := if m.microsecond ≠ 0 then [m.second, m.microsecond]
    else if m.second ≠ 0 then [m.second] else []
  let fields := ([m.year, m.month, m.day, m.hour, m.minute] ++ small).map fun n => toString n
  let offset := (m.offset.map fun o => "tzinfo=" ++ displayOffset o).toList
  "datetime.datetime(" ++ ", ".intercalate (fields ++ offset) ++ ")"

/-- Hours and minutes with a sign. -/
def offsetLabel (minutes : Int) : String :=
  (if minutes < 0 then "-" else "+") ++ padded 2 (minutes.natAbs / 60) ++ ":"
    ++ padded 2 (minutes.natAbs % 60)

def label (m : Moment) : String :=
  dayLabel m.year m.month m.day ++ " " ++ padded 2 m.hour ++ ":" ++ padded 2 m.minute ++ ":"
    ++ padded 2 m.second
    ++ (if m.microsecond = 0 then "" else "." ++ padded 6 m.microsecond)
    ++ (m.offset.map offsetLabel).getD ""

end Moment

end StructuralTypes

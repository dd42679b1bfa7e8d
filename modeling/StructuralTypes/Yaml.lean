import StructuralTypes.Moment
import StructuralTypes.Numeric.Overlong

/-! YAML documents as trees. A scalar keeps its text and whether it was quoted, for only
an unquoted text can stand for something other than itself. -/

namespace StructuralTypes

/-- A node of a document. -/
inductive Yaml where
  | plain (text : String)
  /-- A text between quotes or in a block, by its code points. -/
  | quoted (codes : List Nat)
  | sequence (items : List Yaml)
  | mapping (entries : List (Yaml × Yaml))
  /-- A node that names the kind of its value. -/
  | tagged (tag : String) (node : Yaml)
deriving Inhabited

namespace Yaml

/-- A missing node stands for null. -/
def blank : Yaml := .plain ""

/-- Why a text has no value as a document. -/
inductive Fault where
  /-- The text is no document, or a part of it can have no value. -/
  | malformed
  /-- A number with a base but without digits. -/
  | noDigits (base : Nat)
  | tooManyDigits (count : Nat)
  | yearOutOfRange (year : Nat)
  | monthOutOfRange
  | dayOutOfRange
  | hourOutOfRange
  | minuteOutOfRange
  | secondOutOfRange
  /-- A distance from universal time of a day or more, in minutes. -/
  | offsetOutOfRange (minutes : Int)
  /-- An escape beyond the last code point. -/
  | noCodePoint
  /-- An escape beyond what a machine integer holds. -/
  | hugeCodePoint
deriving DecidableEq

/-- Ill-formed documents are reported alike, wherever they break off. -/
def Fault.message : Fault → String
  | malformed => "<yaml>"
  | noDigits base => "invalid literal for int() with base " ++ toString base ++ ": ''"
  | tooManyDigits count => (Overlong.read count).message
  | yearOutOfRange year => "year " ++ toString year ++ " is out of range"
  | monthOutOfRange => "month must be in 1..12"
  | dayOutOfRange => "day is out of range for month"
  | hourOutOfRange => "hour must be in 0..23"
  | minuteOutOfRange => "minute must be in 0..59"
  | secondOutOfRange => "second must be in 0..59"
  | offsetOutOfRange minutes =>
    "offset must be a timedelta strictly between -timedelta(hours=24) and timedelta(hours=24), not "
      ++ Moment.displayDistance minutes ++ "."
  | noCodePoint => "chr() arg not in range(0x110000)"
  | hugeCodePoint => "Python int too large to convert to C int"

end Yaml

end StructuralTypes

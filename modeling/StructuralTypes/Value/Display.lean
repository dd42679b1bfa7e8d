import StructuralTypes.Value
import StructuralTypes.Numeric.Overlong
import StructuralTypes.Numeric.Shortest
import StructuralTypes.Text.CodePoints
import StructuralTypes.Text.Quoted

/-! Two texts of a value: its display form, in which texts are quoted and containers
are spelled out, and its label, which is the text itself for a text. Instances, functions
and classes bring both along. -/

namespace StructuralTypes.Value

/-- Positional from 0.0001 below 10 to the 16th, a point always, two exponent digits. -/
def numberLayout : Shortest.Layout :=
  { positionalFrom := -4, exponentFrom := 16, exponentWidth := 2, nan := "nan", infinity := "inf" }

def displayFloat (d : Double) : String :=
  Shortest.render numberLayout d

/-- A part of a complex number, its `.0` left out. -/
def displayPart (d : Double) : String :=
  let s := displayFloat d
  if s.endsWith ".0" then (s.dropEnd 2).toString else s

def displayComplex (re im : Double) : String :=
  let imaginary := displayPart im ++ "j"
  if re.isZero && !re.negative then imaginary
  else "(" ++ displayPart re ++ (if im.negative then "" else "+") ++ imaginary ++ ")"

def bracketed (opening : String) (items : List String) (closing : String) : String :=
  opening ++ ", ".intercalate items ++ closing

mutual

/-- The display form of a value. -/
def display : Value → String
  | undefined => "UNDEFINED"
  | null => "None"
  | bool b => if b then "True" else "False"
  | int i => toString i
  | float d => displayFloat d
  | complex re im => displayComplex re im
  | text s => Quoted.render s
  | rawText codes => Quoted.renderCodes codes
  | bytes content => Quoted.renderBytes content
  | byteArray content => "bytearray(" ++ Quoted.renderBytes content ++ ")"
  | list items => bracketed "[" (displayAll items) "]"
  | tuple [item] => "(" ++ display item ++ ",)"
  | tuple items => bracketed "(" (displayAll items) ")"
  | mapping entries => bracketed "\x7b" (displayEntries entries) "\x7d"
  | set [] => "set()"
  | set items => bracketed "\x7b" (displayAll items) "\x7d"
  | frozenSet [] => "frozenset()"
  | frozenSet items => bracketed "frozenset(\x7b" (displayAll items) "\x7d)"
  | object face _ | record face _ | closed face | function face | type face _ =>
    face.display.getD ""
  | date y m d => "datetime.date(" ++ toString y ++ ", " ++ toString m ++ ", " ++ toString d ++ ")"
  | moment m => m.display

def displayAll : List Value → List String
  | [] => []
  | item :: rest => display item :: displayAll rest

def displayEntries : List (Value × Value) → List String
  | [] => []
  | (key, item) :: rest => (display key ++ ": " ++ display item) :: displayEntries rest

end

/-- Whether a value is a number with more digits than are written. -/
def isOverlong : Value → Bool
  | int i => Overlong.exceeds i.natAbs
  | _ => false

mutual

/-- Whether the display form of a value would have to write such a number. -/
def showsOverlong : Value → Bool
  | list items | tuple items | set items | frozenSet items => anyOverlong items
  | mapping entries => anyOverlongEntry entries
  | object face _ | record face _ | closed face | function face | type face _ =>
    face.display.isNone
  | v => v.isOverlong

def anyOverlong : List Value → Bool
  | [] => false
  | item :: rest => showsOverlong item || anyOverlong rest

def anyOverlongEntry : List (Value × Value) → Bool
  | [] => false
  | (key, item) :: rest => showsOverlong key || showsOverlong item || anyOverlongEntry rest

end

/-- The label of a value: a text stands for itself. -/
def label : Value → String
  | text s => s
  | rawText codes => CodePoints.plainText codes
  | date y m d => Moment.dayLabel y m d
  | moment m => m.label
  | object face _ | record face _ | closed face | function face | type face _ =>
    face.label.getD ""
  | v => display v

/-- Whether the label of a value would have to write a number with too many digits. -/
def labelsOverlong : Value → Bool
  | object face _ | record face _ | closed face | function face | type face _ =>
    face.label.isNone
  | v => v.showsOverlong

end StructuralTypes.Value

import StructuralTypes.Moment
import StructuralTypes.Numeric.Double
import StructuralTypes.Text.CodePoints

/-! The dynamic values that annotations are checked against: absent arguments,
scalars, containers, and instances of classes seen through their attributes. The
structural questions that validators ask of a value are answered here, so that all
of them agree. -/

namespace StructuralTypes

/-- The texts that a class gives its instances, or a function or a class has itself. There is
none where a number with too many digits would have to be written. -/
structure Face where
  display : Option String
  label : Option String

/-- A value of no declared type. -/
inductive Value where
  /-- Stands for an argument that was not supplied. -/
  | undefined
  | null
  | bool (b : Bool)
  | int (i : Int)
  | float (d : Double)
  | complex (re im : Double)
  | text (s : String)
  /-- A text with halves of surrogate pairs in it, by its code points. -/
  | rawText (codes : List Nat)
  | bytes (content : List UInt8)
  | byteArray (content : List UInt8)
  | list (items : List Value)
  | tuple (items : List Value)
  | mapping (entries : List (Value × Value))
  | set (items : List Value)
  | frozenSet (items : List Value)
  /-- An instance of an ordinary class with its attributes. -/
  | object (face : Face) (attributes : List (String × Value))
  /-- An instance of a class that declares its fields. -/
  | record (face : Face) (fields : List (String × Value))
  /-- An instance that shows no attributes. -/
  | closed (face : Face)
  | function (face : Face)
  /-- A class itself, ordinary or declaring fields. -/
  | type (face : Face) (declaresFields : Bool)
  | date (year month day : Nat)
  | moment (m : Moment)
deriving Inhabited

namespace Value

/-- Null, or an argument that was not supplied. -/
def isMissing : Value → Bool
  | undefined | null => true
  | _ => false

def isNull : Value → Bool
  | null => true
  | _ => false

def isText : Value → Bool
  | text _ | rawText _ => true
  | _ => false

def isBool : Value → Bool
  | bool _ => true
  | _ => false

/-- Whole numbers; truth values are none. -/
def isInt : Value → Bool
  | int _ => true
  | _ => false

def isFloat : Value → Bool
  | float _ => true
  | _ => false

def isNumber (v : Value) : Bool :=
  v.isInt || v.isFloat

/-- Positional containers. -/
def isSequence : Value → Bool
  | list _ | tuple _ => true
  | _ => false

/-- Containers whose items an array type checks. -/
def isArrayLike : Value → Bool
  | list _ | tuple _ | mapping _ => true
  | _ => false

/-- Instances seen through their attributes, neither scalars nor containers. -/
def isObjectLike : Value → Bool
  | object .. | record .. | closed _ | function _ | date .. | moment _ => true
  | _ => false

/-- Items keyed by their positions. -/
def positions (items : List Value) : List (Value × Value) :=
  items.zipIdx.map fun p => (.int p.2, p.1)

/-- The items of a positional container. -/
def elements? : Value → Option (List Value)
  | list items | tuple items => some items
  | _ => none

/-- A key by what it shows: a text in which characters stand in for the halves of pairs. -/
def plainKey : Value → Value
  | rawText codes => text (CodePoints.plainText codes)
  | v => v

/-- The keyed items of an indexable container. -/
def entries? : Value → Option (List (Value × Value))
  | list items | tuple items => some (positions items)
  | mapping entries => some (entries.map fun p => (p.1.plainKey, p.2))
  | _ => none

/-- The keyed items that a shape inspects. Attributes that begin with an underscore
are private, declared fields never are. -/
def observed : Value → List (Value × Value)
  | list items | tuple items => positions items
  | mapping entries => entries.map fun p => (p.1.plainKey, p.2)
  | object _ attributes =>
    (attributes.filter (fun p => !p.1.startsWith "_")).map fun p => (.text p.1, p.2)
  | record _ fields => fields.map fun p => (.text p.1, p.2)
  | _ => []

/-- Whether a value counts as true where only truth matters. -/
def truthy : Value → Bool
  | undefined | null => false
  | bool b => b
  | int i => i != 0
  | float d => !d.isZero
  | complex re im => !(re.isZero && im.isZero)
  | text s => !s.isEmpty
  | rawText codes => !codes.isEmpty
  | bytes content | byteArray content => !content.isEmpty
  | list items | tuple items | set items | frozenSet items => !items.isEmpty
  | mapping entries => !entries.isEmpty
  | _ => true

/-! ### Keys of mappings -/

/-- A truth value or whole number as an integer. -/
def asInt? : Value → Option Int
  | bool b => some (if b then 1 else 0)
  | int i => some i
  | _ => none

/-- Equality of numbers across their kinds: true, 1 and 1.0 are one key. -/
def sameNumber (a b : Value) : Bool :=
  match a.asInt?, b.asInt?, a, b with
  | some i, some j, _, _ => i == j
  | some i, none, _, float d => d.eqInt i
  | none, some j, float d, _ => d.eqInt j
  | none, none, float d, float e => d.eqv e
  | some i, none, _, complex re im => re.eqInt i && im.isZero
  | none, some j, complex re im, _ => re.eqInt j && im.isZero
  | none, none, float d, complex re im => d.eqv re && im.isZero
  | none, none, complex re im, float d => d.eqv re && im.isZero
  | none, none, complex re im, complex re' im' => re.eqv re' && im.eqv im'
  | _, _, _, _ => false

mutual

/-- Whether two values are the same key of a mapping. -/
def sameKey : Value → Value → Bool
  | undefined, undefined | null, null => true
  | text s, text t => s == t
  | rawText x, rawText y => x == y
  | bytes x, bytes y => x == y
  | date y m d, date y' m' d' => y == y' && m == m' && d == d'
  | moment m, moment n => m == n
  | tuple xs, tuple ys => sameKeys xs ys
  | a, b => sameNumber a b

def sameKeys : List Value → List Value → Bool
  | [], [] => true
  | x :: xs, y :: ys => sameKey x y && sameKeys xs ys
  | _, _ => false

end

/-- The item stored under a key. -/
def lookup? (key : Value) (entries : List (Value × Value)) : Option Value :=
  (entries.find? fun p => sameKey p.1 key).map (·.2)

/-- Stores an item under a key: in place when the key is known, else at the end. -/
def insertEntry (key item : Value) : List (Value × Value) → List (Value × Value)
  | [] => [(key, item)]
  | p :: rest => if sameKey p.1 key then (p.1, item) :: rest else p :: insertEntry key item rest

/-- The word for the kind of a value in messages about arguments. -/
def kindName : Value → String
  | undefined => "_Undefined"
  | null => "NoneType"
  | bool _ => "bool"
  | int _ => "int"
  | float _ => "float"
  | complex .. => "complex"
  | text _ | rawText _ => "str"
  | bytes _ => "bytes"
  | byteArray _ => "bytearray"
  | list _ => "list"
  | tuple _ => "tuple"
  | mapping _ => "dict"
  | set _ => "set"
  | frozenSet _ => "frozenset"
  | object .. | record .. | closed _ => "object"
  | function _ => "function"
  | type .. => "type"
  | date .. => "date"
  | moment _ => "datetime"

end Value

end StructuralTypes

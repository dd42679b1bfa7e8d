import StructuralTypes.Failure
import StructuralTypes.Numeric.Overlong

/-! The ways in which reading, compiling or using a type can go wrong other than by
refusing a value. A fault in an annotated type carries its cause and, once known, the
text it was found in; misuse is an argument of the wrong kind; what foreign code
raises is passed on as it is. -/

namespace StructuralTypes

/-! ### Faults of types -/

/-- What is wrong with a type, a registration or a failure. -/
inductive Cause where
  | nulCharacter
  | reservedCharacters (found : String)
  | unexpectedClose
  | unclosedGroups (count : Nat)
  | shapeWithoutPairs
  | suffixWithoutType
  | operatorWithoutRight (operator : String)
  | operatorWithoutLeft (operator : String)
  | markerWithoutType (marker : String)
  | keyNotName
  | valueBeforeKey
  | keyWithoutType (key : String)
  | emptyGroup
  | pairsOutsideShape
  | unexpectedToken (text : String)
  | emptyComposite (label : String)
  | emptyTree
  | duplicateProperty (key : String)
  | secondIndexer
  | unexpectedNode (name : String)
  | namedIndexer
  | typeNotFound (name : String)
  | forbiddenName (name : String)
  | wrongArity (name : String)
  | leafWithChildren (text : String) (count : Nat)
  | childNotFailure (key : Value) (received : String)
  | failureMissing

/-- The classes of causes. -/
inductive CauseClass where
  | malformed
  | conflict
  | unsupported
  | notFound
  | forbidden
  | inconsistent
deriving DecidableEq

/-- Codes from 500 on concern the library, those below what its user wrote. -/
def CauseClass.code : CauseClass → Nat
  | malformed | forbidden => 403
  | notFound => 404
  | conflict => 409
  | inconsistent => 500
  | unsupported => 501

namespace Cause

def causeClass : Cause → CauseClass
  | emptyTree | duplicateProperty _ | secondIndexer | unexpectedNode _ => .conflict
  | namedIndexer => .unsupported
  | typeNotFound _ => .notFound
  | forbiddenName _ | wrongArity _ => .forbidden
  | leafWithChildren .. | childNotFailure .. | failureMissing => .inconsistent
  | _ => .malformed

def message : Cause → String
  | nulCharacter => "Annotation contains a NUL character"
  | reservedCharacters found =>
    "Any of `#$@^~` are reserved for notations, found `" ++ found ++ "`"
  | unexpectedClose => "Unexpected `)` without a matching opening group"
  | unclosedGroups count =>
    "Unclosed group: " ++ toString count ++ " opening group(s) never closed"
  | shapeWithoutPairs => "Shape must list `key: type` pairs"
  | suffixWithoutType => "Array suffix `[]` must follow a type"
  | operatorWithoutRight operator => "Operator `" ++ operator ++ "` must be followed by a type"
  | operatorWithoutLeft operator => "Operator `" ++ operator ++ "` must follow a type"
  | markerWithoutType marker => "`" ++ marker ++ "` must be followed by a type"
  | keyNotName =>
    "Unexpected syntax error; did you misplace `?` on an object property? "
      ++ "Object property must be a name, e.g. `\x7b key?: string \x7d`"
  | valueBeforeKey => "Expected `key:` before the first shape value"
  | keyWithoutType key => "Missing type for shape key `" ++ key ++ "`"
  | emptyGroup => "Unexpected `()` or missing `,` while compiling type annotation"
  | pairsOutsideShape => "Key/value pairs are only allowed inside a shape `\x7b ... \x7d`"
  | unexpectedToken text => "Unexpected `" ++ text ++ "`"
  | emptyComposite label => "Unexpected empty " ++ label ++ " while compiling type annotation"
  | emptyTree => "Unexpected empty AST"
  | duplicateProperty key => "Duplicate shape property `" ++ key ++ "`"
  | secondIndexer => "More than one indexer property"
  | unexpectedNode name => "Unexpected AST node " ++ name
  | namedIndexer =>
    "Naming indexer is not supported, use an unnamed indexer such as `[string]: T`"
  | typeNotFound name => "Type does not exist: `" ++ name ++ "`"
  | forbiddenName name =>
    "Using `" ++ name ++ "` is unsafe and should be avoided whenever possible"
  | wrongArity name =>
    "Expecting `" ++ name ++ "` to be a callable accepting exactly one argument"
  | leafWithChildren text count =>
    "leaf incompatibility `" ++ text ++ "` cannot hold " ++ toString count ++ " children"
  | childNotFailure key received =>
    "child " ++ key.display ++ " of an incompatibility error must be an IncompatibleTypeError, "
      ++ "received " ++ received
  | failureMissing => "failed validation result carries no error"

end Cause

/-- A cause with the text of the type it was found in, where that is known. -/
structure TypeFault where
  cause : Cause
  source : Option String

namespace TypeFault

/-- Records the text being read, unless one is already known. -/
def attach (text : String) (f : TypeFault) : TypeFault :=
  { f with source := some (f.source.getD text) }

/-- The message of the cause, followed by the text where it is known. -/
def message (f : TypeFault) : String :=
  match f.source with
  | none => f.cause.message
  | some text => f.cause.message ++ " (in annotation " ++ Quoted.render text ++ ")"

end TypeFault

/-! ### Other faults -/

/-- An argument of the wrong kind. -/
inductive Misuse where
  | sourceNotText (received : String)
  | strayItem (item : Value)
  | cannotFormat (received : String)
  | nameNotText
  | typeOfWrongKind (name received : String)
  | factoryNotCallable
  | noValidator (received : String)

def Misuse.message : Misuse → String
  | sourceNotText received => "annotation must be a string, received " ++ received
  | strayItem item => "unexpected tree item " ++ item.display
  | cannotFormat received => "cannot format " ++ received
  | nameNotText => "type name must be a non-empty string"
  | typeOfWrongKind name received =>
    "type `" ++ name ++ "` must be a validator, a callable or an annotation, received " ++ received
  | factoryNotCallable => "lazy resolver must be callable"
  | noValidator received => "cannot build a validator from " ++ received

/-- What code supplied by the user raised. -/
structure Raised where
  kind : String
  message : String
  /-- Whether it is no error but a signal to leave the program. -/
  signal : Bool := false
deriving DecidableEq

/-- Builds are nested deeper than the host allows. -/
def Raised.tooDeep : Raised :=
  { kind := "RecursionError", message := "maximum recursion depth exceeded" }

/-- Everything that can end an operation other than its result. -/
inductive Fault where
  | type (f : TypeFault)
  | misuse (m : Misuse)
  | incompatible (f : Failure)
  | overlong (e : Overlong)
  | raised (r : Raised)

namespace Fault

/-- A fault in a type whose text is not known yet. -/
def ofCause (c : Cause) : Fault :=
  type { cause := c, source := none }

def message : Fault → String
  | type f => f.message
  | misuse m => m.message
  | incompatible f => f.message
  | overlong e => e.message
  | raised r => r.message

/-- Whether a fault is no error but a signal to leave the program. -/
def isSignal : Fault → Bool
  | raised r => r.signal
  | _ => false

/-- Records the text being read in a fault of a type. -/
def attach (text : String) : Fault → Fault
  | type f => type (f.attach text)
  | f => f

end Fault

end StructuralTypes

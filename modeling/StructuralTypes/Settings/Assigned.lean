import StructuralTypes.Settings.Overrides

/-! What assignments amount to, said of the list of them: which are refused, and which stand in
the end. An assignment stands if none after it has the same path or one that leads to it. -/

namespace StructuralTypes

namespace Value

/-- A truth value, a number or a text. -/
def isScalar (v : Value) : Bool :=
  v.isBool || v.isNumber || v.isText

/-- What stands below some names in nested mappings. -/
def at? : List String → Value → Option Value
  | [], v => some v
  | name :: path, mapping entries => (lookup? (.text name) entries).bind (at? path)
  | _ :: _, _ => none

/-- A value stands in another one, below some keys of nested mappings. -/
inductive Contains : Value → List Value → Value → Prop
  | here (v : Value) : Contains v [] v
  | under {entries : List (Value × Value)} {key item v : Value} {keys : List Value}
    (hm : (key, item) ∈ entries) (h : Contains item keys v) :
    Contains (mapping entries) (key :: keys) v

end Value

namespace Override

/-- The path before the first sign of equality, and the text behind it. -/
def Item.of (source : String) : Item :=
  let path := source.toList.takeWhile (· ≠ '=')
  { path := String.ofList path
    names := pathNames path
    text := String.ofList ((source.toList.dropWhile (· ≠ '=')).drop 1) }

variable (coerce : String → Except Fault Value)

/-- The text of each assignment is coerced into a scalar. -/
def Coercible (sources : List String) : Prop :=
  ∀ source ∈ sources, ∃ v, coerce (Item.of source).text = .ok v ∧ v.isScalar = true

/-- The value that some assignments leave at a path: one of them is made there, and none after
it is made there or at a part of the path. -/
def Standing (sources : List String) (path : List String) (v : Value) : Prop :=
  ∃ before source after, sources = before ++ source :: after ∧ (Item.of source).names = path
    ∧ coerce (Item.of source).text = .ok v ∧ ∀ later ∈ after, ¬(Item.of later).names <+: path

/-- What is wrong with an assignment behind some others. -/
inductive Refused (before : List String) (source : String) : Prop
  | noAssignment (h : '=' ∉ source.toList)
  | emptyPath (h : (Item.of source).names = [])
  /-- The path goes on behind that of a value. -/
  | conflict {path : List String} {v : Value} (hv : Standing coerce before path v)
    (hp : path <+: (Item.of source).names) (hne : path ≠ (Item.of source).names)

end Override

end StructuralTypes

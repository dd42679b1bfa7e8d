import StructuralTypes.Validator.Compile
import StructuralTypes.Validator.Evaluate

/-! What failures speak of. The failure of a value under a composite type is made of the
failures of parts under the types of their places. Following its keys leads to parts that
are refused, and to properties out of place. -/

namespace StructuralTypes

namespace Value

/-- Items under keys that are texts. -/
def named {α : Type} (items : List (String × α)) : List (Value × α) :=
  items.map fun p => (.text p.1, p.2)

@[simp] theorem named_nil {α : Type} : named ([] : List (String × α)) = [] := rfl

@[simp] theorem named_cons {α : Type} (p : String × α) (items : List (String × α)) :
    named (p :: items) = (.text p.1, p.2) :: named items := rfl

/-- A value in which no two items lie under one key, at any depth. Mappings and instances are
all like that. -/
inductive WellKeyed : Value → Prop
  | of {v : Value} (keys : v.observed.Pairwise fun p q => sameKey p.1 q.1 = false)
    (items : ∀ p ∈ v.observed, WellKeyed p.2) : WellKeyed v

end Value

namespace Verdict

/-- The verdict that gives a failure, or passes without one. -/
def of : Option Failure → Verdict
  | none => passed
  | some f => failed f

end Verdict

namespace Failure

/-- A failure in the tree of another, under the keys on the way to it. -/
inductive Reaches : Failure → List Value → Failure → Prop
  | here (f : Failure) : Reaches f [] f
  | child {f child g : Failure} {key : Value} {path : List Value}
    (h : (key, child) ∈ f.children) (hr : Reaches child path g) : Reaches f (key :: path) g

end Failure

/-- Whether a property is required and not among the keys of a value. -/
def Property.isAbsent (keys : List String) (p : Property) : Bool :=
  !p.optional && !keys.contains p.key

namespace Node

/-- The failure of a value under a compiled type, if the type refuses the value. -/
def failure? (resolve : String → Except Fault Validator) (n : Node) (v : Value) :
    Option Failure :=
  match n.compile resolve with
  | .error _ => none
  | .ok w =>
    match w.evaluate v with
    | .error _ => none
    | .ok verdict => verdict.failure

/-! ### One level -/

section

variable (failureOf : Node → Value → Option Failure)

/-- The failure of an item that a shape inspects: that of the declared type of its key; or,
without one, of an extra key or of the type of the indexer. -/
def itemFailure (exact : Bool) (properties : List Property) (indexer : Option Indexer)
    (key : String) (item : Value) : Option Failure :=
  match properties.find? (·.key == key) with
  | some p => failureOf p.value item
  | none =>
    match indexer with
    | none => if exact then some (Validator.extraKey exact key) else none
    | some i =>
      if exact && (failureOf i.key (.text key)).isSome then some (Validator.extraKey exact key)
      else failureOf i.value item

/-- The failures of what a shape inspects: those of the refused items in order, then one for
each required property that is absent, in order of declaration. -/
def shapeFailures (exact : Bool) (properties : List Property) (indexer : Option Indexer)
    (items : List (String × Value)) : List (String × Failure) :=
  items.filterMap (fun p => (itemFailure failureOf exact properties indexer p.1 p.2).map (p.1, ·))
    ++ (properties.filter (Property.isAbsent (items.map Prod.fst))).map
      fun p => (p.key, Validator.missingKey exact p.key)

/-- How the failure of a value under a type is made, given the failures of all parts. -/
def Blames : Node → Value → Failure → Prop
  | leaf _, v, f => ∃ reason, f = .leaf v reason
  | union [member], v, f => failureOf member v = some f
  | union members, v, f =>
    ∃ failures, members.map (failureOf · v) = failures.map some
      ∧ f = .composite v .withUnion (Failure.numbered failures)
  | intersection members, v, f =>
    f = .composite v .withIntersection (Failure.numbered (members.filterMap (failureOf · v)))
  | array element, v, f =>
    match v.entries? with
    | none => f = .composite v .withArray []
    | some entries =>
      f = .composite v .inArrayMembers
        (entries.filterMap fun p => (failureOf element p.2).map (p.1, ·))
  | tuple elements, v, f =>
    match v.elements? with
    | none => f = .composite v .withTuple []
    | some items =>
      if items.length = elements.length then
        f = .composite v .inTupleMembers ((elements.zip (Value.positions items)).filterMap
          fun p => (failureOf p.1 p.2.2).map (p.2.1, ·))
      else f = Validator.wrongLength v items.length elements.length
  | shape exact properties indexer, v, f =>
    if v.isArrayLike || v.isObjectLike then
      (∃ items, v.observed = Value.named items
        ∧ ((shapeFailures failureOf exact properties indexer items).map Prod.fst).Nodup
        ∧ f = .composite v (if exact then .inExactShapeProperties else .inShapeProperties)
          (Value.named (shapeFailures failureOf exact properties indexer items)))
      ∨ ∃ items key item rest, v.observed = Value.named items ++ (key, item) :: rest
        ∧ (∀ name, key ≠ .text name) ∧ f = Validator.foreignKey exact v key
    else f = .composite v (if exact then .withExactShape else .withShape) []
  | stray _, _, _ => False

/-! ### All levels -/

/-- What a type inspects in a value, and under which key it reports it: another type, and
the value that must belong to it. -/
inductive Inspects : Node → Value → Value → Node → Value → Prop
  | alternative {members : List Node} {v : Value} {i : Nat} {member : Node}
    (hlen : 2 ≤ members.length) (hm : members[i]? = some member) :
    Inspects (union members) v (.int i) member v
  /-- The members that refuse a value are counted on their own. -/
  | requirement {members : List Node} {v : Value} {i : Nat} {member : Node}
    (hm : (members.filter fun m => (failureOf m v).isSome)[i]? = some member) :
    Inspects (intersection members) v (.int i) member v
  | entry {element : Node} {v key item : Value} {entries : List (Value × Value)}
    (he : v.entries? = some entries) (hi : (key, item) ∈ entries) :
    Inspects (array element) v key element item
  | position {elements : List Node} {v item : Value} {items : List Value} {i : Nat}
    {element : Node} (he : v.elements? = some items) (hlen : items.length = elements.length)
    (hm : elements[i]? = some element) (hi : items[i]? = some item) :
    Inspects (tuple elements) v (.int i) element item
  | declared {exact : Bool} {properties : List Property} {indexer : Option Indexer}
    {v item : Value} {items : List (String × Value)} {p : Property}
    (hv : v.observed = Value.named items) (hp : p ∈ properties) (hi : (p.key, item) ∈ items) :
    Inspects (shape exact properties indexer) v (.text p.key) p.value item
  | undeclared {exact : Bool} {properties : List Property} {i : Indexer} {v item : Value}
    {items : List (String × Value)} {key : String} (hv : v.observed = Value.named items)
    (hi : (key, item) ∈ items) (hk : key ∉ properties.map Property.key)
    (hx : exact = true → failureOf i.key (.text key) = none) :
    Inspects (shape exact properties (some i)) v (.text key) i.value item

/-- A property out of place and the failure that says so: one that an exact shape does not
know, or a required one that a value does not have. -/
inductive Misfit : Node → Value → Value → Failure → Prop
  | extra {properties : List Property} {indexer : Option Indexer} {v item : Value}
    {items : List (String × Value)} {key : String} (hv : v.observed = Value.named items)
    (hi : (key, item) ∈ items) (hk : key ∉ properties.map Property.key)
    (hx : ∀ i ∈ indexer, failureOf i.key (.text key) ≠ none) :
    Misfit (shape true properties indexer) v (.text key) (Validator.extraKey true key)
  | missing {exact : Bool} {properties : List Property} {indexer : Option Indexer} {v : Value}
    {items : List (String × Value)} {p : Property}
    (hc : v.isArrayLike = true ∨ v.isObjectLike = true) (hv : v.observed = Value.named items)
    (hp : p ∈ properties) (ho : p.optional = false) (hk : p.key ∉ items.map Prod.fst) :
    Misfit (shape exact properties indexer) v (.text p.key)
      (Validator.missingKey exact p.key)

/-- What a type has to report of a value it refuses, and under which keys: its own failure,
those of the refused parts at any depth, and the properties out of place there. An only
member of a union speaks for it. -/
inductive Traces : Node → Value → List Value → Failure → Prop
  | whole {n : Node} {v : Value} {f : Failure} (h : failureOf n v = some f) : Traces n v [] f
  | only {member : Node} {v : Value} {path : List Value} {f : Failure}
    (h : Traces member v path f) : Traces (union [member]) v path f
  | part {n m : Node} {v key item : Value} {path : List Value} {f : Failure}
    (hi : Inspects failureOf n v key m item) (hr : failureOf m item ≠ none)
    (ht : Traces m item path f) : Traces n v (key :: path) f
  | misfit {n : Node} {v key : Value} {f : Failure} (h : Misfit failureOf n v key f) :
    Traces n v [key] f

end

end Node

end StructuralTypes

import StructuralTypes.Node

/-! What types mean. Once every leaf name stands for a set of values, every type does:
a union for what some member holds, an intersection for what all hold, containers and
shapes for values whose parts belong to the types of their places. -/

namespace StructuralTypes.Node

mutual

/-- Whether a value belongs to a type, given what the leaf names stand for. Nothing
belongs to a stray node. -/
def Holds (leafHolds : String → Value → Prop) : Node → Value → Prop
  | leaf name, v => leafHolds name v
  | union members, v => HoldsSome leafHolds members v
  | intersection members, v => HoldsAll leafHolds members v
  | array element, v =>
    ∃ entries, v.entries? = some entries ∧ ∀ p ∈ entries, Holds leafHolds element p.2
  | tuple elements, v =>
    ∃ items, v.elements? = some items ∧ HoldsEach leafHolds elements items
  | shape exact properties indexer, v =>
    (v.isArrayLike = true ∨ v.isObjectLike = true)
      ∧ (∀ p ∈ v.observed, ∃ key, p.1 = .text key
        ∧ HoldsDeclared leafHolds properties key p.2
        ∧ (key ∈ properties.map Property.key
          ∨ HoldsUndeclared leafHolds exact indexer key p.2))
      ∧ ∀ property ∈ properties, property.optional = false →
        ∃ p ∈ v.observed, p.1 = .text property.key
  | stray _, _ => False

def HoldsSome (leafHolds : String → Value → Prop) : List Node → Value → Prop
  | [], _ => False
  | node :: rest, v => Holds leafHolds node v ∨ HoldsSome leafHolds rest v

def HoldsAll (leafHolds : String → Value → Prop) : List Node → Value → Prop
  | [], _ => True
  | node :: rest, v => Holds leafHolds node v ∧ HoldsAll leafHolds rest v

/-- Items that belong to types position by position. -/
def HoldsEach (leafHolds : String → Value → Prop) : List Node → List Value → Prop
  | [], [] => True
  | node :: nodes, item :: items => Holds leafHolds node item ∧ HoldsEach leafHolds nodes items
  | _, _ => False

def HoldsProperty (leafHolds : String → Value → Prop) : Property → String → Value → Prop
  | .mk declared type _, key, item => declared = key → Holds leafHolds type item

/-- An item that belongs to the type of its key wherever the key is declared. -/
def HoldsDeclared (leafHolds : String → Value → Prop) : List Property → String → Value → Prop
  | [], _, _ => True
  | property :: rest, key, item =>
    HoldsProperty leafHolds property key item ∧ HoldsDeclared leafHolds rest key item

/-- What may stand under a key that is not declared: anything in an inexact shape
without indexer; with one, an item of its type, under a key of its key type where the
shape is exact. -/
def HoldsUndeclared (leafHolds : String → Value → Prop) (exact : Bool) :
    Option Indexer → String → Value → Prop
  | none, _, _ => exact = false
  | some (.mk keyType type), key, item =>
    Holds leafHolds type item ∧ (exact = true → Holds leafHolds keyType (.text key))

end

/-! ### Declared types -/

variable {leafHolds : String → Value → Prop}

theorem holdsDeclared_iff {properties : List Property} {key : String} {item : Value} :
    HoldsDeclared leafHolds properties key item
      ↔ ∀ p ∈ properties, p.key = key → Holds leafHolds p.value item := by
  induction properties with
  | nil => simp [HoldsDeclared]
  | cons property rest ih =>
    cases property
    simp [HoldsDeclared, HoldsProperty, ih, Property.key, Property.value]

end StructuralTypes.Node

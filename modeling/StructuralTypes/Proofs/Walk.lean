import Mathlib.Data.List.Basic
import StructuralTypes.Node.Regular

/-! Conditions on all nodes of a tree, taken apart along its parts, and induction over a
tree with what is to be shown known of every part. -/

namespace StructuralTypes.Node

theorem walkProperties_eq_flatMap (properties : List Property) :
    walkProperties properties = (properties.map Property.value).flatMap walk := by
  induction properties with
  | nil => simp [walkProperties]
  | cons property rest ih =>
    cases property
    simp [walkProperties, walkProperty, Property.value, ih]

/-- A tree is walked node first, then part by part. -/
theorem walk_eq_cons {n : Node} (h : n.isStray = false) : n.walk = n :: n.parts.flatMap walk := by
  cases n with
  | leaf name => simp [walk, parts]
  | union members => simp [walk, parts, walkAll_eq_flatMap]
  | intersection members => simp [walk, parts, walkAll_eq_flatMap]
  | array element => simp [walk, parts]
  | tuple elements => simp [walk, parts, walkAll_eq_flatMap]
  | shape exact properties indexer =>
    simp only [walk, parts, List.flatMap_append, walkProperties_eq_flatMap]
    cases indexer with
    | none => simp [walkIndexer]
    | some i => cases i; simp [walkIndexer, Indexer.key, Indexer.value]
  | stray s => simp [isStray] at h

theorem forall_mem_walk {P : Node → Prop} {n : Node} (h : n.isStray = false) :
    (∀ k ∈ n.walk, P k) ↔ P n ∧ ∀ part ∈ n.parts, ∀ k ∈ part.walk, P k := by
  rw [walk_eq_cons h, List.forall_mem_cons]
  simp only [List.mem_flatMap]
  exact and_congr_right fun _ => ⟨fun hk part hp k hm => hk k ⟨part, hp, hm⟩,
    fun hp k ⟨part, hpart, hm⟩ => hp part hpart k hm⟩

/-- The names of the parts are names of the whole. -/
theorem mem_leafNames_of_mem_parts {name : String} {n part : Node} (hp : part ∈ n.parts)
    (h : name ∈ part.leafNames) : name ∈ n.leafNames := by
  have hs : n.isStray = false := by
    cases n with
    | stray s => cases hp
    | _ => rfl
  obtain ⟨k, hk, hname⟩ := List.mem_filterMap.1 h
  refine List.mem_filterMap.2 ⟨k, ?_, hname⟩
  rw [walk_eq_cons hs]
  exact List.mem_cons_of_mem _ (List.mem_flatMap.2 ⟨part, hp, hk⟩)

theorem proper_iff {n : Node} (h : n.isStray = false) :
    n.Proper ↔ ∀ part ∈ n.parts, part.Proper := by
  simp only [Proper, h, true_and]
  rw [forall_mem_walk h]
  constructor
  · rintro ⟨hstray, hwalk⟩
    exact fun part hp => ⟨hstray part hp, hwalk part hp⟩
  · exact fun hall => ⟨fun part hp => (hall part hp).1, fun part hp => (hall part hp).2⟩

/-- Regularity is a condition on a node and its parts. -/
theorem regular_iff {least : Nat} {n : Node} (h : n.isStray = false) :
    n.Regular least ↔ n.hasParts least = true ∧ ∀ part ∈ n.parts, part.Regular least := by
  simp only [Regular, h, true_and]
  rw [forall_mem_walk h]
  constructor
  · rintro ⟨⟨hparts, hstray⟩, hwalk⟩
    exact ⟨hparts, fun part hp => ⟨hstray part hp, hwalk part hp⟩⟩
  · rintro ⟨hparts, hall⟩
    exact ⟨⟨hparts, fun part hp => (hall part hp).1⟩, fun part hp => (hall part hp).2⟩

theorem Regular.mono {least more : Nat} (h : least ≤ more) {n : Node} (hn : n.Regular more) :
    n.Regular least := by
  refine ⟨hn.1, fun k hk => ⟨?_, (hn.2 k hk).2⟩⟩
  have hparts := (hn.2 k hk).1
  cases k with
  | union members => exact decide_eq_true (Nat.le_trans h (of_decide_eq_true hparts))
  | intersection members => exact decide_eq_true (Nat.le_trans h (of_decide_eq_true hparts))
  | _ => exact hparts

/-! ### Induction -/

theorem sizeOf_lt_of_mem_parts {n part : Node} (h : part ∈ n.parts) : sizeOf part < sizeOf n := by
  cases n with
  | leaf name => simp [parts] at h
  | union members =>
    have : sizeOf part < sizeOf members := List.sizeOf_lt_of_mem h
    simp only [union.sizeOf_spec]
    omega
  | intersection members =>
    have : sizeOf part < sizeOf members := List.sizeOf_lt_of_mem h
    simp only [intersection.sizeOf_spec]
    omega
  | array element =>
    obtain rfl := List.mem_singleton.1 h
    simp only [array.sizeOf_spec]
    omega
  | tuple elements =>
    have : sizeOf part < sizeOf elements := List.sizeOf_lt_of_mem h
    simp only [tuple.sizeOf_spec]
    omega
  | shape exact properties indexer =>
    simp only [shape.sizeOf_spec]
    rcases List.mem_append.1 h with h | h
    · obtain ⟨⟨key, value, optional⟩, hp, rfl⟩ := List.mem_map.1 h
      have := List.sizeOf_lt_of_mem hp
      simp only [Property.mk.sizeOf_spec] at this
      simp only [Property.value]
      omega
    · rcases indexer with _ | ⟨key, value⟩
      · simp at h
      · simp only [Option.map_some, Option.getD_some, List.mem_cons, List.not_mem_nil, or_false,
          Indexer.key, Indexer.value] at h
        simp only [Option.some.sizeOf_spec, Indexer.mk.sizeOf_spec]
        rcases h with rfl | rfl <;> omega
  | stray s => simp [parts] at h

/-- What holds of a node whenever it holds of its parts holds of every node. -/
@[elab_as_elim]
theorem induction_parts {P : Node → Prop} (h : ∀ n, (∀ part ∈ n.parts, P part) → P n)
    (n : Node) : P n :=
  h n fun part hp =>
    have := sizeOf_lt_of_mem_parts hp
    induction_parts h part
termination_by sizeOf n

end StructuralTypes.Node

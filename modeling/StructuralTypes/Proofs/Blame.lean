import StructuralTypes.Proofs.Caution
import StructuralTypes.Proofs.Refusals

/-! The failure of a refused value speaks of what is refused in it. Its children are the
failures of the inspected parts that are refused, and of properties out of place, so the ways
down its tree are the ways down the type and the value to such parts. -/

namespace StructuralTypes

/-! ### Compiled types -/

namespace Node

open Validator

variable {assign : String → Predicate}

theorem failure?_eq {resolve : String → Except Fault Validator} {n : Node} {w : Validator}
    {v : Value} {r : Option Failure} (hw : n.compile resolve = .ok w)
    (hr : w.evaluate v = .ok (.of r)) : n.failure? resolve v = r := by
  rw [failure?, hw]
  simp only [hr]
  cases r <;> rfl

/-- The validator of a regular type reports the failures of the type. -/
theorem reports_of_regular {n : Node} (h : n.Regular 1) :
    n.CompilesTo assign fun w n => w.Reports (n.failure? (resolveTo assign)) := by
  refine compilesTo_of_regular (fun {w n} hw hn hb v => ?_) h
  obtain ⟨r, hr, -⟩ := exists_blames hn hb v
  rw [failure?_eq hw hr, hr]

theorem blames_of_regular {n : Node} {v : Value} {f : Failure} (h : n.Regular 1)
    (hv : v.WellKeyed) (hf : n.failure? (resolveTo assign) v = some f) :
    n.Blames (failure? (resolveTo assign)) v f := by
  obtain ⟨hn, hparts⟩ := (regular_iff h.1).1 h
  obtain ⟨w, hw, hb⟩ := exists_compile hn fun part hp => reports_of_regular (hparts part hp)
  obtain ⟨r, hr, hblames⟩ := exists_blames hn hb v
  exact hblames hv f ((failure?_eq hw hr).symm.trans hf)

/-- A type has a failure for each value that does not belong to it. -/
theorem failure?_eq_none_iff {n : Node} (h : n.Regular 1) (v : Value) :
    n.failure? (resolveTo assign) v = none ↔ n.Holds (accepted assign) v := by
  obtain ⟨w, hw, hr⟩ := @reports_of_regular assign n h
  obtain ⟨w', hw', hd⟩ := @compilesToMeaning_of_regular assign n h
  obtain rfl : w = w' := Except.ok.inj (hw.symm.trans hw')
  obtain ⟨verdict, he, hok, -⟩ := hd v
  obtain rfl := Except.ok.inj (he.symm.trans (hr v))
  rw [← hok]
  cases n.failure? (resolveTo assign) v <;> simp [Verdict.of, Verdict.passed, Verdict.failed]

/-! ### Children -/

section Children

variable {failureOf : Node → Value → Option Failure} {v : Value} {f : Failure}

theorem mem_indexed_iff {α : Type} {items : List α} {key : Value} {item : α} :
    (key, item) ∈ items.zipIdx.map (fun p => (Value.int p.2, p.1))
      ↔ ∃ i : Nat, key = .int i ∧ items[i]? = some item := by
  simp only [List.mem_map, Prod.exists, Prod.mk.injEq, List.mem_zipIdx_iff_getElem?]
  constructor
  · rintro ⟨a, i, hi, rfl, rfl⟩
    exact ⟨i, rfl, hi⟩
  · rintro ⟨i, rfl, hi⟩
    exact ⟨item, i, hi, rfl, rfl⟩

theorem mem_filterMap_map_iff {α β κ : Type} {l : List α} {name : α → κ} {g : α → Option β}
    {key : κ} {b : β} :
    (key, b) ∈ l.filterMap (fun a => (g a).map (name a, ·))
      ↔ ∃ a ∈ l, name a = key ∧ g a = some b := by
  simp [List.mem_filterMap, Option.map_eq_some_iff, and_left_comm]

/-- The numbered failures of types are those of the types at these places. -/
theorem mem_numbered_iff {nodes : List Node} {failures : List Failure}
    (h : nodes.map (failureOf · v) = failures.map some) {key : Value} {child : Failure} :
    (key, child) ∈ Failure.numbered failures
      ↔ ∃ i : Nat, key = .int i ∧ ∃ n, nodes[i]? = some n ∧ failureOf n v = some child := by
  rw [Failure.numbered, mem_indexed_iff]
  refine exists_congr fun i => and_congr_right fun _ => ?_
  have hi : (nodes[i]?).map (failureOf · v) = (failures[i]?).map some := by
    rw [← List.getElem?_map, h, List.getElem?_map]
  constructor
  · intro hf
    rw [hf, Option.map_some, Option.map_eq_some_iff] at hi
    exact hi
  · rintro ⟨n, hn, hf⟩
    rw [hn, Option.map_some, hf, eq_comm, Option.map_eq_some_iff] at hi
    obtain ⟨f, hi, he⟩ := hi
    rw [hi, Option.some.inj he]

theorem mem_children_union {members : List Node} (hlen : 2 ≤ members.length)
    (hb : (union members).Blames failureOf v f) {key : Value} {child : Failure} :
    (key, child) ∈ f.children
      ↔ ∃ m item, Inspects failureOf (union members) v key m item
        ∧ failureOf m item = some child := by
  obtain ⟨failures, hfailures, rfl⟩ : ∃ failures,
      members.map (failureOf · v) = failures.map some
        ∧ f = .composite v .withUnion (Failure.numbered failures) := by
    match members, hlen with
    | _ :: _ :: _, _ => exact hb
  refine (mem_numbered_iff hfailures).trans ⟨?_, ?_⟩
  · rintro ⟨i, rfl, m, hm, hf⟩
    exact ⟨m, v, .alternative hlen hm, hf⟩
  · rintro ⟨m, item, hi, hf⟩
    cases hi with
    | alternative _ hm => exact ⟨_, rfl, m, hm, hf⟩

theorem mem_children_intersection {members : List Node}
    (hb : (intersection members).Blames failureOf v f) {key : Value} {child : Failure} :
    (key, child) ∈ f.children
      ↔ ∃ m item, Inspects failureOf (intersection members) v key m item
        ∧ failureOf m item = some child := by
  obtain rfl : f = _ := hb
  have hrefusing : (members.filter fun m => (failureOf m v).isSome).map (failureOf · v)
      = (members.filterMap (failureOf · v)).map some := by
    induction members with
    | nil => rfl
    | cons m rest ih => cases hf : failureOf m v <;> simp [hf, ih]
  refine (mem_numbered_iff hrefusing).trans ⟨?_, ?_⟩
  · rintro ⟨i, rfl, m, hm, hf⟩
    exact ⟨m, v, .requirement hm, hf⟩
  · rintro ⟨m, item, hi, hf⟩
    cases hi with
    | requirement hm => exact ⟨_, rfl, m, hm, hf⟩

theorem mem_children_array {element : Node} (hb : (array element).Blames failureOf v f)
    {key : Value} {child : Failure} :
    (key, child) ∈ f.children
      ↔ ∃ m item, Inspects failureOf (array element) v key m item
        ∧ failureOf m item = some child := by
  simp only [Blames] at hb
  cases he : v.entries? with
  | none =>
    rw [he] at hb
    obtain rfl : f = _ := hb
    refine ⟨fun h => absurd h List.not_mem_nil, ?_⟩
    rintro ⟨m, item, hi, -⟩
    cases hi with
    | entry he' => cases he.symm.trans he'
  | some entries =>
    rw [he] at hb
    obtain rfl : f = _ := hb
    refine mem_filterMap_map_iff.trans ⟨?_, ?_⟩
    · rintro ⟨⟨_, item⟩, hp, rfl, hf⟩
      exact ⟨element, item, .entry he hp, hf⟩
    · rintro ⟨m, item, hi, hf⟩
      cases hi with
      | entry he' hp =>
        obtain rfl := Option.some.inj (he.symm.trans he')
        exact ⟨(key, item), hp, rfl, hf⟩

theorem mem_zip_positions_iff {nodes : List Node} {items : List Value} {n : Node}
    {key item : Value} :
    (n, key, item) ∈ nodes.zip (Value.positions items)
      ↔ ∃ i : Nat, key = .int i ∧ nodes[i]? = some n ∧ items[i]? = some item := by
  simp only [List.mem_iff_getElem?, List.getElem?_zip_eq_some, Value.positions, List.getElem?_map,
    List.getElem?_zipIdx, Option.map_eq_some_iff, Prod.exists, Prod.mk.injEq]
  refine exists_congr fun i => ⟨?_, ?_⟩
  · rintro ⟨hn, a, j, ⟨b, hb, rfl, rfl⟩, rfl, rfl⟩
    exact ⟨by simp, hn, hb⟩
  · rintro ⟨rfl, hn, hi⟩
    exact ⟨hn, item, _, ⟨item, hi, rfl, rfl⟩, by simp, rfl⟩

theorem mem_children_tuple {elements : List Node} (hb : (tuple elements).Blames failureOf v f)
    {key : Value} {child : Failure} :
    (key, child) ∈ f.children
      ↔ ∃ m item, Inspects failureOf (tuple elements) v key m item
        ∧ failureOf m item = some child := by
  simp only [Blames] at hb
  cases he : v.elements? with
  | none =>
    rw [he] at hb
    obtain rfl : f = _ := hb
    refine ⟨fun h => absurd h List.not_mem_nil, ?_⟩
    rintro ⟨m, item, hi, -⟩
    cases hi with
    | position he' => cases he.symm.trans he'
  | some items =>
    rw [he] at hb
    by_cases hlen : items.length = elements.length
    · obtain rfl : f = _ := (if_pos hlen).mp hb
      refine mem_filterMap_map_iff.trans ⟨?_, ?_⟩
      · rintro ⟨⟨m, _, item⟩, hp, rfl, hf⟩
        obtain ⟨i, rfl, hm, hi⟩ := mem_zip_positions_iff.1 hp
        exact ⟨m, item, .position he hlen hm hi, hf⟩
      · rintro ⟨m, item, hi, hf⟩
        cases hi with
        | position he' _ hm hi =>
          obtain rfl := Option.some.inj (he.symm.trans he')
          exact ⟨(m, .int _, item), mem_zip_positions_iff.2 ⟨_, rfl, hm, hi⟩, rfl, hf⟩
    · obtain rfl : f = _ := (if_neg hlen).mp hb
      refine ⟨fun h => absurd h List.not_mem_nil, ?_⟩
      rintro ⟨m, item, hi, -⟩
      cases hi with
      | position he' hlen' =>
        obtain rfl := Option.some.inj (he.symm.trans he')
        exact absurd hlen' hlen

/-- An inspected item has a failure of its declared type, of the type of the indexer, or as
an extra key. -/
theorem itemFailure_eq_some_iff {exact : Bool} {ps : List Property} {ix : Option Indexer}
    (hd : (ps.map Property.key).Nodup) {key : String} {item : Value} :
    itemFailure failureOf exact ps ix key item = some f
      ↔ (∃ p ∈ ps, p.key = key ∧ failureOf p.value item = some f)
        ∨ key ∉ ps.map Property.key
          ∧ ((∃ i ∈ ix, (exact = true → failureOf i.key (.text key) = none)
              ∧ failureOf i.value item = some f)
            ∨ exact = true ∧ (∀ i ∈ ix, failureOf i.key (.text key) ≠ none)
              ∧ f = Validator.extraKey exact key) := by
  have hdeclared : ∀ {p}, ps.find? (·.key == key) = some p ↔ p ∈ ps ∧ p.key = key :=
    Validator.find?_key_eq_some_iff hd
  rw [itemFailure.eq_def]
  cases hfind : ps.find? (·.key == key) with
  | some p =>
    obtain ⟨hp, hkey⟩ := hdeclared.1 hfind
    constructor
    · exact fun h => .inl ⟨p, hp, hkey, h⟩
    · rintro (⟨q, hq, hk, hf⟩ | ⟨hk, -⟩)
      · obtain rfl := Option.some.inj (hfind.symm.trans (hdeclared.2 ⟨hq, hk⟩))
        exact hf
      · exact absurd (List.mem_map.2 ⟨p, hp, hkey⟩) hk
  | none =>
    have hk := Validator.find?_key_eq_none_iff.1 hfind
    have hleft : ¬ ∃ p ∈ ps, p.key = key ∧ failureOf p.value item = some f := by
      rintro ⟨p, hp, he, -⟩
      exact hk (List.mem_map.2 ⟨p, hp, he⟩)
    simp only [hleft, hk, not_false_eq_true, true_and, false_or]
    cases ix with
    | none => cases exact <;> simp [eq_comm]
    | some i =>
      cases exact <;> cases hf : failureOf i.key (.text key) <;> simp [hf, eq_comm]

/-- What is observed under texts cannot be observed up to another key. -/
theorem named_ne_append {items items' : List (String × Value)} {key item : Value}
    {rest : List (Value × Value)} (hk : ∀ name, key ≠ .text name) :
    Value.named items ≠ Value.named items' ++ (key, item) :: rest := by
  intro h
  have hm : (key, item) ∈ Value.named items := by rw [h]; simp
  obtain ⟨p, -, hp⟩ := List.mem_map.1 hm
  exact hk p.1 (Prod.mk.inj hp).1.symm

theorem named_inj {items items' : List (String × Value)}
    (h : Value.named items = Value.named items') : items = items' :=
  List.map_injective_iff.2 (fun p q hpq => by simpa [Prod.ext_iff] using hpq) h

/-- A value in which something is observed is a container. -/
theorem isContainer_of_mem_observed {p : Value × Value} (h : p ∈ v.observed) :
    v.isArrayLike = true ∨ v.isObjectLike = true := by
  cases v with
  | list _ | tuple _ | mapping _ => exact .inl rfl
  | object _ | record _ => exact .inr rfl
  | _ => simp [Value.observed] at h

theorem mem_named_iff {α : Type} {items : List (String × α)} {key : Value} {item : α} :
    (key, item) ∈ Value.named items ↔ ∃ name, key = .text name ∧ (name, item) ∈ items := by
  simp only [Value.named, List.mem_map, Prod.exists, Prod.mk.injEq]
  constructor
  · rintro ⟨name, a, ha, rfl, rfl⟩
    exact ⟨name, rfl, ha⟩
  · rintro ⟨name, rfl, hi⟩
    exact ⟨name, item, hi, rfl, rfl⟩

theorem isAbsent_iff {keys : List String} {p : Property} :
    p.isAbsent keys = true ↔ p.optional = false ∧ p.key ∉ keys := by
  simp [Property.isAbsent]

variable {exact : Bool} {ps : List Property} {ix : Option Indexer}

theorem mem_shapeFailures_iff {items : List (String × Value)} {name : String} {child : Failure} :
    (name, child) ∈ shapeFailures failureOf exact ps ix items
      ↔ (∃ item, (name, item) ∈ items
          ∧ itemFailure failureOf exact ps ix name item = some child)
        ∨ ∃ p ∈ ps, p.isAbsent (items.map Prod.fst) = true ∧ p.key = name
          ∧ Validator.missingKey exact p.key = child := by
  rw [shapeFailures, List.mem_append, mem_filterMap_map_iff, List.mem_map]
  refine or_congr ?_ (by simp [and_assoc])
  constructor
  · rintro ⟨⟨_, item⟩, hi, rfl, hf⟩
    exact ⟨item, hi, hf⟩
  · rintro ⟨item, hi, hf⟩
    exact ⟨(name, item), hi, rfl, hf⟩

/-- What a shape has to report of a value is what it reports of observed items. -/
theorem reported_shape_iff (hd : (ps.map Property.key).Nodup) {key : Value} {child : Failure} :
    ((∃ m item, Inspects failureOf (shape exact ps ix) v key m item
        ∧ failureOf m item = some child)
      ∨ Misfit failureOf (shape exact ps ix) v key child)
      ↔ (v.isArrayLike = true ∨ v.isObjectLike = true) ∧ ∃ items, v.observed = Value.named items
        ∧ ∃ name, key = .text name ∧ (name, child) ∈ shapeFailures failureOf exact ps ix items := by
  constructor
  · have hcontainer : ∀ {items : List (String × Value)} {name item},
        v.observed = Value.named items → (name, item) ∈ items →
        v.isArrayLike = true ∨ v.isObjectLike = true := fun hv hi =>
      isContainer_of_mem_observed (hv ▸ mem_named_iff.2 ⟨_, rfl, hi⟩)
    rintro (⟨m, item, hi, hf⟩ | hm)
    · cases hi with
      | declared hv hp hi =>
        exact ⟨hcontainer hv hi, _, hv, _, rfl, mem_shapeFailures_iff.2 (.inl ⟨item, hi,
          (itemFailure_eq_some_iff hd).2 (.inl ⟨_, hp, rfl, hf⟩)⟩)⟩
      | undeclared hv hi hk hx =>
        exact ⟨hcontainer hv hi, _, hv, _, rfl, mem_shapeFailures_iff.2 (.inl ⟨item, hi,
          (itemFailure_eq_some_iff hd).2 (.inr ⟨hk, .inl ⟨_, rfl, hx, hf⟩⟩)⟩)⟩
    · cases hm with
      | extra hv hi hk hx =>
        exact ⟨hcontainer hv hi, _, hv, _, rfl, mem_shapeFailures_iff.2 (.inl ⟨_, hi,
          (itemFailure_eq_some_iff hd).2 (.inr ⟨hk, .inr ⟨rfl, hx, rfl⟩⟩)⟩)⟩
      | missing hc hv hp ho hk =>
        exact ⟨hc, _, hv, _, rfl, mem_shapeFailures_iff.2
          (.inr ⟨_, hp, isAbsent_iff.2 ⟨ho, hk⟩, rfl, rfl⟩)⟩
  · rintro ⟨hc, items, hv, name, rfl, hchild⟩
    obtain ⟨item, hi, hf⟩ | ⟨p, hp, habsent, rfl, rfl⟩ := mem_shapeFailures_iff.1 hchild
    · obtain ⟨p, hp, rfl, hpart⟩ | ⟨hk, ⟨i, rfl, hx, hpart⟩ | ⟨rfl, hx, rfl⟩⟩ :=
        (itemFailure_eq_some_iff hd).1 hf
      · exact .inl ⟨p.value, item, .declared hv hp hi, hpart⟩
      · exact .inl ⟨i.value, item, .undeclared hv hi hk hx, hpart⟩
      · exact .inr (.extra hv hi hk hx)
    · obtain ⟨ho, hk⟩ := isAbsent_iff.1 habsent
      exact .inr (.missing hc hv hp ho hk)

theorem mem_children_shape (hd : (ps.map Property.key).Nodup)
    (hb : (shape exact ps ix).Blames failureOf v f) {key : Value} {child : Failure} :
    (key, child) ∈ f.children
      ↔ (∃ m item, Inspects failureOf (shape exact ps ix) v key m item
          ∧ failureOf m item = some child)
        ∨ Misfit failureOf (shape exact ps ix) v key child := by
  rw [reported_shape_iff hd, ← Bool.or_eq_true]
  simp only [Blames] at hb
  by_cases hc : (v.isArrayLike || v.isObjectLike) = true
  · rw [if_pos hc] at hb
    simp only [hc, true_and]
    obtain ⟨items, hv, -, rfl⟩ | ⟨items, other, item, rest, hv, hother, rfl⟩ := hb
    · refine mem_named_iff.trans ⟨fun h => ⟨items, hv, h⟩, ?_⟩
      rintro ⟨items', hv', h⟩
      rwa [named_inj (hv.symm.trans hv')]
    · refine ⟨fun h => absurd h List.not_mem_nil, ?_⟩
      rintro ⟨items', hv', -⟩
      exact absurd (hv'.symm.trans hv) (named_ne_append hother)
  · rw [if_neg hc] at hb
    obtain rfl : f = _ := hb
    exact ⟨fun h => absurd h List.not_mem_nil, fun h => absurd h.1 hc⟩

/-- The children of a failure are the failures of the inspected parts that are refused, and
of the properties out of place. -/
theorem mem_children_iff {n : Node} (hn : n.hasParts 1 = true) (hmany : ∀ m, n ≠ union [m])
    (hb : n.Blames failureOf v f) {key : Value} {child : Failure} :
    (key, child) ∈ f.children
      ↔ (∃ m item, Inspects failureOf n v key m item ∧ failureOf m item = some child)
        ∨ Misfit failureOf n v key child := by
  cases n with
  | leaf name =>
    obtain ⟨reason, rfl⟩ := hb
    refine ⟨fun h => absurd h List.not_mem_nil, ?_⟩
    rintro (⟨m, item, hi, -⟩ | hm)
    · cases hi
    · cases hm
  | union members =>
    have hlen : 2 ≤ members.length := by
      match members, hn with
      | [m], _ => exact absurd rfl (hmany m)
      | _ :: _ :: _, _ => simp
    exact (mem_children_union hlen hb).trans (or_iff_left nofun).symm
  | intersection members =>
    exact (mem_children_intersection hb).trans (or_iff_left nofun).symm
  | array element => exact (mem_children_array hb).trans (or_iff_left nofun).symm
  | tuple elements => exact (mem_children_tuple hb).trans (or_iff_left nofun).symm
  | shape exact ps ix => exact mem_children_shape (of_decide_eq_true hn) hb
  | stray s => exact hb.elim

end Children

/-! ### Trees -/

section Trees

variable {failureOf : Node → Value → Option Failure}

theorem observed_of_entries? {v : Value} {entries : List (Value × Value)}
    (h : v.entries? = some entries) : v.observed = entries := by
  cases v with
  | list items | tuple items | mapping entries => exact Option.some.inj h
  | _ => cases h

theorem observed_of_elements? {v : Value} {items : List Value} (h : v.elements? = some items) :
    v.observed = Value.positions items := by
  cases v with
  | list items | tuple items => exact congrArg Value.positions (Option.some.inj h)
  | _ => cases h

theorem Inspects.mem_parts {n m : Node} {v key item : Value}
    (h : Inspects failureOf n v key m item) : m ∈ n.parts := by
  cases h with
  | alternative _ hm => exact List.mem_of_getElem? hm
  | requirement hm => exact List.mem_of_mem_filter (List.mem_of_getElem? hm)
  | entry _ _ => exact List.mem_singleton_self _
  | position _ _ hm _ => exact List.mem_of_getElem? hm
  | declared _ hp _ => exact List.mem_append_left _ (List.mem_map_of_mem hp)
  | undeclared _ _ _ _ => exact List.mem_append_right _ (by simp)

/-- What is inspected is the value itself or an item observed in it. -/
theorem Inspects.wellKeyed {n m : Node} {v key item : Value}
    (h : Inspects failureOf n v key m item) (hv : v.WellKeyed) : item.WellKeyed := by
  obtain ⟨-, hitems⟩ := id hv
  cases h with
  | alternative _ _ => exact hv
  | requirement _ => exact hv
  | entry he hi => exact hitems _ (observed_of_entries? he ▸ hi)
  | position he _ _ hi =>
    rw [observed_of_elements? he] at hitems
    exact hitems _ (mem_indexed_iff.2 ⟨_, rfl, hi⟩)
  | declared hv hp hi => exact hitems _ (hv ▸ mem_named_iff.2 ⟨_, rfl, hi⟩)
  | undeclared hv hi _ _ => exact hitems _ (hv ▸ mem_named_iff.2 ⟨_, rfl, hi⟩)

theorem Misfit.children_eq_nil {n : Node} {v key : Value} {f : Failure}
    (h : Misfit failureOf n v key f) : f.children = [] := by
  cases h <;> rfl

/-- An only member reports what the union reports. -/
theorem traces_only_iff {m : Node} {v : Value} (h : failureOf (union [m]) v = failureOf m v)
    {path : List Value} {g : Failure} :
    Traces failureOf (union [m]) v path g ↔ Traces failureOf m v path g := by
  refine ⟨fun ht => ?_, .only⟩
  cases ht with
  | whole hg => exact .whole (h.symm.trans hg)
  | only ht => exact ht
  | part hi _ _ =>
    cases hi with
    | alternative hlen _ => simp at hlen
  | misfit hm => cases hm

/-- One step down: what a failure reaches under a key is what a child reaches, and what is to
be reported under a key is found in an inspected part. -/
theorem reaches_iff_traces_of_parts {n : Node} {v : Value} {f : Failure}
    (hf : failureOf n v = some f) (hmany : ∀ m, n ≠ union [m])
    (hchildren : ∀ {key : Value} {child : Failure}, (key, child) ∈ f.children
      ↔ (∃ m item, Inspects failureOf n v key m item ∧ failureOf m item = some child)
        ∨ Misfit failureOf n v key child)
    (hparts : ∀ {key item : Value} {m : Node} {child : Failure},
      Inspects failureOf n v key m item → failureOf m item = some child →
      ∀ path g, child.Reaches path g ↔ Traces failureOf m item path g)
    (path : List Value) (g : Failure) : f.Reaches path g ↔ Traces failureOf n v path g := by
  constructor
  · intro hr
    cases hr with
    | here => exact .whole hf
    | child hchild hr =>
      obtain ⟨m, item, hi, hm⟩ | hm := hchildren.1 hchild
      · exact .part hi (by simp [hm]) ((hparts hi hm _ g).1 hr)
      · cases hr with
        | here => exact .misfit hm
        | child hbelow _ =>
          rw [hm.children_eq_nil] at hbelow
          exact absurd hbelow List.not_mem_nil
  · intro ht
    cases ht with
    | whole hg =>
      obtain rfl := Option.some.inj (hf.symm.trans hg)
      exact .here f
    | only _ => exact absurd rfl (hmany _)
    | part hi hr ht =>
      obtain ⟨child, hm⟩ := Option.ne_none_iff_exists'.1 hr
      exact .child (hchildren.2 (.inl ⟨_, _, hi, hm⟩)) ((hparts hi hm _ g).2 ht)
    | misfit hm => exact .child (hchildren.2 (.inr hm)) (.here g)

/-- The ways down the tree of a failure are the ways to what is refused or out of place. -/
theorem reaches_iff_traces
    (hblames : ∀ {n : Node} {v : Value} {f : Failure}, n.Regular 1 → v.WellKeyed →
      failureOf n v = some f → n.Blames failureOf v f)
    {n : Node} (h : n.Regular 1) {v : Value} (hv : v.WellKeyed) {f : Failure}
    (hf : failureOf n v = some f) (path : List Value) (g : Failure) :
    f.Reaches path g ↔ Traces failureOf n v path g := by
  induction n using induction_parts generalizing v f path g with
  | h n ih =>
    obtain ⟨hn, hregular⟩ := (regular_iff h.1).1 h
    by_cases hmany : ∀ m, n ≠ union [m]
    · refine reaches_iff_traces_of_parts hf hmany (mem_children_iff hn hmany (hblames h hv hf))
        (fun hi hm => ?_) path g
      exact ih _ hi.mem_parts (hregular _ hi.mem_parts) (hi.wellKeyed hv) hm
    · push Not at hmany
      obtain ⟨m, rfl⟩ := hmany
      have hm : m ∈ (union [m]).parts := List.mem_singleton_self m
      have hmember : failureOf m v = some f := hblames h hv hf
      exact (ih m hm (hregular m hm) hv hmember path g).trans
        (traces_only_iff (hf.trans hmember.symm)).symm

end Trees

/-- The validator of a type has a failure for every value that does not belong to the type, the
one that is given when refusals are described. It is made of the failures of the parts in their
order, and the ways down its tree are just the ways to parts that are refused and to properties
out of place. -/
theorem failure_blames_refused_parts (n : Node) (h : n.Regular 1) (assign : String → Predicate) :
    ∃ w, n.compile (resolveTo assign) = .ok w
      ∧ (∀ v, w.evaluate v = .ok (.of (n.failure? (resolveTo assign) v))
        ∧ (n.failure? (resolveTo assign) v = none ↔ n.Holds (accepted assign) v)
        ∧ ∀ verdict, w.guarded.evaluate v = .ok verdict →
          verdict = .of (n.failure? (resolveTo assign) v))
      ∧ ∀ v, v.WellKeyed → ∀ f, n.failure? (resolveTo assign) v = some f →
        n.Blames (failure? (resolveTo assign)) v f
          ∧ ∀ path g, f.Reaches path g ↔ n.Traces (failure? (resolveTo assign)) v path g := by
  obtain ⟨w, hw, hr⟩ := @reports_of_regular assign n h
  refine ⟨w, hw, fun v => ⟨hr v, failure?_eq_none_iff h v, fun verdict hg => ?_⟩,
    fun v hv f hf => ?_⟩
  · exact Except.ok.inj ((below_guarded w v verdict hg).symm.trans (hr v))
  · exact ⟨blames_of_regular h hv hf, reaches_iff_traces blames_of_regular h hv hf⟩

/-- The type `{| a: (int | string)[], b: int, [numeric]: [string, bool] |}`. -/
def tableType : Node :=
  .shape true
    [.mk "a" (.array (.union [.leaf "int", .leaf "string"])) false, .mk "b" (.leaf "int") false]
    (some (.mk (.leaf "numeric") (.tuple [.leaf "string", .leaf "bool"])))

/-- A value with an item of no type under `a`, an extra key, a wrong item under a numeric
key, and nothing under `b`. -/
def oddTable : Value :=
  .mapping [(.text "a", .list [.int 1, .null]), (.text "x", .int 1),
    (.text "7", .tuple [.text "s", .int 0])]

theorem oddTable_blames_refused_parts : tableType.Regular 1 ∧ oddTable.WellKeyed ∧ ∃ w f,
    tableType.compile (resolveTo keywordPredicate) = .ok w
      ∧ w.evaluate oddTable = .ok (.of (some f))
      ∧ f.children.map Prod.fst = [.text "a", .text "x", .text "7", .text "b"]
      ∧ tableType.Blames (failure? (resolveTo keywordPredicate)) oddTable f
      ∧ ∀ path g, f.Reaches path g
        ↔ tableType.Traces (failure? (resolveTo keywordPredicate)) oddTable path g := by
  have h : tableType.Regular 1 := by
    simp only [Regular]
    decide
  have hatom : ∀ {v : Value}, v.observed = [] → v.WellKeyed :=
    fun h => .of (by simp [h]) (by simp [h])
  have hpair : ∀ {p q : Value × Value}, p.2.WellKeyed → q.2.WellKeyed →
      ∀ r ∈ [p, q], r.2.WellKeyed :=
    fun hp hq => List.forall_mem_cons.2 ⟨hp, List.forall_mem_singleton.2 hq⟩
  have hlist : (Value.list [.int 1, .null]).WellKeyed :=
    .of (by decide) (hpair (hatom rfl) (hatom rfl))
  have htuple : (Value.tuple [.text "s", .int 0]).WellKeyed :=
    .of (by decide) (hpair (hatom rfl) (hatom rfl))
  have hv : oddTable.WellKeyed :=
    .of (by decide) (List.forall_mem_cons.2 ⟨hlist, hpair (hatom rfl) htuple⟩)
  obtain ⟨w, hw, hr, hall⟩ := failure_blames_refused_parts tableType h keywordPredicate
  have hkeys : (tableType.failure? (resolveTo keywordPredicate) oddTable).map
      (fun f => f.children.map Prod.fst) = some [.text "a", .text "x", .text "7", .text "b"] := by
    rfl
  obtain ⟨f, hf, hkeys⟩ := Option.map_eq_some_iff.1 hkeys
  exact ⟨h, hv, w, f, hw, hf ▸ (hr oddTable).1, hkeys, hall oddTable hv f hf⟩

end Node

end StructuralTypes

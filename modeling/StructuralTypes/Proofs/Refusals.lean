import Mathlib.Data.List.Nodup
import StructuralTypes.Node.Blame
import StructuralTypes.Proofs.Membership

/-! How failures are made. A validator whose parts report failures reports one that is made
of theirs: none is lost and none changes its place. A shape collects failures under keys, and
since an item replaces another under its key, this needs the keys of a value to differ. -/

namespace StructuralTypes

@[simp] theorem Verdict.refusal?_of (r : Option Failure) : (Verdict.of r).refusal? = .ok r := by
  cases r <;> rfl

namespace Validator

open Outcome

/-! ### Failures of parts -/

/-- A check whose verdicts are what a function says. -/
def Reports (w : Validator) (g : Value → Option Failure) : Prop :=
  ∀ v, w.evaluate v = .ok (.of (g v))

variable {failureOf : Node → Value → Option Failure} {ws : List Validator} {nodes : List Node}

/-- Validators that report on types, one by one. -/
abbrev ReportEach (failureOf : Node → Value → Option Failure) :
    List Validator → List Node → Prop :=
  List.Forall₂ fun w n => w.Reports (failureOf n)

/-- When all alternatives refuse a value, there is one failure of each. -/
theorem ReportEach.refusedByAll (h : ReportEach failureOf ws nodes) (v : Value) :
    ∃ r, Validator.refusedByAll ws v = .ok r
      ∧ ∀ failures ∈ r, nodes.map (failureOf · v) = failures.map some := by
  induction h with
  | nil => exact ⟨some [], rfl, by simp⟩
  | @cons w n ws nodes hw _ ih =>
    obtain ⟨r, hr, hall⟩ := ih
    rw [Validator.refusedByAll, hw v]
    cases hf : failureOf n v with
    | none => exact ⟨none, rfl, by simp⟩
    | some f =>
      refine ⟨r.map (f :: ·), by rw [hr]; rfl, ?_⟩
      cases r with
      | none => simp
      | some failures => simpa [hf] using hall

/-- The members that refuse a value give their failures in order. -/
theorem ReportEach.refusals (h : ReportEach failureOf ws nodes) (v : Value) :
    Validator.refusals ws v = .ok (nodes.filterMap (failureOf · v)) := by
  induction h with
  | nil => rfl
  | @cons w n ws nodes hw _ ih =>
    rw [Validator.refusals, hw v, ih, List.filterMap_cons]
    cases failureOf n v <;> rfl

theorem Reports.failingItems {w : Validator} {n : Node} (h : w.Reports (failureOf n))
    (entries : List (Value × Value)) :
    Validator.failingItems (fun item => w.evaluate item) entries
      = .ok (entries.filterMap fun p => (failureOf n p.2).map (p.1, ·)) := by
  induction entries with
  | nil => rfl
  | cons p rest ih =>
    obtain ⟨key, item⟩ := p
    rw [Validator.failingItems, ih, h item, List.filterMap_cons]
    cases failureOf n item <;> rfl

theorem ReportEach.failingPositions (h : ReportEach failureOf ws nodes) (position : Nat)
    (items : List Value) :
    Validator.failingPositions ws position items
      = .ok ((nodes.zip ((items.zipIdx position).map fun p => (Value.int p.2, p.1))).filterMap
          fun p => (failureOf p.1 p.2.2).map (p.2.1, ·)) := by
  induction h generalizing position items with
  | nil => simp [Validator.failingPositions, pure, Except.pure]
  | @cons w n ws nodes hw _ ih =>
    cases items with
    | nil => rfl
    | cons item items =>
      rw [Validator.failingPositions, ih, hw item, List.zipIdx_cons, List.map_cons,
        List.zip_cons_cons, List.filterMap_cons]
      cases failureOf n item <;> rfl

/-! ### Shapes -/

variable {pvs : List PropertyValidator} {ps : List Property} {iv : Option IndexerValidator}
  {ix : Option Indexer}

/-- Property validators that report on the types of properties. -/
abbrev ReportProperties (failureOf : Node → Value → Option Failure) :
    List PropertyValidator → List Property → Prop :=
  List.Forall₂ (Node.ForProperty fun w n => w.Reports (failureOf n))

theorem find?_key_eq_none_iff {key : String} :
    ps.find? (·.key == key) = none ↔ key ∉ ps.map Property.key := by
  simp [List.find?_eq_none]

/-- Among properties with distinct keys the one of a key is the one that is found. -/
theorem find?_key_eq_some_iff (hd : (ps.map Property.key).Nodup) {key : String} {p : Property} :
    ps.find? (·.key == key) = some p ↔ p ∈ ps ∧ p.key = key := by
  constructor
  · exact fun h => ⟨List.mem_of_find?_eq_some h, by simpa using List.find?_some h⟩
  · rintro ⟨hp, hk⟩
    cases hfind : ps.find? (·.key == key) with
    | none => exact absurd (List.mem_map.2 ⟨p, hp, hk⟩) (find?_key_eq_none_iff.1 hfind)
    | some q =>
      have hq : q.key = key := by simpa using List.find?_some hfind
      rw [List.inj_on_of_nodup_map hd (List.mem_of_find?_eq_some hfind) hp (hq.trans hk.symm)]

theorem evaluateDeclared_eq (h : ReportProperties failureOf pvs ps)
    (hd : (ps.map Property.key).Nodup) (key : String) (item : Value) :
    evaluateDeclared pvs key item
      = (ps.find? (·.key == key)).map fun p => .ok (.of (failureOf p.value item)) := by
  obtain ⟨hmem, hnone⟩ | ⟨p, hp, hk, w, hw, he⟩ := evaluateDeclared_cases h hd key item
  · rw [hnone, find?_key_eq_none_iff.2 hmem]
    rfl
  · rw [he, (find?_key_eq_some_iff hd).2 ⟨hp, hk⟩, hw item]
    rfl

/-- An observed item is judged as its key and the shape ask for. -/
theorem itemRefusal_eq (hp : ReportProperties failureOf pvs ps)
    (hi : Node.ForIndexer (fun w n => w.Reports (failureOf n)) iv ix)
    (hd : (ps.map Property.key).Nodup) (exact : Bool) (key : String) (item : Value) :
    itemRefusal exact pvs iv key item
      = .ok (Node.itemFailure failureOf exact ps ix key item) := by
  rw [itemRefusal, Node.itemFailure.eq_def, evaluateDeclared_eq hp hd]
  cases ps.find? (·.key == key) with
  | some p => exact Verdict.refusal?_of _
  | none =>
    rcases iv with _ | ⟨w, wi⟩ <;> rcases ix with _ | ⟨keyType, type⟩
    · cases exact <;> rfl
    · cases hi
    · cases hi
    · obtain ⟨hkey, hitem⟩ := hi
      cases exact with
      | false => exact (bind_of_ok (hitem item) _).trans (Verdict.refusal?_of _)
      | true =>
        simp only [Option.map_none, checkUndeclared, indexerChecks, if_true, hkey (.text key),
          hitem item, Indexer.key, Indexer.value, Bool.true_and]
        cases failureOf keyType (.text key) with
        | none => exact Verdict.refusal?_of _
        | some f => rfl

/-- The items of a value under keys that are texts, all of them or up to another key. -/
theorem exists_named (observed : List (Value × Value)) :
    (∃ items, observed = Value.named items)
      ∨ ∃ items key item rest, observed = Value.named items ++ (key, item) :: rest
        ∧ ∀ name, key ≠ .text name := by
  induction observed with
  | nil => exact .inl ⟨[], rfl⟩
  | cons p rest ih =>
    obtain ⟨key, item⟩ := p
    by_cases hk : ∃ name, key = .text name
    · obtain ⟨name, rfl⟩ := hk
      obtain ⟨items, rfl⟩ | ⟨items, key, other, rest, rfl, hother⟩ := ih
      · exact .inl ⟨(name, item) :: items, rfl⟩
      · exact .inr ⟨(name, item) :: items, key, other, rest, rfl, hother⟩
    · exact .inr ⟨[], key, item, rest, rfl, not_exists.1 hk⟩

variable {check : String → Value → Except Fault (Option Failure)}
  {g : String → Value → Option Failure}

/-- Items under distinct texts leave a failure for each that is refused, in order. -/
theorem failingKeys_named (hc : ∀ key item, check key item = .ok (g key item))
    {items : List (String × Value)} (hd : (items.map Prod.fst).Nodup) {failures : Table Failure}
    (hf : ∀ key ∈ items.map Prod.fst, key ∉ Table.keys failures) :
    failingKeys check (Value.named items) failures
      = .ok (.ok (failures ++ items.filterMap fun p => (g p.1 p.2).map (p.1, ·))) := by
  induction items generalizing failures with
  | nil => simp [failingKeys, pure, Except.pure]
  | cons p rest ih =>
    obtain ⟨key, item⟩ := p
    rw [List.map_cons, List.nodup_cons] at hd
    rw [List.map_cons, List.forall_mem_cons] at hf
    rw [Value.named_cons, failingKeys, hc, bind_of_ok rfl, List.filterMap_cons]
    cases g key item with
    | none => exact ih hd.2 hf.2
    | some f =>
      have hinsert : Table.insert key f failures = failures ++ [(key, f)] :=
        Table.insert_of_not_mem hf.1 f
      have hfresh : ∀ k ∈ rest.map Prod.fst, k ∉ Table.keys (failures ++ [(key, f)]) := by
        intro k hk hm
        rw [Table.keys_concat, List.mem_append, List.mem_singleton] at hm
        obtain hm | rfl := hm
        · exact hf.2 k hk hm
        · exact hd.1 hk
      change failingKeys check (Value.named rest) (Table.insert key f failures) = _
      rw [hinsert, ih hd.2 hfresh, List.append_assoc]
      rfl

/-- A key that is no text ends the inspection. -/
theorem failingKeys_foreign (hc : ∀ key item, check key item = .ok (g key item))
    {key : Value} (hk : ∀ name, key ≠ .text name) (items : List (String × Value)) (item : Value)
    (rest : List (Value × Value)) (failures : Table Failure) :
    failingKeys check (Value.named items ++ (key, item) :: rest) failures = .ok (.error key) := by
  induction items generalizing failures with
  | nil =>
    cases key with
    | text name => exact absurd rfl (hk name)
    | _ => rfl
  | cons p items ih =>
    obtain ⟨name, other⟩ := p
    rw [Value.named_cons, List.cons_append, failingKeys, hc, bind_of_ok rfl]
    cases g name other <;> exact ih _

theorem any_named {test : Value × Value → Bool} {key : String}
    (h : ∀ name item, test (.text name, item) = (key == name)) (items : List (String × Value)) :
    (Value.named items).any test = (items.map Prod.fst).contains key := by
  induction items with
  | nil => rfl
  | cons p rest ih =>
    rw [Value.named_cons, List.any_cons, ih, List.map_cons, List.contains_cons, h]

/-- The required properties that are absent are added in order of declaration. -/
theorem addMissing_named (h : ReportProperties failureOf pvs ps)
    (hd : (ps.map Property.key).Nodup) (exact : Bool) (items : List (String × Value))
    {failures : Table Failure}
    (hf : ∀ p ∈ ps, p.key ∉ items.map Prod.fst → p.key ∉ Table.keys failures) :
    addMissing exact (Value.named items) failures pvs
      = failures ++ (ps.filter (Property.isAbsent (items.map Prod.fst))).map
          fun p => (p.key, missingKey exact p.key) := by
  induction h generalizing failures with
  | nil => simp [addMissing]
  | @cons pv p pvs ps hp _ ih =>
    obtain ⟨key, w, optional⟩ := pv
    obtain ⟨_, type, _⟩ := p
    obtain ⟨rfl, rfl, -⟩ := hp
    rw [List.map_cons, List.nodup_cons] at hd
    rw [List.forall_mem_cons] at hf
    have hlast : addMissing exact (Value.named items) failures (.mk key w optional :: pvs)
        = addMissing exact (Value.named items)
          (if (items.map Prod.fst).contains key || optional then failures
            else Table.insert key (missingKey exact key) failures) pvs := by
      rw [addMissing, any_named fun _ _ => BEq.comm]
    have habsent : Property.isAbsent (items.map Prod.fst) (.mk key type optional)
        = !((items.map Prod.fst).contains key || optional) := by
      rw [Bool.not_or, Bool.and_comm]
      rfl
    rw [hlast, List.filter_cons, habsent]
    cases hpresent : (items.map Prod.fst).contains key || optional with
    | true => exact ih hd.2 hf.2
    | false =>
      have hcontains := (Bool.or_eq_false_iff.1 hpresent).1
      have hnew : key ∉ Table.keys failures := hf.1 fun hm =>
        Bool.false_ne_true (hcontains.symm.trans (List.contains_iff_mem.2 hm))
      have hfresh : ∀ p ∈ ps, p.key ∉ items.map Prod.fst →
          p.key ∉ Table.keys (failures ++ [(key, missingKey exact key)]) := by
        intro p hp hk hm
        rw [Table.keys_concat, List.mem_append, List.mem_singleton] at hm
        obtain hm | hm := hm
        · exact hf.2 p hp hk hm
        · exact hd.1 (List.mem_map.2 ⟨p, hp, hm⟩)
      rw [if_neg Bool.false_ne_true, Table.insert_of_not_mem hnew, ih hd.2 hfresh,
        List.append_assoc]
      rfl

/-! ### Failures of composites -/

open Node

variable {v : Value}

/-- Distinct keys are distinct as texts. -/
theorem nodup_of_named {items : List (String × Value)} (hv : v.observed = Value.named items)
    (hd : v.observed.Pairwise fun p q => Value.sameKey p.1 q.1 = false) :
    (items.map Prod.fst).Nodup := by
  rw [hv, Value.named, List.pairwise_map] at hd
  rw [List.Nodup, List.pairwise_map]
  refine hd.imp fun {p q} hne he => ?_
  simp [Value.sameKey, he] at hne

theorem keys_filterMap_sublist {α β : Type} (f : String × α → Option β) (l : List (String × α)) :
    ((l.filterMap fun p => (f p).map (p.1, ·)).map Prod.fst).Sublist (l.map Prod.fst) := by
  induction l with
  | nil => exact .slnil
  | cons p rest ih =>
    rw [List.filterMap_cons]
    cases f p with
    | none => exact ih.cons p.1
    | some b => exact ih.cons_cons p.1

/-- What a shape reports is under distinct keys. -/
theorem nodup_shapeFailures {items : List (String × Value)} (hk : (items.map Prod.fst).Nodup)
    (hd : (ps.map Property.key).Nodup) (exact : Bool) :
    ((shapeFailures failureOf exact ps ix items).map Prod.fst).Nodup := by
  have hrefused := keys_filterMap_sublist
    (fun p => itemFailure failureOf exact ps ix p.1 p.2) items
  have habsent := (List.filter_sublist (p := Property.isAbsent (items.map Prod.fst))
    (l := ps)).map Property.key
  rw [shapeFailures, List.map_append, List.map_map, List.nodup_append]
  refine ⟨hk.sublist hrefused, hd.sublist habsent, ?_⟩
  rintro key hkey _ hlast rfl
  obtain ⟨p, hp, rfl⟩ := List.mem_map.1 hlast
  have hcontains := List.contains_iff_mem.2 (hrefused.subset hkey)
  have hnew := (List.mem_filter.1 hp).2
  rw [Property.isAbsent, Bool.and_eq_true, Bool.not_eq_true', Bool.not_eq_true'] at hnew
  exact Bool.false_ne_true (hnew.2.symm.trans hcontains)

/-- A verdict on parts passes or gives the failure that they make up. -/
theorem exists_judgeParts_eq (v : Value) (kind : FailureKind) (failures : List (Value × Failure)) :
    ∃ r, judgeParts v kind failures = .of r ∧ ∀ f ∈ r, f = .composite v kind failures := by
  cases failures with
  | nil => exact ⟨none, rfl, by simp⟩
  | cons f rest => exact ⟨some _, rfl, by simp⟩

theorem blames_predicate (p : Predicate) (name : String) (v : Value) :
    ∃ r, (predicate p).evaluate v = .ok (.of r)
      ∧ ∀ f ∈ r, (leaf name).Blames failureOf v f := by
  cases h : p.accepts v with
  | true => exact ⟨none, by simp [evaluate, h, Verdict.of, pure, Except.pure], by simp⟩
  | false =>
    refine ⟨some (.leaf v p.reason), by simp [evaluate, h, Verdict.of, pure, Except.pure], ?_⟩
    rintro _ ⟨⟩
    exact ⟨p.reason, rfl⟩

theorem blames_union (h : ReportEach failureOf ws nodes) (v : Value) :
    ∃ r, (union ws).evaluate v = .ok (.of r)
      ∧ ∀ f ∈ r, (Node.union nodes).Blames failureOf v f := by
  obtain ⟨r, hr, hall⟩ := h.refusedByAll v
  rw [evaluate, hr]
  cases r with
  | none => exact ⟨none, rfl, by simp⟩
  | some failures =>
    have hfailures := hall failures rfl
    rcases failures with _ | ⟨f, _ | ⟨g, rest⟩⟩
    · obtain rfl := List.map_eq_nil_iff.1 hfailures
      exact ⟨some _, rfl, by rintro _ ⟨⟩; exact ⟨[], rfl, rfl⟩⟩
    · obtain ⟨member, rfl, hf⟩ := List.map_eq_singleton_iff.1 hfailures
      exact ⟨some f, rfl, by rintro _ ⟨⟩; exact hf⟩
    · obtain ⟨first, _, rfl, -, hrest⟩ := List.map_eq_cons_iff.1 hfailures
      obtain ⟨second, others, rfl, -, -⟩ := List.map_eq_cons_iff.1 hrest
      exact ⟨some _, rfl, by rintro _ ⟨⟩; exact ⟨f :: g :: rest, hfailures, rfl⟩⟩

theorem blames_intersection (h : ReportEach failureOf ws nodes) (v : Value) :
    ∃ r, (intersection ws).evaluate v = .ok (.of r)
      ∧ ∀ f ∈ r, (Node.intersection nodes).Blames failureOf v f := by
  obtain ⟨r, hr, hf⟩ := exists_judgeParts_eq v .withIntersection
    (Failure.numbered (nodes.filterMap (failureOf · v)))
  refine ⟨r, ?_, hf⟩
  rw [evaluate, ← hr]
  exact bind_of_ok (h.refusals v) _

theorem blames_array {w : Validator} {n : Node} (h : w.Reports (failureOf n)) (v : Value) :
    ∃ r, (array w).evaluate v = .ok (.of r)
      ∧ ∀ f ∈ r, (Node.array n).Blames failureOf v f := by
  rw [evaluate]
  simp only [Blames]
  cases v.entries? with
  | none => exact ⟨some _, rfl, by rintro _ ⟨⟩; rfl⟩
  | some entries =>
    obtain ⟨r, hr, hf⟩ := exists_judgeParts_eq v .inArrayMembers
      (entries.filterMap fun p => (failureOf n p.2).map (p.1, ·))
    refine ⟨r, ?_, hf⟩
    rw [← hr]
    exact bind_of_ok (h.failingItems entries) _

theorem blames_tuple (h : ReportEach failureOf ws nodes) (v : Value) :
    ∃ r, (tuple ws).evaluate v = .ok (.of r)
      ∧ ∀ f ∈ r, (Node.tuple nodes).Blames failureOf v f := by
  rw [evaluate]
  simp only [Blames, ← h.length_eq]
  cases v.elements? with
  | none => exact ⟨some _, rfl, by rintro _ ⟨⟩; rfl⟩
  | some items =>
    by_cases hlen : items.length = ws.length
    · obtain ⟨r, hr, hf⟩ := exists_judgeParts_eq v .inTupleMembers
        ((nodes.zip (Value.positions items)).filterMap
          fun p => (failureOf p.1 p.2.2).map (p.2.1, ·))
      refine ⟨r, ?_, by simpa [hlen] using hf⟩
      rw [← hr]
      simp only [hlen, ne_eq, not_true, if_false, h.failingPositions]
      rfl
    · exact ⟨some _, if_pos hlen, by rintro _ ⟨⟩; simp [hlen]⟩

/-- The judgement of a value under a shape ends, whatever is observed. -/
theorem exists_judgeShape_eq (hc : ∀ key item, check key item = .ok (g key item)) (exact : Bool)
    (pvs : List PropertyValidator) (v : Value) :
    ∃ r, judgeShape exact pvs check v = .ok (.of r) := by
  rw [judgeShape]
  cases v.isArrayLike || v.isObjectLike with
  | false => exact ⟨some _, rfl⟩
  | true =>
    obtain ⟨result, hres, -⟩ := failingKeys_spec
      (fun key item => ⟨_, hc key item, Iff.rfl⟩) v.observed []
    cases result with
    | error key => exact ⟨some _, bind_of_ok hres _⟩
    | ok failures =>
      obtain ⟨r, hr, -⟩ := exists_judgeParts_eq v
        (if exact then .inExactShapeProperties else .inShapeProperties)
        (Value.named (addMissing exact v.observed failures pvs))
      exact ⟨r, (bind_of_ok hres _).trans (congrArg Except.ok hr)⟩

/-- Where the keys are distinct texts, the judgement is on what the shape reports. -/
theorem judgeShape_named (hp : ReportProperties failureOf pvs ps)
    (hd : (ps.map Property.key).Nodup) {exact : Bool}
    (hc : ∀ key item, check key item = .ok (itemFailure failureOf exact ps ix key item))
    (hcontainer : (v.isArrayLike || v.isObjectLike) = true) {items : List (String × Value)}
    (hv : v.observed = Value.named items) (hk : (items.map Prod.fst).Nodup) :
    judgeShape exact pvs check v
      = .ok (judgeParts v (if exact then .inExactShapeProperties else .inShapeProperties)
        (Value.named (shapeFailures failureOf exact ps ix items))) := by
  have hfresh : ∀ p ∈ ps, p.key ∉ items.map Prod.fst → p.key ∉ Table.keys
      (items.filterMap fun p => (itemFailure failureOf exact ps ix p.1 p.2).map (p.1, ·)) :=
    fun p _ hnew hm => hnew ((keys_filterMap_sublist
      (fun p => itemFailure failureOf exact ps ix p.1 p.2) items).subset hm)
  have hrefused := @failingKeys_named _ _ hc items hk [] (by simp [Table.keys])
  have habsent := addMissing_named hp hd exact items hfresh
  rw [judgeShape, hcontainer, hv]
  refine (bind_of_ok hrefused _).trans ?_
  simp only [List.nil_append, habsent, shapeFailures]
  rfl

theorem blames_shape (hp : ReportProperties failureOf pvs ps)
    (hi : ForIndexer (fun w n => w.Reports (failureOf n)) iv ix)
    (hd : (ps.map Property.key).Nodup) (exact : Bool) (v : Value) :
    ∃ r, (shape exact pvs iv).evaluate v = .ok (.of r)
      ∧ (v.WellKeyed → ∀ f ∈ r, (Node.shape exact ps ix).Blames failureOf v f) := by
  have hcheck := itemRefusal_eq hp hi hd exact
  rw [evaluate_shape]
  by_cases hw : v.WellKeyed
  · obtain ⟨hkeys, -⟩ := id hw
    simp only [Blames]
    cases hc : v.isArrayLike || v.isObjectLike with
    | false =>
      rw [judgeShape, hc]
      exact ⟨some _, rfl, by rintro - _ ⟨⟩; rfl⟩
    | true =>
      obtain ⟨items, hv⟩ | ⟨items, key, item, rest, hv, hk⟩ := exists_named v.observed
      · have hk := nodup_of_named hv hkeys
        obtain ⟨r, hr, hf⟩ := exists_judgeParts_eq v
          (if exact then .inExactShapeProperties else .inShapeProperties)
          (Value.named (shapeFailures failureOf exact ps ix items))
        refine ⟨r, ?_, fun _ f hm => .inl ⟨items, hv, nodup_shapeFailures hk hd exact, hf f hm⟩⟩
        rw [judgeShape_named hp hd hcheck hc hv hk, hr]
      · have hstop := failingKeys_foreign hcheck hk items item rest []
        rw [← hv] at hstop
        rw [judgeShape, hc]
        refine ⟨some (foreignKey exact v key), bind_of_ok hstop _, ?_⟩
        rintro - _ ⟨⟩
        exact .inr ⟨items, key, item, rest, hv, hk, rfl⟩
  · obtain ⟨r, hr⟩ := exists_judgeShape_eq hcheck exact pvs v
    exact ⟨r, hr, fun h => absurd h hw⟩

/-- A validator made of validators that report makes its failures of theirs. -/
theorem exists_blames {assign : String → Predicate} {w : Validator} {n : Node}
    (hn : n.hasParts 1 = true)
    (h : Built assign (fun w n => w.Reports (failureOf n)) w n) (v : Value) :
    ∃ r, w.evaluate v = .ok (.of r) ∧ (v.WellKeyed → ∀ f ∈ r, n.Blames failureOf v f) := by
  have always : ∀ {w : Validator} {n : Node},
      (∃ r, w.evaluate v = .ok (.of r) ∧ ∀ f ∈ r, n.Blames failureOf v f) →
      ∃ r, w.evaluate v = .ok (.of r) ∧ (v.WellKeyed → ∀ f ∈ r, n.Blames failureOf v f) :=
    fun ⟨r, hr, hf⟩ => ⟨r, hr, fun _ => hf⟩
  cases h with
  | leaf name => exact always (blames_predicate (assign name) name v)
  | union h => exact always (blames_union h v)
  | intersection h => exact always (blames_intersection h v)
  | array h => exact always (blames_array h v)
  | tuple h => exact always (blames_tuple h v)
  | shape hp hi => exact blames_shape hp hi (of_decide_eq_true hn) _ v

end Validator

end StructuralTypes

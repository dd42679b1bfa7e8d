import StructuralTypes.Node.Merge
import StructuralTypes.Proofs.Acceptance

/-! Two shapes at once. What an inexact shape accepts is said property by property, for each
by itself: which items may stand under its key, and whether one has to. So a value passes two
such shapes just when it passes the one that has the properties of both, where a property that
both have asks of an item what either asks. -/

namespace StructuralTypes

/-! ### Properties of both lists -/

namespace Property

variable {ps qs : List Property}

theorem find?_eq_some {key : String} {p : Property} (h : find? key ps = some p) :
    p ∈ ps ∧ p.key = key :=
  ⟨List.mem_of_find?_eq_some h, by simpa using List.find?_some h⟩

/-- A condition on properties that holds of two with one key taken together just when it holds
of each holds of all merged properties just when it holds of all properties of both lists. -/
theorem forall_mem_merge {Q : Property → Prop} (hq : (qs.map key).Nodup)
    (hQ : ∀ p q, p.key = q.key → (Q (p.meet q) ↔ Q p ∧ Q q)) :
    (∀ r ∈ merge ps qs, Q r) ↔ (∀ p ∈ ps, Q p) ∧ ∀ q ∈ qs, Q q := by
  simp only [merge, List.forall_mem_append, List.forall_mem_map, List.mem_filter]
  constructor
  · rintro ⟨hfirst, hsecond⟩
    refine ⟨fun p hp => ?_, fun q hmem => ?_⟩
    · have h := hfirst p hp
      cases hfind : find? p.key qs with
      | none => rwa [hfind] at h
      | some q =>
        rw [hfind] at h
        exact ((hQ p q (find?_eq_some hfind).2.symm).1 h).1
    · cases hfind : find? q.key ps with
      | none => exact hsecond q ⟨hmem, by simp [hfind]⟩
      | some p =>
        obtain ⟨hp, hkey⟩ := find?_eq_some hfind
        -- by distinctness `q` is the counterpart of the property found for it
        have hcounterpart : find? p.key qs = some q := by
          rw [hkey]
          exact (Validator.find?_key_eq_some_iff hq).2 ⟨hmem, rfl⟩
        have h := hfirst p hp
        rw [hcounterpart] at h
        exact ((hQ p q hkey).1 h).2
  · rintro ⟨hps, hqs⟩
    refine ⟨fun p hp => ?_, fun q hmem => hqs q hmem.1⟩
    cases hfind : find? p.key qs with
    | none => exact hps p hp
    | some q =>
      obtain ⟨hmem, hkey⟩ := find?_eq_some hfind
      exact (hQ p q hkey.symm).2 ⟨hps p hp, hqs q hmem⟩

/-- Merged properties have distinct keys if those of each list have. -/
theorem nodup_merge (hp : (ps.map key).Nodup) (hq : (qs.map key).Nodup) :
    ((merge ps qs).map key).Nodup := by
  rw [map_key_merge, List.nodup_append]
  refine ⟨hp, hq.sublist (List.filter_sublist.map key), ?_⟩
  rintro k hk _ hk' rfl
  obtain ⟨q, hmem, rfl⟩ := List.mem_map.1 hk'
  have hnone := (List.mem_filter.1 hmem).2
  rw [Option.isNone_iff_eq_none, find?, Validator.find?_key_eq_none_iff] at hnone
  exact hnone hk

end Property

/-! ### What validators accept -/

namespace Validator

open Outcome

/-- A validator that accepts the values that satisfy a condition, and no others. -/
def Admits (w : Validator) (P : Value → Prop) : Prop :=
  ∀ v, (∃ verdict, w.evaluate v = .ok verdict ∧ verdict.ok = true) ↔ P v

variable {w : Validator} {ws : List Validator} {nodes : List Node} {P : Value → Prop}
  {accepts : Node → Value → Prop}

/-- What is accepted is judged without a refusal, and nothing else is. -/
theorem Admits.refusal (h : w.Admits P) (v : Value) :
    (w.evaluate v >>= Verdict.refusal?) = .ok none ↔ P v := by
  rw [← h v]
  cases w.evaluate v with
  | error e => simp [bind, Except.bind]
  | ok verdict =>
    obtain ⟨ok, failure⟩ := verdict
    cases ok <;> cases failure <;> simp [bind, Except.bind, Verdict.refusal?, pure, Except.pure,
      throw, throwThe, MonadExceptOf.throw]

/-- Ending a judgement instead of refusing a value changes nothing for values accepted. -/
theorem Admits.guard (h : w.Admits P) (cannotRefuse : Value → Bool) :
    (guard cannotRefuse w).Admits P := by
  intro v
  rw [← h v, Validator.guard, evaluate]
  cases w.evaluate v with
  | error e => simp [bind, Except.bind]
  | ok verdict =>
    obtain ⟨ok, failure⟩ := verdict
    cases ok <;> cases cannotRefuse v <;> simp [bind, Except.bind, pure, Except.pure, throw,
      throwThe, MonadExceptOf.throw]

/-- Validators that accept what types stand for, one by one. -/
abbrev AdmitEach (accepts : Node → Value → Prop) : List Validator → List Node → Prop :=
  List.Forall₂ fun w n => w.Admits (accepts n)

/-- No member refuses a value just when all types accept it. -/
theorem AdmitEach.refusals (h : AdmitEach accepts ws nodes) (v : Value) :
    Validator.refusals ws v = .ok [] ↔ ∀ n ∈ nodes, accepts n v := by
  induction h with
  | nil => simp [Validator.refusals, pure, Except.pure]
  | @cons w n ws nodes hw _ ih =>
    rw [List.forall_mem_cons, ← hw.refusal v, ← ih, Validator.refusals, ← bind_assoc,
      bind_eq_ok_iff]
    constructor
    · rintro ⟨r, hr, h⟩
      obtain ⟨failures, hfailures, h⟩ := ok_of_bind h
      obtain ⟨hnone, rfl⟩ := List.append_eq_nil_iff.1 (Except.ok.inj h)
      obtain rfl := Option.toList_eq_nil_iff.1 hnone
      exact ⟨hr, hfailures⟩
    · rintro ⟨hr, hrest⟩
      exact ⟨none, hr, bind_of_ok hrest _⟩

theorem ok_judgeParts_iff {v : Value} {kind : FailureKind} {failures : List (Value × Failure)} :
    (judgeParts v kind failures).ok = true ↔ failures = [] := by
  cases failures <;> simp [judgeParts, Verdict.passed, Verdict.failed]

theorem admits_intersection (h : AdmitEach accepts ws nodes) :
    (intersection ws).Admits fun v => ∀ n ∈ nodes, accepts n v := by
  intro v
  refine Iff.trans ?_ (h.refusals v)
  rw [evaluate]
  constructor
  · rintro ⟨verdict, hv, hok⟩
    obtain ⟨failures, hfailures, hv⟩ := ok_of_bind hv
    cases hv
    rw [ok_judgeParts_iff, Failure.numbered, List.map_eq_nil_iff] at hok
    rw [hfailures, List.zipIdx_eq_nil_iff.1 hok]
  · exact fun hrefusals => ⟨_, bind_of_ok hrefusals _, rfl⟩

/-! ### Shapes -/

/-- What a value has to do with one property of an inexact shape: an item under its key is of
its type, and if the property is required there is one. -/
def Suits (accepts : Node → Value → Prop) (v : Value) (p : Property) : Prop :=
  (∀ entry ∈ v.observed, entry.1 = .text p.key → accepts p.value entry.2)
    ∧ (p.optional = false → ∃ entry ∈ v.observed, entry.1 = .text p.key)

/-- What an inexact shape without indexer accepts: containers and instances whose keys are all
texts and that suit each property. -/
structure OpenShape (accepts : Node → Value → Prop) (ps : List Property) (v : Value) : Prop where
  container : v.isArrayLike = true ∨ v.isObjectLike = true
  named : ∀ entry ∈ v.observed, ∃ key, entry.1 = .text key
  suits : ∀ p ∈ ps, Suits accepts v p

variable {pvs : List PropertyValidator} {ps qs : List Property}

/-- An item passes just when each type declared for its key accepts it. -/
theorem itemRefusal_eq_none_iff
    (h : List.Forall₂ (Node.ForProperty fun w n => w.Admits (accepts n)) pvs ps)
    (hd : (ps.map Property.key).Nodup) (key : String) (item : Value) :
    itemRefusal false pvs none key item = .ok none
      ↔ ∀ q ∈ ps, q.key = key → accepts q.value item := by
  rw [itemRefusal]
  obtain ⟨hmem, hnone⟩ | ⟨p, hp, rfl, w, hw, he⟩ := evaluateDeclared_cases h hd key item
  · rw [hnone]
    exact iff_of_true rfl fun q hq hk => absurd (List.mem_map.2 ⟨q, hq, hk⟩) hmem
  · rw [he]
    refine (hw.refusal item).trans ⟨fun haccepts q hq hk => ?_, fun hall => hall p hp rfl⟩
    rwa [List.inj_on_of_nodup_map hd hq hp hk]

/-- Keys without failures are texts, with items that pass. -/
theorem failingKeys_eq_nil_iff {check : String → Value → Except Fault (Option Failure)}
    (observed : List (Value × Value)) (failures : Table Failure) :
    failingKeys check observed failures = .ok (.ok [])
      ↔ failures = [] ∧ ∀ p ∈ observed, ∃ key, p.1 = .text key ∧ check key p.2 = .ok none := by
  induction observed generalizing failures with
  | nil => simp [failingKeys, pure, Except.pure]
  | cons p rest ih =>
    obtain ⟨k, item⟩ := p
    rw [List.forall_mem_cons]
    cases k with
    | text key =>
      simp only [Value.text.injEq, exists_eq_left']
      rw [failingKeys]
      cases check key item with
      | error e => simp [bind, Except.bind]
      | ok r =>
        cases r with
        | none =>
          change failingKeys check rest failures = _ ↔ _
          simpa using ih failures
        | some f =>
          change failingKeys check rest (Table.insert key f failures) = _ ↔ _
          simpa [insert_ne_nil] using ih (Table.insert key f failures)
    | _ => simp [failingKeys, pure, Except.pure]

/-- The keys and items of a value give no failures, and no key is missing, just when the keys
are texts and the value suits each property. -/
theorem suits_iff (h : List.Forall₂ (Node.ForProperty fun w n => w.Admits (accepts n)) pvs ps)
    (hd : (ps.map Property.key).Nodup) (v : Value) :
    (failingKeys (itemRefusal false pvs none) v.observed [] = .ok (.ok [])
        ∧ addMissing false v.observed [] pvs = [])
      ↔ (∀ entry ∈ v.observed, ∃ key, entry.1 = .text key) ∧ ∀ p ∈ ps, Suits accepts v p := by
  rw [failingKeys_eq_nil_iff, addMissing_eq_nil_iff h]
  simp only [true_and, itemRefusal_eq_none_iff h hd]
  constructor
  · rintro ⟨hkeyed, hpresent⟩
    refine ⟨fun entry he => (hkeyed entry he).imp fun _ hk => hk.1, fun p hp =>
      ⟨fun entry he hk => ?_, hpresent p hp⟩⟩
    obtain ⟨key, hkey, hall⟩ := hkeyed entry he
    exact hall p hp (Value.text.inj (hk.symm.trans hkey))
  · rintro ⟨hnamed, hsuits⟩
    refine ⟨fun entry he => ?_, fun p hp => (hsuits p hp).2⟩
    obtain ⟨key, hkey⟩ := hnamed entry he
    exact ⟨key, hkey, fun p hp hk => (hsuits p hp).1 entry he (by rw [hkey, hk])⟩

theorem admits_shape (h : List.Forall₂ (Node.ForProperty fun w n => w.Admits (accepts n)) pvs ps)
    (hd : (ps.map Property.key).Nodup) : (shape false pvs none).Admits (OpenShape accepts ps) := by
  intro v
  have hsuits := suits_iff h hd v
  rw [evaluate_shape, judgeShape]
  by_cases hc : (v.isArrayLike || v.isObjectLike) = true
  · rw [hc]
    constructor
    · rintro ⟨verdict, hv, hok⟩
      obtain ⟨result, hresult, hv⟩ := ok_of_bind hv
      cases result with
      | error key =>
        cases hv
        cases hok
      | ok failures =>
        cases hv
        rw [ok_judgeParts_iff, List.map_eq_nil_iff] at hok
        obtain rfl := ((addMissing_eq_nil_iff h false v.observed failures).1 hok).1
        obtain ⟨hnamed, hall⟩ := hsuits.1 ⟨hresult, hok⟩
        exact ⟨by simpa using hc, hnamed, hall⟩
    · intro hopen
      obtain ⟨hkeys, hmissing⟩ := hsuits.2 ⟨hopen.named, hopen.suits⟩
      exact ⟨_, bind_of_ok hkeys _, ok_judgeParts_iff.2 (List.map_eq_nil_iff.2 hmissing)⟩
  · rw [Bool.eq_false_iff.2 hc]
    constructor
    · rintro ⟨verdict, hv, hok⟩
      cases hv
      cases hok
    · exact fun hopen => absurd (by simpa using hopen.container) hc

/-- A value suits a property that stands for two just when it suits both. -/
theorem suits_meet_iff
    (hand : ∀ a b v, accepts (.intersection [a, b]) v ↔ accepts a v ∧ accepts b v)
    {p q : Property} (hkey : p.key = q.key) (v : Value) :
    Suits accepts v (p.meet q) ↔ Suits accepts v p ∧ Suits accepts v q := by
  obtain ⟨key, type, optional⟩ := p
  obtain ⟨_, type', optional'⟩ := q
  obtain rfl : key = _ := hkey
  have hrequired : ((optional && optional') = false → ∃ entry ∈ v.observed, entry.1 = .text key)
      ↔ (optional = false → ∃ entry ∈ v.observed, entry.1 = .text key)
        ∧ (optional' = false → ∃ entry ∈ v.observed, entry.1 = .text key) := by
    rw [Bool.and_eq_false_iff, or_imp]
  simp only [Suits, Property.meet, Property.key, Property.value, Property.optional, hand,
    hrequired, imp_and, forall_and]
  exact and_and_and_comm

/-- What suits merged properties is what suits those of both lists. -/
theorem openShape_merge_iff
    (hand : ∀ a b v, accepts (.intersection [a, b]) v ↔ accepts a v ∧ accepts b v)
    (hq : (qs.map Property.key).Nodup) (v : Value) :
    OpenShape accepts (Property.merge ps qs) v
      ↔ OpenShape accepts ps v ∧ OpenShape accepts qs v := by
  have hall : (∀ r ∈ Property.merge ps qs, Suits accepts v r)
      ↔ (∀ p ∈ ps, Suits accepts v p) ∧ ∀ q ∈ qs, Suits accepts v q :=
    Property.forall_mem_merge hq fun p q hkey => suits_meet_iff hand hkey v
  constructor
  · rintro ⟨hcontainer, hnamed, hsuits⟩
    exact ⟨⟨hcontainer, hnamed, (hall.1 hsuits).1⟩, hcontainer, hnamed, (hall.1 hsuits).2⟩
  · rintro ⟨⟨hcontainer, hnamed, hps⟩, -, -, hqs⟩
    exact ⟨hcontainer, hnamed, hall.2 ⟨hps, hqs⟩⟩

/-- The order in which properties are declared does not matter. -/
theorem openShape_perm {rs : List Property} (h : rs.Perm ps) (v : Value) :
    OpenShape accepts rs v ↔ OpenShape accepts ps v :=
  ⟨fun ⟨hcontainer, hnamed, hsuits⟩ => ⟨hcontainer, hnamed, fun p hp => hsuits p (h.mem_iff.2 hp)⟩,
    fun ⟨hcontainer, hnamed, hsuits⟩ => ⟨hcontainer, hnamed, fun p hp => hsuits p (h.mem_iff.1 hp)⟩⟩

/-! ### Validators that describe their refusals -/

variable {R : Validator → Node → Prop}

theorem forall₂_guardedAll (h : List.Forall₂ (fun w n => R w.guarded n) ws nodes) :
    List.Forall₂ R (guardedAll ws) nodes := by
  induction h with
  | nil => exact .nil
  | cons hw _ ih => exact .cons hw ih

theorem forall₂_guardedProperties
    (h : List.Forall₂ (Node.ForProperty fun w n => R w.guarded n) pvs ps) :
    List.Forall₂ (Node.ForProperty R) (guardedProperties pvs) ps := by
  induction h with
  | nil => exact .nil
  | @cons pv p pvs ps hp _ ih =>
    obtain ⟨key, w, optional⟩ := pv
    obtain ⟨_, type, _⟩ := p
    exact .cons hp ih

/-- A value is accepted when the judgement that describes its refusals gets to the end. -/
theorem accepts_iff (h : w.guarded.Renders) (v : Value) :
    w.Accepts v ↔ ∃ verdict, w.guarded.evaluate v = .ok verdict ∧ verdict.ok = true := by
  constructor
  · rintro ⟨verdict, hv, hok⟩
    rw [written] at hv
    obtain ⟨verdict', hv', hv⟩ := ok_of_bind hv
    split at hv
    · cases hv
    · cases hv
      exact ⟨verdict, hv', hok⟩
  · rintro ⟨verdict, hv, hok⟩
    have hfits := h v
    rw [hv] at hfits
    obtain ⟨r, rfl, -⟩ := hfits
    cases r with
    | none => exact ⟨_, bind_of_ok hv _, rfl⟩
    | some f => cases hok

end Validator

/-! ### Compiled types -/

namespace Node

open Outcome Validator

variable {assign : String → Predicate} {n : Node} {w : Validator} {ps qs rs : List Property}

/-- A type that compiles when its names stand for tests. -/
def Compiles (assign : String → Predicate) (n : Node) : Prop :=
  ∃ w, n.compile (resolveTo assign) = .ok w

/-- A type that compiles into a validator that accepts a value. -/
def Takes (assign : String → Predicate) (n : Node) (v : Value) : Prop :=
  ∃ w, n.compile (resolveTo assign) = .ok w ∧ w.Accepts v

theorem takes_iff (h : n.compile (resolveTo assign) = .ok w) (v : Value) :
    n.Takes assign v ↔ w.Accepts v := by
  constructor
  · rintro ⟨w', hw', haccepts⟩
    rwa [Except.ok.inj (h.symm.trans hw')]
  · exact fun haccepts => ⟨w, h, haccepts⟩

theorem admits_of_compile (h : n.compile (resolveTo assign) = .ok w) :
    w.guarded.Admits (n.Takes assign) :=
  fun v => ((takes_iff h v).trans (accepts_iff (guardedRenders_of_compile h) v)).symm

/-- What a compiled type accepts is said by what its validator, told of its refusals, admits. -/
theorem takes_iff_of_admits {P : Value → Prop} (h : n.compile (resolveTo assign) = .ok w)
    (hw : w.guarded.Admits P) (v : Value) : n.Takes assign v ↔ P v :=
  (admits_of_compile h v).symm.trans (hw v)

/-- Two types compile together just when each does. -/
theorem compile_pair_iff {a b : Node} :
    (intersection [a, b]).compile (resolveTo assign) = .ok w
      ↔ ∃ wa wb, a.compile (resolveTo assign) = .ok wa ∧ b.compile (resolveTo assign) = .ok wb
        ∧ w = .intersection [wa, wb] := by
  constructor
  · intro h
    obtain ⟨_, ⟨⟩, -⟩ | hassembled := resulting_except.compile h
    cases hassembled with
    | intersection _ hws =>
      obtain _ | ⟨ha, _ | ⟨hb, _ | _⟩⟩ := hws
      exact ⟨_, _, ha, hb, rfl⟩
  · rintro ⟨wa, wb, ha, hb, rfl⟩
    have hall : compileAll (resolveTo assign) [a, b] = .ok [wa, wb] := by
      rw [compileAll, compileAll, compileAll, ha, hb]
      rfl
    exact bind_of_ok hall _

theorem compiles_pair {a b : Node} :
    (intersection [a, b]).Compiles assign ↔ a.Compiles assign ∧ b.Compiles assign := by
  constructor
  · rintro ⟨w, hw⟩
    obtain ⟨wa, wb, ha, hb, -⟩ := compile_pair_iff.1 hw
    exact ⟨⟨wa, ha⟩, wb, hb⟩
  · rintro ⟨⟨wa, ha⟩, wb, hb⟩
    exact ⟨_, compile_pair_iff.2 ⟨wa, wb, ha, hb, rfl⟩⟩

theorem takes_pair (a b : Node) (v : Value) :
    (intersection [a, b]).Takes assign v ↔ a.Takes assign v ∧ b.Takes assign v := by
  have hboth : ∀ wa wb, a.compile (resolveTo assign) = .ok wa →
      b.compile (resolveTo assign) = .ok wb →
      ((intersection [a, b]).Takes assign v ↔ a.Takes assign v ∧ b.Takes assign v) := by
    intro wa wb ha hb
    have heach : AdmitEach (Takes assign) (guardedAll [wa, wb]) [a, b] :=
      forall₂_guardedAll (.cons (admits_of_compile ha) (.cons (admits_of_compile hb) .nil))
    rw [takes_iff_of_admits (compile_pair_iff.2 ⟨wa, wb, ha, hb, rfl⟩)
      ((admits_intersection heach).guard _)]
    simp
  constructor
  · rintro ⟨w, hw, haccepts⟩
    obtain ⟨wa, wb, ha, hb, -⟩ := compile_pair_iff.1 hw
    exact (hboth wa wb ha hb).1 ⟨w, hw, haccepts⟩
  · rintro ⟨⟨wa, ha, hwa⟩, wb, hb, hwb⟩
    exact (hboth wa wb ha hb).2 ⟨⟨wa, ha, hwa⟩, wb, hb, hwb⟩

theorem exists_of_forProperty {R : Validator → Node → Prop} {pvs : List PropertyValidator}
    (h : List.Forall₂ (ForProperty R) pvs ps) : ∀ p ∈ ps, ∃ w, R w p.value := by
  induction h with
  | nil => exact fun p hp => absurd hp List.not_mem_nil
  | @cons pv p pvs ps hpv _ ih =>
    obtain ⟨key, w, optional⟩ := pv
    obtain ⟨_, type, _⟩ := p
    exact List.forall_mem_cons.2 ⟨⟨w, hpv.2.2⟩, ih⟩

/-- The validator of an open shape is one of the types of its properties. -/
theorem forProperty_of_compile_shape
    (h : (shape false ps none).compile (resolveTo assign) = .ok w) :
    ∃ pvs, w = .shape false pvs none
      ∧ List.Forall₂ (ForProperty fun w n => n.compile (resolveTo assign) = .ok w) pvs ps := by
  obtain ⟨pvs, hpvs, h⟩ := ok_of_bind h
  cases h
  exact ⟨pvs, rfl, resulting_except.compileProperties hpvs⟩

/-- An open shape compiles just when the types of its properties do. -/
theorem compiles_shape_iff :
    (shape false ps none).Compiles assign ↔ ∀ p ∈ ps, p.value.Compiles assign := by
  constructor
  · rintro ⟨w, h⟩
    obtain ⟨pvs, -, hps⟩ := forProperty_of_compile_shape h
    exact exists_of_forProperty hps
  · intro h
    obtain ⟨pvs, hpvs, -⟩ := exists_compileProperties (R := fun _ _ => True) fun p hp =>
      (h p hp).imp fun _ hw => ⟨hw, trivial⟩
    exact ⟨.shape false pvs none, bind_of_ok hpvs _⟩

/-- What an open shape takes is said by what the types of its properties take. -/
theorem takes_shape (hc : (shape false ps none).Compiles assign) (hd : (ps.map Property.key).Nodup)
    (v : Value) : (shape false ps none).Takes assign v ↔ OpenShape (Takes assign) ps v := by
  obtain ⟨w, h⟩ := hc
  obtain ⟨pvs, rfl, hps⟩ := forProperty_of_compile_shape h
  have hadmits : List.Forall₂ (ForProperty fun w n => w.Admits (n.Takes assign))
      (guardedProperties pvs) ps :=
    forall₂_guardedProperties (R := fun w n => w.Admits (n.Takes assign))
      (forProperty_imp_of_mem (fun _ _ _ hw => admits_of_compile hw) hps)
  exact takes_iff_of_admits h ((admits_shape hadmits hd).guard _) v

theorem answers_of_compile (h : n.compile (resolveTo assign) = .ok w) {v : Value}
    (hv : v.Writable) : w.Answers v := by
  have hends := (guardedRenders_of_compile h).written v
  cases hw : w.written v with
  | error e =>
    rw [hw] at hends
    exact absurd hv hends.2
  | ok verdict =>
    rw [hw] at hends
    exact hends.answers hw

/-- An intersection of two inexact shapes without indexer accepts what the one shape accepts that
has the properties of both in any order: a key of both with the intersection of its types, and
optional only if it is in both. Either compiles when the other does, and both answer. -/
theorem intersection_accepts_iff_merge (assign : String → Predicate) {ps qs rs : List Property}
    (hp : (ps.map Property.key).Nodup) (hq : (qs.map Property.key).Nodup)
    (hr : rs.Perm (Property.merge ps qs)) :
    ((intersection [shape false ps none, shape false qs none]).Compiles assign
        ↔ (shape false rs none).Compiles assign)
      ∧ ∀ w w',
        (intersection [shape false ps none, shape false qs none]).compile (resolveTo assign)
          = .ok w →
        (shape false rs none).compile (resolveTo assign) = .ok w' →
        ∀ v, (w.Accepts v ↔ w'.Accepts v) ∧ (v.Writable → w.Answers v ∧ w'.Answers v) := by
  have hmem : ∀ Q : Property → Prop, (∀ r ∈ rs, Q r) ↔ ∀ r ∈ Property.merge ps qs, Q r :=
    fun Q => forall_congr' fun r => by rw [hr.mem_iff]
  have hcompiles : (intersection [shape false ps none, shape false qs none]).Compiles assign
      ↔ (shape false rs none).Compiles assign := by
    rw [compiles_pair, compiles_shape_iff, compiles_shape_iff, compiles_shape_iff, hmem,
      Property.forall_mem_merge hq fun p q _ => compiles_pair]
  refine ⟨hcompiles, fun w w' hw hw' v => ⟨?_, fun hv =>
    ⟨answers_of_compile hw hv, answers_of_compile hw' hv⟩⟩⟩
  obtain ⟨hps, hqs⟩ := compiles_pair.1 ⟨w, hw⟩
  have hd : (rs.map Property.key).Nodup :=
    (hr.map Property.key).nodup_iff.2 (Property.nodup_merge hp hq)
  calc w.Accepts v
      ↔ (intersection [shape false ps none, shape false qs none]).Takes assign v :=
        (takes_iff hw v).symm
    _ ↔ OpenShape (Takes assign) ps v ∧ OpenShape (Takes assign) qs v := by
        rw [takes_pair, takes_shape hps hp, takes_shape hqs hq]
    _ ↔ OpenShape (Takes assign) (Property.merge ps qs) v :=
        (openShape_merge_iff takes_pair hq v).symm
    _ ↔ OpenShape (Takes assign) rs v := (openShape_perm hr v).symm
    _ ↔ (shape false rs none).Takes assign v := (takes_shape ⟨w', hw'⟩ hd v).symm
    _ ↔ w'.Accepts v := takes_iff hw' v

/-- The properties of `{name: string | int, tags?: string[]}`. -/
def labelled : List Property :=
  [.mk "name" (.union [.leaf "string", .leaf "int"]) false,
    .mk "tags" (.array (.leaf "string")) true]

/-- The properties of `{tags: *[], name?: string, id: {of?: int}}`. -/
def identified : List Property :=
  [.mk "tags" (.array (.leaf "*")) false, .mk "name" (.leaf "string") true,
    .mk "id" (.shape false [.mk "of" (.leaf "int") true] none) false]

/-- The properties of `{id: {of?: int}, name: (string | int) & string, tags: string[] & *[]}`. -/
def labelledIdentified : List Property :=
  [.mk "id" (.shape false [.mk "of" (.leaf "int") true] none) false,
    .mk "name" (.intersection [.union [.leaf "string", .leaf "int"], .leaf "string"]) false,
    .mk "tags" (.intersection [.array (.leaf "string"), .array (.leaf "*")]) false]

theorem labelled_identified_accepts : (labelled.map Property.key).Nodup
    ∧ (identified.map Property.key).Nodup
    ∧ labelledIdentified.Perm (Property.merge labelled identified)
    ∧ ∃ w w',
      (intersection [shape false labelled none, shape false identified none]).compile
        (resolveTo keywordPredicate) = .ok w
      ∧ (shape false labelledIdentified none).compile (resolveTo keywordPredicate) = .ok w'
      ∧ ∀ v, (w.Accepts v ↔ w'.Accepts v) ∧ (v.Writable → w.Answers v ∧ w'.Answers v) := by
  have hp : (labelled.map Property.key).Nodup := by decide
  have hq : (identified.map Property.key).Nodup := by decide
  have hr : labelledIdentified.Perm (Property.merge labelled identified) :=
    @List.perm_append_comm _ (labelledIdentified.take 1) (labelledIdentified.drop 1)
  exact ⟨hp, hq, hr, _, _, rfl, rfl,
    (intersection_accepts_iff_merge keywordPredicate hp hq hr).2 _ _ rfl rfl⟩

end Node

end StructuralTypes

import StructuralTypes.Failure.Points
import StructuralTypes.Proofs.Assembly
import StructuralTypes.Proofs.Blame
import StructuralTypes.Proofs.Expansion
import StructuralTypes.Proofs.Tables
import StructuralTypes.Validator.Guarded

/-! What failures are made of. The failure of a value under a composite type holds failures of
the same value, numbered, or failures of its items under their keys. So a property passes to
every failure of a compiled type once it passes from the failures held by one to that one, and
in the same way something is known of every fault that ends a judgement. -/

namespace StructuralTypes

open Outcome

/-! ### One level of a failure -/

namespace Failure

variable (P : Value → Failure → Prop)

/-- A failure under the key of an item is one of the item. -/
def IsOfItem (p : Value × Failure) (q : Value × Value) : Prop :=
  p.1 = q.1 ∧ P q.2 p.2

/-- A failure under a text is one of the value itself, or of an item with this key. -/
def IsOfProperty (v : Value) (p : String × Failure) : Prop :=
  P v p.2 ∨ ∃ item, (.text p.1, item) ∈ v.observed ∧ P item p.2

/-- How a failure of a value is made of failures of the value and of its items. -/
inductive Composed (v : Value) : Failure → Prop
  | childless {f : Failure} (hf : f.hasFittingChildren = true) (h : f.children = []) :
    Composed v f
  | alternatives {failures : List Failure} (hlen : 2 ≤ failures.length)
    (h : ∀ f ∈ failures, P v f) : Composed v (.composite v .withUnion (numbered failures))
  | requirements {failures : List Failure} (hne : failures ≠ []) (h : ∀ f ∈ failures, P v f) :
    Composed v (.composite v .withIntersection (numbered failures))
  | members {entries : List (Value × Value)} {failures : List (Value × Failure)}
    (he : v.entries? = some entries) (hne : failures ≠ [])
    (h : List.SublistForall₂ (IsOfItem P) failures entries) :
    Composed v (.composite v .inArrayMembers failures)
  | positions {items : List Value} {failures : List (Value × Failure)}
    (he : v.elements? = some items) (hne : failures ≠ [])
    (h : List.SublistForall₂ (IsOfItem P) failures (Value.positions items)) :
    Composed v (.composite v .inTupleMembers failures)
  | properties {exact : Bool} {failures : Table Failure} (hne : failures ≠ [])
    (hd : (Table.keys failures).Nodup) (h : ∀ p ∈ failures, IsOfProperty P v p) :
    Composed v (.composite v (if exact then .inExactShapeProperties else .inShapeProperties)
      (Value.named failures))

end Failure

/-- Each of the failures of items is one of some item. -/
theorem Failure.exists_mem_of_sublistForall₂ {P : Value → Failure → Prop}
    {failures : List (Value × Failure)} {entries : List (Value × Value)}
    (h : List.SublistForall₂ (IsOfItem P) failures entries) {p : Value × Failure}
    (hp : p ∈ failures) : ∃ q ∈ entries, IsOfItem P p q := by
  induction h with
  | nil => exact absurd hp List.not_mem_nil
  | @cons first item failures entries hfirst _ ih =>
    obtain rfl | hp := List.mem_cons.1 hp
    · exact ⟨item, List.mem_cons_self, hfirst⟩
    · obtain ⟨q, hq, hpq⟩ := ih hp
      exact ⟨q, List.mem_cons_of_mem item hq, hpq⟩
  | @cons_right item failures entries _ ih =>
    obtain ⟨q, hq, hpq⟩ := ih hp
    exact ⟨q, List.mem_cons_of_mem item hq, hpq⟩

/-- A verdict that has a failure just when it refuses, one with a property. -/
def Verdict.Has (good : Failure → Prop) (verdict : Verdict) : Prop :=
  ∃ r, verdict = .of r ∧ ∀ f ∈ r, good f

section Has

variable {good : Failure → Prop} {bad : Fault → Prop} {verdict : Verdict}

theorem Verdict.has_passed : Verdict.passed.Has good :=
  ⟨none, rfl, by simp⟩

theorem Verdict.has_failed {f : Failure} (h : good f) : (Verdict.failed f).Has good :=
  ⟨some f, rfl, by rintro _ ⟨⟩; exact h⟩

/-- The failure of a refused part is there. -/
theorem Verdict.Has.refusal? (h : verdict.Has good) :
    Ends bad (fun r => ∀ f ∈ r, good f) verdict.refusal? := by
  obtain ⟨r, rfl, hr⟩ := h
  rw [Verdict.refusal?_of]
  exact hr

end Has

namespace Validator

open Failure

/-- Faults pass from the judgement of a part to that of the whole, an overlong number is one of
them, and failures have a property that those they hold have. -/
structure Passing (E : Value → Fault → Prop) (P : Value → Failure → Prop) : Prop where
  item {v : Value} {p : Value × Value} {e : Fault} (hp : p ∈ v.observed) (he : E p.2 e) : E v e
  key {s : String} {v : Value} {e : Fault} (he : E (.text s) e) : E v e
  overlong {v : Value} (h : (v.isOverlong || v.hasOverlongKey) = true) : E v (.overlong .written)
  composed {v : Value} {f : Failure} (h : f.Composed P v) : P v f

/-- A validator whose judgement of a value ends with a fault of one kind, or with a verdict whose
failure is of another kind. -/
def Judges (E : Value → Fault → Prop) (P : Value → Failure → Prop) (w : Validator) : Prop :=
  ∀ v, Ends (E v) (Verdict.Has (P v)) (w.evaluate v)

variable {E : Value → Fault → Prop} {P : Value → Failure → Prop} {bad : Fault → Prop}
  {w : Validator} {ws : List Validator} {v : Value}

/-- The verdict on a part, seen from the whole. -/
theorem Judges.part (h : w.Judges E P) (hE : ∀ e, E v e → bad e) :
    Ends bad (Verdict.Has (P v)) (w.evaluate v) :=
  (h v).imp hE fun _ => id

theorem Passing.childless (G : Passing E P) {f : Failure} (hf : f.hasFittingChildren = true)
    (h : f.children = []) : P v f :=
  G.composed (.childless hf h)

/-! ### Failures of parts -/

theorem ends_refusedByAll (h : ∀ w ∈ ws, w.Judges E P) (v : Value) :
    Ends (E v) (fun r => ∀ failures ∈ r, failures.length = ws.length ∧ ∀ f ∈ failures, P v f)
      (refusedByAll ws v) := by
  induction ws with
  | nil =>
    rintro _ ⟨⟩
    exact ⟨rfl, by simp⟩
  | cons w rest ih =>
    rw [List.forall_mem_cons] at h
    rw [refusedByAll]
    refine (h.1 v).bind fun verdict hv => hv.refusal?.bind fun r hr => ?_
    cases r with
    | none => simp [Ends, pure, Except.pure]
    | some f =>
      refine (ih h.2).bind fun r' hr' => ?_
      rintro _ hm
      obtain ⟨failures, rfl, rfl⟩ := Option.map_eq_some_iff.1 hm
      obtain ⟨hlen, hall⟩ := hr' failures rfl
      exact ⟨congrArg Nat.succ hlen, List.forall_mem_cons.2 ⟨hr f rfl, hall⟩⟩

theorem ends_refusals (h : ∀ w ∈ ws, w.Judges E P) (v : Value) :
    Ends (E v) (fun failures => ∀ f ∈ failures, P v f) (refusals ws v) := by
  induction ws with
  | nil => exact fun f hf => absurd hf List.not_mem_nil
  | cons w rest ih =>
    rw [List.forall_mem_cons] at h
    rw [refusals]
    refine (h.1 v).bind fun verdict hv => hv.refusal?.bind fun r hr => ?_
    refine (ih h.2).bind fun failures hfailures f hf => ?_
    obtain hf | hf := List.mem_append.1 hf
    · exact hr f (Option.mem_toList.1 hf)
    · exact hfailures f hf

/-- The failure of an item, if there is one, comes before those of the items behind it. -/
theorem sublistForall₂_append {key item : Value} {r : Option Failure}
    {failures : List (Value × Failure)} {entries : List (Value × Value)}
    (hr : ∀ f ∈ r, P item f) (h : List.SublistForall₂ (IsOfItem P) failures entries) :
    List.SublistForall₂ (IsOfItem P) ((r.map fun f => (key, f)).toList ++ failures)
      ((key, item) :: entries) := by
  cases r with
  | none => exact .cons_right h
  | some f => exact .cons ⟨rfl, hr f rfl⟩ h

theorem ends_failingItems (h : w.Judges E P) {entries : List (Value × Value)}
    (hE : ∀ p ∈ entries, ∀ e, E p.2 e → bad e) :
    Ends bad (fun failures => List.SublistForall₂ (IsOfItem P) failures entries)
      (failingItems (fun item => w.evaluate item) entries) := by
  induction entries with
  | nil => exact .nil
  | cons p rest ih =>
    obtain ⟨key, item⟩ := p
    rw [List.forall_mem_cons] at hE
    rw [failingItems]
    refine (h.part hE.1).bind fun verdict hv => hv.refusal?.bind fun r hr => ?_
    exact (ih hE.2).bind fun failures hfailures => sublistForall₂_append hr hfailures

theorem ends_failingPositions (h : ∀ w ∈ ws, w.Judges E P) {position : Nat} {items : List Value}
    (hE : ∀ p ∈ (items.zipIdx position).map fun p => (Value.int p.2, p.1),
      ∀ e, E p.2 e → bad e) :
    Ends bad (fun failures => List.SublistForall₂ (IsOfItem P) failures
        ((items.zipIdx position).map fun p => (.int p.2, p.1)))
      (failingPositions ws position items) := by
  induction ws generalizing position items with
  | nil =>
    rw [failingPositions]
    · exact .nil
    · simp
  | cons w rest ih =>
    cases items with
    | nil => exact .nil
    | cons item items =>
      rw [List.forall_mem_cons] at h
      rw [List.zipIdx_cons, List.map_cons] at hE ⊢
      rw [List.forall_mem_cons] at hE
      rw [failingPositions]
      refine (h.1.part hE.1).bind fun verdict hv => hv.refusal?.bind fun r hr => ?_
      exact (ih h.2 hE.2).bind fun failures hfailures => sublistForall₂_append hr hfailures

/-! ### Verdicts of composites -/

theorem Passing.judgeParts (G : Passing E P) {kind : FailureKind}
    {failures : List (Value × Failure)}
    (h : failures ≠ [] → (Failure.composite v kind failures).Composed P v) :
    (judgeParts v kind failures).Has (P v) := by
  cases failures with
  | nil => exact Verdict.has_passed
  | cons p rest => exact Verdict.has_failed (G.composed (h (List.cons_ne_nil p rest)))

theorem Passing.judgeAlternatives (G : Passing E P) {failures : List Failure}
    (hne : failures ≠ []) (h : ∀ f ∈ failures, P v f) :
    (judgeAlternatives v failures).Has (P v) := by
  match failures, hne with
  | [f], _ => exact Verdict.has_failed (h f List.mem_cons_self)
  | f :: g :: rest, _ =>
    exact Verdict.has_failed (G.composed (.alternatives (by simp) h))

/-! ### Shapes -/

variable {pvs : List PropertyValidator} {iv : Option IndexerValidator}

def JudgesProperty (E : Value → Fault → Prop) (P : Value → Failure → Prop) :
    PropertyValidator → Prop
  | .mk _ w _ => w.Judges E P

def JudgesIndexer (E : Value → Fault → Prop) (P : Value → Failure → Prop) :
    IndexerValidator → Prop
  | .mk key w => key.Judges E P ∧ w.Judges E P

theorem ends_evaluateDeclared (h : ∀ pv ∈ pvs, JudgesProperty E P pv) {key : String}
    {item : Value} (hE : ∀ e, E item e → bad e) {verdict : Except Fault Verdict}
    (hv : evaluateDeclared pvs key item = some verdict) :
    Ends bad (Verdict.Has (P item)) verdict := by
  induction pvs with
  | nil => cases hv
  | cons pv rest ih =>
    obtain ⟨declared, w, optional⟩ := pv
    obtain ⟨hw, hrest⟩ := List.forall_mem_cons.1 h
    rw [evaluateDeclared] at hv
    cases hlater : evaluateDeclared rest key item with
    | some later =>
      rw [hlater] at hv
      exact ih hrest (hlater.trans hv)
    | none =>
      rw [hlater] at hv
      obtain ⟨-, ⟨⟩⟩ := Option.ite_none_right_eq_some.1 hv
      exact Judges.part hw hE

/-- The refusal of an observed item is a failure of the value or of the item. -/
abbrev EndsInRefusal (P : Value → Failure → Prop) (bad : Fault → Prop) (v item : Value)
    (e : Except Fault (Option Failure)) : Prop :=
  Ends bad (fun r => ∀ f ∈ r, P v f ∨ P item f) e

theorem endsInRefusal_of_has {item : Value} {e : Except Fault Verdict}
    (h : Ends bad (Verdict.Has (P item)) e) :
    EndsInRefusal P bad v item (e >>= Verdict.refusal?) :=
  h.bind fun _ hv => hv.refusal?.imp (fun _ => id) fun _ hr f hf => .inr (hr f hf)

theorem ends_checkUndeclared (G : Passing E P) (h : ∀ i ∈ iv, JudgesIndexer E P i) (exact : Bool)
    (key : String) {item : Value} (hE : ∀ e, E item e → E v e) :
    EndsInRefusal P (E v) v item (checkUndeclared exact (indexerChecks iv) key item) := by
  have hextra : P v (extraKey exact key) := G.childless rfl rfl
  rcases iv with _ | ⟨wk, w⟩
  · cases exact
    · rintro _ ⟨⟩
    · rintro _ ⟨⟩
      exact .inl hextra
  · obtain ⟨hkey, hw⟩ := h _ rfl
    have hrefusal : EndsInRefusal P (E v) v item (w.evaluate item >>= Verdict.refusal?) :=
      endsInRefusal_of_has (hw.part hE)
    cases exact with
    | false => exact hrefusal
    | true =>
      refine (hkey.part fun _ => G.key).bind fun verdict _ => ?_
      cases verdict.ok with
      | false =>
        rintro _ ⟨⟩
        exact .inl hextra
      | true => exact hrefusal

theorem ends_itemRefusal (G : Passing E P) (hp : ∀ pv ∈ pvs, JudgesProperty E P pv)
    (hi : ∀ i ∈ iv, JudgesIndexer E P i) (exact : Bool) (key : String) {item : Value}
    (hE : ∀ e, E item e → E v e) :
    EndsInRefusal P (E v) v item (itemRefusal exact pvs iv key item) := by
  rw [itemRefusal]
  cases hv : evaluateDeclared pvs key item with
  | some verdict => exact endsInRefusal_of_has (ends_evaluateDeclared hp hE hv)
  | none => exact ends_checkUndeclared G hi exact key hE

/-- Failures under distinct texts, of a value or of its items. -/
structure AreOfProperties (P : Value → Failure → Prop) (v : Value) (t : Table Failure) : Prop where
  nodup : (Table.keys t).Nodup
  each : ∀ p ∈ t, IsOfProperty P v p

theorem AreOfProperties.insert {t : Table Failure} (h : AreOfProperties P v t) {key : String}
    {f : Failure} (hf : IsOfProperty P v (key, f)) :
    AreOfProperties P v (Table.insert key f t) where
  nodup := Table.nodup_keys_insert h.nodup key f
  each p hp := by
    obtain rfl | hp := Table.mem_insert hp
    · exact hf
    · exact h.each p hp

theorem ends_failingKeys {check : String → Value → Except Fault (Option Failure)}
    {entries : List (Value × Value)} (hv : ∀ p ∈ entries, p ∈ v.observed)
    (hcheck : ∀ p ∈ entries, ∀ key, EndsInRefusal P bad v p.2 (check key p.2))
    {t : Table Failure} (ht : AreOfProperties P v t) :
    Ends bad (fun r => ∀ failures, r = .ok failures → AreOfProperties P v failures)
      (failingKeys check entries t) := by
  induction entries generalizing t with
  | nil =>
    rintro _ ⟨⟩
    exact ht
  | cons p rest ih =>
    obtain ⟨k, item⟩ := p
    rw [List.forall_mem_cons] at hv hcheck
    cases k with
    | text key =>
      refine (hcheck.1 key).bind fun r hr => ?_
      cases r with
      | none => exact ih hv.2 hcheck.2 ht
      | some f =>
        refine ih hv.2 hcheck.2 (ht.insert ?_)
        exact (hr f rfl).imp_right fun hf => ⟨item, hv.1, hf⟩
    | _ => rintro _ ⟨⟩

theorem Passing.addMissing (G : Passing E P) {t : Table Failure} (ht : AreOfProperties P v t)
    (exact : Bool) (observed : List (Value × Value)) (pvs : List PropertyValidator) :
    AreOfProperties P v (addMissing exact observed t pvs) := by
  induction pvs generalizing t with
  | nil => exact ht
  | cons pv rest ih =>
    obtain ⟨key, w, optional⟩ := pv
    refine ih ?_
    split
    · exact ht
    · exact ht.insert (.inl (G.childless rfl rfl))

/-- What a shape makes of the failures under observed keys and of absent keys. -/
theorem ends_judgeShape (G : Passing E P)
    {check : String → Value → Except Fault (Option Failure)} (exact : Bool)
    (pvs : List PropertyValidator)
    (hcheck : ∀ p ∈ v.observed, ∀ key, EndsInRefusal P (E v) v p.2 (check key p.2)) :
    Ends (E v) (Verdict.Has (P v)) (judgeShape exact pvs check v) := by
  rw [judgeShape]
  cases v.isArrayLike || v.isObjectLike with
  | false =>
    refine Verdict.has_failed (G.childless ?_ rfl)
    cases exact <;> rfl
  | true =>
    have hnone : AreOfProperties P v [] := ⟨List.nodup_nil, fun p hp => absurd hp List.not_mem_nil⟩
    refine (ends_failingKeys (fun p hp => hp) hcheck hnone).bind fun r hr => ?_
    cases r with
    | error key =>
      refine Verdict.has_failed (G.childless ?_ rfl)
      cases exact <;> rfl
    | ok failures =>
      have hall := G.addMissing (hr failures rfl) exact v.observed pvs
      refine G.judgeParts fun hne => .properties (fun he => hne ?_) hall.nodup hall.each
      rw [he]
      rfl

/-! ### Validators made of others -/

theorem Passing.predicate (G : Passing E P) (p : Predicate) : (predicate p).Judges E P := by
  intro v
  rw [evaluate]
  split
  · exact Verdict.has_passed
  · exact Verdict.has_failed (G.childless rfl rfl)

theorem Passing.union (G : Passing E P) (hne : ws ≠ []) (h : ∀ w ∈ ws, w.Judges E P) :
    (union ws).Judges E P := by
  intro v
  rw [evaluate]
  refine (ends_refusedByAll h v).bind fun r hr => ?_
  cases r with
  | none => exact Verdict.has_passed
  | some failures =>
    obtain ⟨hlen, hall⟩ := hr failures rfl
    refine G.judgeAlternatives (fun he => hne (List.length_eq_zero_iff.1 ?_)) hall
    rw [← hlen, he]
    rfl

theorem Passing.intersection (G : Passing E P) (h : ∀ w ∈ ws, w.Judges E P) :
    (intersection ws).Judges E P := by
  intro v
  rw [evaluate]
  refine (ends_refusals h v).bind fun failures hfailures =>
    G.judgeParts fun hne => .requirements (fun he => hne ?_) hfailures
  rw [he]
  rfl

theorem Passing.array (G : Passing E P) (h : w.Judges E P) : (array w).Judges E P := by
  intro v
  rw [evaluate]
  cases he : v.entries? with
  | none => exact Verdict.has_failed (G.childless rfl rfl)
  | some entries =>
    have hE : ∀ p ∈ entries, ∀ e, E p.2 e → E v e :=
      fun p hp e => G.item ((Node.observed_of_entries? he).symm ▸ hp)
    exact (ends_failingItems h hE).bind fun failures hfailures =>
      G.judgeParts fun hne => .members he hne hfailures

theorem Passing.tuple (G : Passing E P) (h : ∀ w ∈ ws, w.Judges E P) : (tuple ws).Judges E P := by
  intro v
  rw [evaluate]
  cases he : v.elements? with
  | none => exact Verdict.has_failed (G.childless rfl rfl)
  | some items =>
    dsimp only
    split
    · exact Verdict.has_failed (G.childless rfl rfl)
    · have hE : ∀ p ∈ Value.positions items, ∀ e, E p.2 e → E v e :=
        fun p hp e => G.item ((Node.observed_of_elements? he).symm ▸ hp)
      exact (ends_failingPositions h hE).bind fun failures hfailures =>
        G.judgeParts fun hne => .positions he hne hfailures

theorem Passing.shape (G : Passing E P) (hp : ∀ pv ∈ pvs, JudgesProperty E P pv)
    (hi : ∀ i ∈ iv, JudgesIndexer E P i) (exact : Bool) : (shape exact pvs iv).Judges E P := by
  intro v
  rw [evaluate_shape]
  exact ends_judgeShape G exact pvs fun p hm key =>
    ends_itemRefusal G hp hi exact key fun _ => G.item hm

/-- Ending a judgement at a number with too many digits adds that fault only. -/
theorem Judges.guard (h : w.Judges E P) {cannotRefuse : Value → Bool}
    (hE : ∀ v, cannotRefuse v = true → E v (.overlong .written)) :
    (guard cannotRefuse w).Judges E P := by
  intro v
  rw [Validator.guard, evaluate]
  refine (h v).bind fun verdict hv => ?_
  split
  case isTrue hg =>
    rw [Bool.and_eq_true] at hg
    exact hE v hg.2
  case isFalse => exact hv

end Validator

namespace Node

open Validator

/-! ### Compiled types -/

variable {E : Value → Fault → Prop} {P : Value → Failure → Prop}

/-- A type and a validator whose refusals are told. -/
abbrev GuardedJudges (E : Value → Fault → Prop) (P : Value → Failure → Prop) (w : Validator)
    (_ : Node) : Prop :=
  w.guarded.Judges E P

theorem judges_guardedAll {ws : List Validator} {nodes : List Node}
    (h : List.Forall₂ (GuardedJudges E P) ws nodes) : ∀ w ∈ guardedAll ws, w.Judges E P := by
  induction h with
  | nil => exact fun w hw => absurd hw List.not_mem_nil
  | cons hw _ ih => exact List.forall_mem_cons.2 ⟨hw, ih⟩

theorem judges_guardedProperties {pvs : List PropertyValidator} {ps : List Property}
    (h : List.Forall₂ (ForProperty (GuardedJudges E P)) pvs ps) :
    ∀ pv ∈ guardedProperties pvs, JudgesProperty E P pv := by
  induction h with
  | nil => exact fun pv hpv => absurd hpv List.not_mem_nil
  | @cons pv p pvs ps hw _ ih =>
    obtain ⟨key, w, optional⟩ := pv
    obtain ⟨_, type, _⟩ := p
    exact List.forall_mem_cons.2 ⟨hw.2.2, ih⟩

theorem judges_guardedIndexer {iv : Option IndexerValidator} {ix : Option Indexer}
    (h : ForIndexer (GuardedJudges E P) iv ix) :
    ∀ i ∈ guardedIndexer iv, JudgesIndexer E P i := by
  rcases iv with _ | ⟨key, w⟩ <;> rcases ix with _ | ⟨keyType, type⟩
  · rintro _ ⟨⟩
  · cases h
  · cases h
  · rintro _ ⟨⟩
    exact h

/-- What is assembled judges as its parts do. -/
theorem Assembled.judges (G : Passing E P) {w : Validator} {n : Node}
    (h : Assembled (GuardedJudges E P) w n) : w.guarded.Judges E P := by
  have hwhole : ∀ v : Value, v.isOverlong = true → E v (.overlong .written) :=
    fun v hv => G.overlong (by rw [hv, Bool.true_or])
  cases h with
  | @union ws members hne h =>
    refine (G.union ?_ (judges_guardedAll h)).guard hwhole
    cases h with
    | nil => exact absurd rfl hne
    | cons => exact List.cons_ne_nil _ _
  | intersection _ h => exact (G.intersection (judges_guardedAll h)).guard hwhole
  | array h => exact (G.array h).guard hwhole
  | tuple _ h => exact (G.tuple (judges_guardedAll h)).guard hwhole
  | @shape exact pvs ps iv ix hp hi =>
    exact (G.shape (judges_guardedProperties hp) (judges_guardedIndexer hi) exact).guard
      fun _ => G.overlong

theorem judges_predicate (G : Passing E P) (p : Predicate) : (predicate p).guarded.Judges E P :=
  (G.predicate p).guard fun v hv => G.overlong (by rw [hv, Bool.true_or])

theorem judges_builtin (G : Passing E P) {name : String} {w : Validator}
    (h : builtinValidator name = .ok w) : w.guarded.Judges E P := by
  rw [builtinValidator] at h
  split at h
  · cases h
    exact judges_predicate G _
  · cases h
  · cases h

/-- What passes from parts to wholes is known of every judgement of a type of keywords and
literals. -/
theorem judges_of_plain (G : Passing E P) {n : Node} {w : Validator}
    (h : plainValidator n = .ok w) : w.guarded.Judges E P :=
  resulting_except.induction (P := GuardedJudges E P) (judges_builtin G) (Assembled.judges G) h

theorem failure_of_guarded (G : Passing E P) {n : Node} {w : Validator} {v : Value} {f : Failure}
    (hn : plainValidator n = .ok w) (hv : w.guarded.evaluate v = .ok (.failed f)) : P v f := by
  have hends := judges_of_plain G hn v
  rw [hv] at hends
  obtain ⟨r, hr, hall⟩ := hends
  cases r with
  | none => cases hr
  | some f' =>
    cases hr
    exact hall f rfl

end Node

end StructuralTypes

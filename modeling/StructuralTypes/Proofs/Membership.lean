import Mathlib.Data.List.Nodup
import StructuralTypes.Node.Meaning
import StructuralTypes.Proofs.Outcomes
import StructuralTypes.Proofs.Walk
import StructuralTypes.Validator.Compile
import StructuralTypes.Validator.Evaluate

/-! A compiled type accepts the values that belong to it. Each kind of validator decides a
condition on values as long as its parts decide theirs, and compiling a type combines the
validators of its parts just as the meaning of the type combines theirs. -/

namespace StructuralTypes

namespace Node

/-- A property validator with the key and the mark of a property, related to its type. -/
def ForProperty (R : Validator → Node → Prop) : PropertyValidator → Property → Prop
  | .mk key w optional, .mk declared type mark =>
    key = declared ∧ optional = mark ∧ R w type

/-- An indexer validator related to both types of an indexer. -/
def ForIndexer (R : Validator → Node → Prop) : Option IndexerValidator → Option Indexer → Prop
  | none, none => True
  | some (.mk key w), some (.mk keyType type) => R key keyType ∧ R w type
  | _, _ => False

end Node

namespace Validator

open Outcome

/-! ### Answers -/

/-- A check that answers on every value, with a failure for each that it refuses. -/
def Decides (w : Validator) (P : Value → Prop) : Prop :=
  ∀ v, ∃ verdict, w.evaluate v = .ok verdict ∧ (verdict.ok = true ↔ P v)
    ∧ (verdict.ok = false → verdict.failure.isSome = true)

variable {P : Value → Prop}

/-- A validator that decides a condition has a refusal for a value, or none if it holds. -/
theorem Decides.refusal {w : Validator} (h : w.Decides P) (v : Value) :
    ∃ verdict r, w.evaluate v = .ok verdict ∧ verdict.refusal? = .ok r ∧ (r = none ↔ P v) := by
  obtain ⟨⟨ok, failure⟩, he, hok, hf⟩ := h v
  cases ok with
  | true => exact ⟨_, none, he, rfl, by simpa using hok⟩
  | false =>
    obtain ⟨f, rfl⟩ := Option.isSome_iff_exists.1 (hf rfl)
    exact ⟨_, some f, he, rfl, by simpa using hok⟩

/-- A verdict that passes just when there are no failures to report. -/
theorem judgeParts_decides {w : Validator} {v : Value} {kind : FailureKind} {Q : Prop}
    {failures : List (Value × Failure)} (he : w.evaluate v = .ok (judgeParts v kind failures))
    (hf : failures = [] ↔ Q) :
    ∃ verdict, w.evaluate v = .ok verdict ∧ (verdict.ok = true ↔ Q)
      ∧ (verdict.ok = false → verdict.failure.isSome = true) := by
  refine ⟨_, he, ?_⟩
  cases failures with
  | nil =>
    exact ⟨by simpa [judgeParts, Verdict.passed] using hf, by simp [judgeParts, Verdict.passed]⟩
  | cons f rest =>
    exact ⟨by simpa [judgeParts, Verdict.failed] using hf, by simp [judgeParts, Verdict.failed]⟩

theorem decides_predicate (p : Predicate) : (predicate p).Decides (p.accepts · = true) := by
  intro v
  refine ⟨_, rfl, ?_⟩
  cases h : p.accepts v <;> simp [h, Verdict.passed, Verdict.failed]

/-! ### Members -/

/-- Validators that decide what types stand for, one by one. -/
abbrev DecideEach (leafHolds : String → Value → Prop) : List Validator → List Node → Prop :=
  List.Forall₂ fun w n => w.Decides (n.Holds leafHolds)

variable {leafHolds : String → Value → Prop} {ws : List Validator} {nodes : List Node}

/-- Some alternative accepts a value just when it belongs to one of them. -/
theorem DecideEach.refusedByAll (h : DecideEach leafHolds ws nodes) (v : Value) :
    ∃ r, Validator.refusedByAll ws v = .ok r ∧ (r = none ↔ Node.HoldsSome leafHolds nodes v) := by
  induction h with
  | nil => exact ⟨some [], rfl, by simp [Node.HoldsSome]⟩
  | cons hw _ ih =>
    obtain ⟨verdict, r, he, hr, hiff⟩ := hw.refusal v
    obtain ⟨rs, hrs, hrest⟩ := ih
    rw [Node.HoldsSome, ← hiff, ← hrest]
    cases r with
    | none =>
      refine ⟨none, ?_, by simp⟩
      rw [Validator.refusedByAll]
      exact (bind_of_ok he _).trans (bind_of_ok hr _)
    | some f =>
      refine ⟨rs.map (f :: ·), ?_, by simp⟩
      rw [Validator.refusedByAll]
      exact (bind_of_ok he _).trans ((bind_of_ok hr _).trans (bind_of_ok hrs _))

/-- No member refuses a value just when it belongs to all of them. -/
theorem DecideEach.refusals (h : DecideEach leafHolds ws nodes) (v : Value) :
    ∃ fs, Validator.refusals ws v = .ok fs ∧ (fs = [] ↔ Node.HoldsAll leafHolds nodes v) := by
  induction h with
  | nil => exact ⟨[], rfl, by simp [Node.HoldsAll]⟩
  | cons hw _ ih =>
    obtain ⟨verdict, r, he, hr, hiff⟩ := hw.refusal v
    obtain ⟨fs, hfs, hrest⟩ := ih
    rw [Node.HoldsAll, ← hiff, ← hrest]
    refine ⟨r.toList ++ fs, ?_, by simp⟩
    rw [Validator.refusals]
    exact (bind_of_ok he _).trans ((bind_of_ok hr _).trans (bind_of_ok hfs _))

/-- No position of as many items is refused just when each belongs to its type. -/
theorem DecideEach.failingPositions (h : DecideEach leafHolds ws nodes) {items : List Value}
    (hlen : items.length = ws.length) (position : Nat) :
    ∃ fs, Validator.failingPositions ws position items = .ok fs
      ∧ (fs = [] ↔ Node.HoldsEach leafHolds nodes items) := by
  induction h generalizing items position with
  | nil =>
    obtain rfl := List.length_eq_zero_iff.1 hlen
    exact ⟨[], rfl, by simp [Node.HoldsEach]⟩
  | cons hw _ ih =>
    cases items with
    | nil => simp at hlen
    | cons item items =>
      obtain ⟨verdict, r, he, hr, hiff⟩ := hw.refusal item
      obtain ⟨fs, hfs, hrest⟩ := ih (Nat.succ.inj hlen) (position + 1)
      rw [Node.HoldsEach, ← hiff, ← hrest]
      refine ⟨(r.map fun f => (Value.int position, f)).toList ++ fs, ?_, by simp⟩
      rw [Validator.failingPositions]
      exact (bind_of_ok he _).trans ((bind_of_ok hr _).trans (bind_of_ok hfs _))

/-- No item of a container is refused just when all satisfy the condition. -/
theorem Decides.failingItems {w : Validator} (h : w.Decides P) (entries : List (Value × Value)) :
    ∃ fs, Validator.failingItems (fun item => w.evaluate item) entries = .ok fs
      ∧ (fs = [] ↔ ∀ p ∈ entries, P p.2) := by
  induction entries with
  | nil => exact ⟨[], rfl, by simp⟩
  | cons p rest ih =>
    obtain ⟨key, item⟩ := p
    obtain ⟨verdict, r, he, hr, hiff⟩ := h.refusal item
    obtain ⟨fs, hfs, hrest⟩ := ih
    rw [List.forall_mem_cons, ← hiff, ← hrest]
    refine ⟨(r.map fun f => (key, f)).toList ++ fs, ?_, by simp⟩
    rw [Validator.failingItems]
    exact (bind_of_ok he _).trans ((bind_of_ok hr _).trans (bind_of_ok hfs _))

/-! ### Shapes -/

/-- Property validators that decide the types of properties. -/
abbrev DecidesProperty (leafHolds : String → Value → Prop) : PropertyValidator → Property → Prop :=
  Node.ForProperty fun w n => w.Decides (n.Holds leafHolds)

/-- An indexer validator that decides both types of an indexer. -/
abbrev DecidesIndexer (leafHolds : String → Value → Prop) :
    Option IndexerValidator → Option Indexer → Prop :=
  Node.ForIndexer fun w n => w.Decides (n.Holds leafHolds)

variable {pvs : List PropertyValidator} {ps : List Property} {iv : Option IndexerValidator}
  {ix : Option Indexer} {R : Validator → Node → Prop}

/-- An item under a declared key is judged by the validator of its type, one under another
key is not judged. -/
theorem evaluateDeclared_cases (h : List.Forall₂ (Node.ForProperty R) pvs ps)
    (hd : (ps.map Property.key).Nodup) (key : String) (item : Value) :
    (key ∉ ps.map Property.key ∧ evaluateDeclared pvs key item = none)
      ∨ ∃ p ∈ ps, p.key = key ∧ ∃ w, R w p.value
        ∧ evaluateDeclared pvs key item = some (w.evaluate item) := by
  induction h with
  | nil => exact .inl ⟨List.not_mem_nil, rfl⟩
  | @cons pv p pvs ps hp _ ih =>
    obtain ⟨declared, w, optional⟩ := pv
    obtain ⟨_, type, mark⟩ := p
    obtain ⟨rfl, -, hw⟩ := hp
    rw [List.map_cons, List.nodup_cons] at hd
    rw [List.map_cons, List.mem_cons, evaluateDeclared]
    obtain ⟨hmem, hnone⟩ | ⟨p, hp, hk, w', hw', he⟩ := ih hd.2
    · rw [hnone]
      by_cases hk : declared = key
      · exact .inr ⟨_, List.mem_cons_self, hk, w, hw, if_pos hk⟩
      · exact .inl ⟨not_or.2 ⟨fun e => hk e.symm, hmem⟩, if_neg hk⟩
    · exact .inr ⟨p, List.mem_cons_of_mem _ hp, hk, w', hw', by rw [he]⟩

/-- Distinct keys leave one type to ask about the item under a declared key. -/
theorem holdsDeclared_iff_of_mem (hd : (ps.map Property.key).Nodup) {p : Property} (hp : p ∈ ps)
    (item : Value) : Node.HoldsDeclared leafHolds ps p.key item ↔ p.value.Holds leafHolds item := by
  rw [Node.holdsDeclared_iff]
  refine ⟨fun h => h p hp rfl, fun h q hq hk => ?_⟩
  rwa [List.inj_on_of_nodup_map hd hq hp hk]

/-- An item under a declared key is judged by the type of the key, one under another key
is not judged. -/
theorem evaluateDeclared_spec (h : List.Forall₂ (DecidesProperty leafHolds) pvs ps)
    (hd : (ps.map Property.key).Nodup) (key : String) (item : Value) :
    (key ∉ ps.map Property.key ∧ evaluateDeclared pvs key item = none
        ∧ Node.HoldsDeclared leafHolds ps key item)
      ∨ (key ∈ ps.map Property.key ∧ ∃ verdict r,
        evaluateDeclared pvs key item = some (.ok verdict) ∧ verdict.refusal? = .ok r
          ∧ (r = none ↔ Node.HoldsDeclared leafHolds ps key item)) := by
  obtain ⟨hmem, hnone⟩ | ⟨p, hp, rfl, w, hw, he⟩ := evaluateDeclared_cases h hd key item
  · exact .inl ⟨hmem, hnone, Node.holdsDeclared_iff.2 fun p hp hk =>
      absurd (List.mem_map.2 ⟨p, hp, hk⟩) hmem⟩
  · obtain ⟨verdict, r, hv, hr, hiff⟩ := hw.refusal item
    refine .inr ⟨List.mem_map_of_mem hp, verdict, r, by rw [he, hv], hr, ?_⟩
    rw [hiff, holdsDeclared_iff_of_mem hd hp]

theorem checkUndeclared_spec (h : DecidesIndexer leafHolds iv ix) (exact : Bool) (key : String)
    (item : Value) :
    ∃ r, checkUndeclared exact (indexerChecks iv) key item = .ok r
      ∧ (r = none ↔ Node.HoldsUndeclared leafHolds exact ix key item) := by
  rcases iv with _ | ⟨w, wi⟩ <;> rcases ix with _ | ⟨keyType, type⟩
  · cases exact with
    | true => exact ⟨some (extraKey true key), rfl, by simp [Node.HoldsUndeclared]⟩
    | false => exact ⟨none, rfl, by simp [Node.HoldsUndeclared]⟩
  · cases h
  · cases h
  · obtain ⟨hkey, hitem⟩ := h
    obtain ⟨verdict, r, he, hr, hiff⟩ := hitem.refusal item
    cases exact with
    | false =>
      refine ⟨r, ?_, by simp [Node.HoldsUndeclared, hiff]⟩
      simp [checkUndeclared, indexerChecks, he, hr, bind, Except.bind]
    | true =>
      obtain ⟨keyVerdict, hke, hok, -⟩ := hkey (.text key)
      cases hb : keyVerdict.ok with
      | true =>
        refine ⟨r, ?_, by simp [Node.HoldsUndeclared, hiff, ← hok, hb]⟩
        simp [checkUndeclared, indexerChecks, hke, hb, he, hr, bind, Except.bind]
      | false =>
        refine ⟨some (extraKey true key), ?_, by simp [Node.HoldsUndeclared, ← hok, hb]⟩
        simp [checkUndeclared, indexerChecks, hke, hb, bind, Except.bind]
        rfl

theorem insert_ne_nil {α : Type} (key : String) (item : α) (t : Table α) :
    Table.insert key item t ≠ [] := by
  cases t with
  | nil => simp [Table.insert]
  | cons p rest => by_cases h : p.1 = key <;> simp [Table.insert, h]

/-- The observed keys are all texts and their items all pass, or one key is no text. -/
theorem failingKeys_spec {check : String → Value → Except Fault (Option Failure)}
    {R : String → Value → Prop} (h : ∀ key item, ∃ r, check key item = .ok r ∧ (r = none ↔ R key item))
    (observed : List (Value × Value)) (failures : Table Failure) :
    ∃ result, failingKeys check observed failures = .ok result ∧
      match result with
      | .error _ => ¬ ∀ p ∈ observed, ∃ key, p.1 = .text key ∧ R key p.2
      | .ok t => t = [] ↔ failures = [] ∧ ∀ p ∈ observed, ∃ key, p.1 = .text key ∧ R key p.2 := by
  induction observed generalizing failures with
  | nil => exact ⟨.ok failures, rfl, by simp⟩
  | cons p rest ih =>
    obtain ⟨k, item⟩ := p
    by_cases hk : ∃ key, k = .text key
    · obtain ⟨key, rfl⟩ := hk
      obtain ⟨r, hr, hiff⟩ := h key item
      have hhead : (∃ key', Value.text key = .text key' ∧ R key' item) ↔ r = none := by
        rw [hiff]
        constructor
        · rintro ⟨key', hkey, hR⟩
          injection hkey with hkey
          rwa [hkey]
        · exact fun hR => ⟨key, rfl, hR⟩
      simp only [List.forall_mem_cons, hhead]
      cases r with
      | none =>
        obtain ⟨result, hres, hspec⟩ := ih failures
        refine ⟨result, ?_, by simpa using hspec⟩
        simp [failingKeys, hr, hres, bind, Except.bind]
      | some f =>
        obtain ⟨result, hres, hspec⟩ := ih (Table.insert key f failures)
        refine ⟨result, ?_, ?_⟩
        · simp [failingKeys, hr, hres, bind, Except.bind]
        · cases result with
          | error k => simp
          | ok t => simpa [insert_ne_nil] using hspec
    · refine ⟨.error k, ?_, ?_⟩
      · cases k with
        | text key => exact absurd ⟨key, rfl⟩ hk
        | _ => rfl
      · intro hall
        obtain ⟨key, hkey, -⟩ := hall (k, item) (List.mem_cons_self ..)
        exact hk ⟨key, hkey⟩

/-- No key is missing just when each that must be present is observed. -/
theorem addMissing_eq_nil_iff (h : List.Forall₂ (Node.ForProperty R) pvs ps) (exact : Bool)
    (observed : List (Value × Value)) (failures : Table Failure) :
    addMissing exact observed failures pvs = []
      ↔ failures = [] ∧ ∀ p ∈ ps, p.optional = false → ∃ q ∈ observed, q.1 = .text p.key := by
  induction h generalizing failures with
  | nil => simp [addMissing]
  | @cons pv p pvs ps hp _ ih =>
    obtain ⟨key, w, optional⟩ := pv
    obtain ⟨_, type, _⟩ := p
    obtain ⟨rfl, rfl, -⟩ := hp
    rw [addMissing, ih, List.forall_mem_cons]
    generalize hany : observed.any _ = present
    have hpresent : present = true ↔ ∃ q ∈ observed, q.1 = .text key := by
      rw [← hany, List.any_eq_true]
      refine exists_congr fun q => and_congr_right fun _ => ?_
      cases q.1 <;> simp
    have hhead : ((Property.mk key type optional).optional = false →
        ∃ q ∈ observed, q.1 = .text (Property.mk key type optional).key)
        ↔ (optional = false → present = true) := by
      rw [hpresent]
      rfl
    rw [hhead]
    cases present <;> cases optional <;> simp [insert_ne_nil]

/-- The refusal of an observed item: by the type of its key, or as an undeclared one. -/
def itemRefusal (exact : Bool) (pvs : List PropertyValidator) (iv : Option IndexerValidator)
    (key : String) (item : Value) : Except Fault (Option Failure) :=
  match evaluateDeclared pvs key item with
  | some verdict => do (← verdict).refusal?
  | none => checkUndeclared exact (indexerChecks iv) key item

theorem evaluate_shape (exact : Bool) (pvs : List PropertyValidator)
    (iv : Option IndexerValidator) (v : Value) :
    (shape exact pvs iv).evaluate v = judgeShape exact pvs (itemRefusal exact pvs iv) v := by
  unfold evaluate
  rfl

/-- A shape whose parts decide theirs decides the meaning of the shape. -/
theorem decides_shape (hp : List.Forall₂ (DecidesProperty leafHolds) pvs ps)
    (hi : DecidesIndexer leafHolds iv ix) (hd : (ps.map Property.key).Nodup) (exact : Bool) :
    (shape exact pvs iv).Decides ((Node.shape exact ps ix).Holds leafHolds) := by
  intro v
  have hcheck : ∀ key item, ∃ r, itemRefusal exact pvs iv key item = .ok r
      ∧ (r = none ↔ Node.HoldsDeclared leafHolds ps key item
        ∧ (key ∈ ps.map Property.key ∨ Node.HoldsUndeclared leafHolds exact ix key item)) := by
    intro key item
    rw [itemRefusal]
    obtain ⟨hmem, hnone, hdecl⟩ | ⟨hmem, verdict, r, he, hr, hiff⟩ :=
      evaluateDeclared_spec hp hd key item
    · obtain ⟨r, hr, hiff⟩ := checkUndeclared_spec hi exact key item
      exact ⟨r, by rw [hnone, hr], by simp [hmem, hdecl, hiff]⟩
    · refine ⟨r, ?_, by simp [hmem, hiff]⟩
      rw [he]
      exact hr
  have heval := evaluate_shape exact pvs iv v
  rw [Node.Holds]
  by_cases hc : (v.isArrayLike || v.isObjectLike) = true
  · have hcontainer : v.isArrayLike = true ∨ v.isObjectLike = true := by simpa using hc
    obtain ⟨result, hres, hspec⟩ := failingKeys_spec hcheck v.observed []
    rw [judgeShape, hc, hres] at heval
    cases result with
    | error key =>
      refine ⟨_, heval, ?_, by simp [Verdict.failed]⟩
      simp only [Verdict.failed, Bool.false_eq_true, false_iff]
      exact fun hholds => hspec hholds.2.1
    | ok failures =>
      refine judgeParts_decides heval ?_
      have hmissing := addMissing_eq_nil_iff hp exact v.observed failures
      dsimp only at hspec
      rw [List.map_eq_nil_iff, hmissing, hspec]
      simp [hcontainer]
  · have hcontainer : ¬ (v.isArrayLike = true ∨ v.isObjectLike = true) := by simpa using hc
    rw [judgeShape, Bool.eq_false_iff.2 hc] at heval
    exact ⟨_, heval, by simp [Verdict.failed, hcontainer], by simp [Verdict.failed]⟩

/-! ### Other composites -/

theorem decides_union (h : DecideEach leafHolds ws nodes) :
    (union ws).Decides ((Node.union nodes).Holds leafHolds) := by
  intro v
  obtain ⟨r, hr, hiff⟩ := h.refusedByAll v
  rw [Node.Holds, ← hiff, evaluate, hr]
  cases r with
  | none => exact ⟨.passed, rfl, by simp [Verdict.passed]⟩
  | some failures =>
    refine ⟨judgeAlternatives v failures, rfl, ?_⟩
    rcases failures with _ | ⟨f, _ | ⟨g, rest⟩⟩ <;> simp [judgeAlternatives, Verdict.failed]

theorem decides_intersection (h : DecideEach leafHolds ws nodes) :
    (intersection ws).Decides ((Node.intersection nodes).Holds leafHolds) := by
  intro v
  obtain ⟨fs, hfs, hiff⟩ := h.refusals v
  have heval : (intersection ws).evaluate v
      = .ok (judgeParts v .withIntersection (Failure.numbered fs)) := by
    rw [evaluate]
    exact bind_of_ok hfs _
  refine judgeParts_decides heval ?_
  rw [Node.Holds, ← hiff]
  simp [Failure.numbered]

theorem decides_array {w : Validator} {n : Node} (h : w.Decides (n.Holds leafHolds)) :
    (array w).Decides ((Node.array n).Holds leafHolds) := by
  intro v
  rw [Node.Holds]
  cases he : v.entries? with
  | none =>
    have heval : (array w).evaluate v = .ok (.failed (.composite v .withArray [])) := by
      rw [evaluate, he]
      rfl
    exact ⟨_, heval, by simp [Verdict.failed], by simp [Verdict.failed]⟩
  | some entries =>
    obtain ⟨fs, hfs, hiff⟩ := h.failingItems entries
    have heval : (array w).evaluate v = .ok (judgeParts v .inArrayMembers fs) := by
      rw [evaluate, he]
      exact bind_of_ok hfs _
    refine judgeParts_decides heval ?_
    rw [hiff]
    simp

theorem DecideEach.length_of_holdsEach {items : List Value} (h : DecideEach leafHolds ws nodes)
    (hh : Node.HoldsEach leafHolds nodes items) : items.length = ws.length := by
  induction h generalizing items with
  | nil =>
    cases items with
    | nil => rfl
    | cons item items => exact hh.elim
  | cons _ _ ih =>
    cases items with
    | nil => exact hh.elim
    | cons item items => exact congrArg (· + 1) (ih hh.2)

theorem decides_tuple (h : DecideEach leafHolds ws nodes) :
    (tuple ws).Decides ((Node.tuple nodes).Holds leafHolds) := by
  intro v
  rw [Node.Holds]
  cases he : v.elements? with
  | none =>
    have heval : (tuple ws).evaluate v = .ok (.failed (.composite v .withTuple [])) := by
      rw [evaluate, he]
      rfl
    exact ⟨_, heval, by simp [Verdict.failed], by simp [Verdict.failed]⟩
  | some items =>
    by_cases hlen : items.length = ws.length
    · obtain ⟨fs, hfs, hiff⟩ := h.failingPositions hlen 0
      have heval : (tuple ws).evaluate v = .ok (judgeParts v .inTupleMembers fs) := by
        simp [evaluate, he, hlen, hfs, bind, Except.bind]
        rfl
      refine judgeParts_decides heval ?_
      rw [hiff]
      simp
    · have heval : (tuple ws).evaluate v
          = .ok (.failed (wrongLength v items.length ws.length)) := by
        simp [evaluate, he, hlen]
        rfl
      refine ⟨_, heval, ?_, by simp [Verdict.failed]⟩
      simp only [Verdict.failed, Bool.false_eq_true, Option.some.injEq, false_iff]
      rintro ⟨_, rfl, hh⟩
      exact hlen (h.length_of_holdsEach hh)

end Validator

/-! ### Compiled types -/

namespace Node

open Outcome Validator

variable {assign : String → Predicate}

/-- Names resolved to the predicates that they stand for. -/
def resolveTo (assign : String → Predicate) (name : String) : Except Fault Validator :=
  .ok (.predicate (assign name))

/-- What names stand for once they are predicates. -/
def accepted (assign : String → Predicate) (name : String) (v : Value) : Prop :=
  (assign name).accepts v = true

/-! Compiling relates a validator to each type. A relation that passes from the parts of
types to types holds between every regular type and its validator. -/

section Built

variable {R : Validator → Node → Prop}

/-- A validator put together like a type, from validators related to its parts. -/
inductive Built (assign : String → Predicate) (R : Validator → Node → Prop) :
    Validator → Node → Prop
  | leaf (name : String) : Built assign R (.predicate (assign name)) (.leaf name)
  | union {ws : List Validator} {members : List Node} (h : List.Forall₂ R ws members) :
    Built assign R (.union ws) (.union members)
  | intersection {ws : List Validator} {members : List Node} (h : List.Forall₂ R ws members) :
    Built assign R (.intersection ws) (.intersection members)
  | array {w : Validator} {element : Node} (h : R w element) :
    Built assign R (.array w) (.array element)
  | tuple {ws : List Validator} {elements : List Node} (h : List.Forall₂ R ws elements) :
    Built assign R (.tuple ws) (.tuple elements)
  | shape {exact : Bool} {pvs : List PropertyValidator} {ps : List Property}
    {iv : Option IndexerValidator} {ix : Option Indexer}
    (hp : List.Forall₂ (ForProperty R) pvs ps) (hi : ForIndexer R iv ix) :
    Built assign R (.shape exact pvs iv) (.shape exact ps ix)

/-- A type that is compiled into a validator related to it. -/
def CompilesTo (assign : String → Predicate) (R : Validator → Node → Prop) (n : Node) : Prop :=
  ∃ w, n.compile (resolveTo assign) = .ok w ∧ R w n

theorem exists_compileAll {nodes : List Node} (h : ∀ n ∈ nodes, n.CompilesTo assign R) :
    ∃ ws, compileAll (resolveTo assign) nodes = .ok ws ∧ List.Forall₂ R ws nodes := by
  induction nodes with
  | nil => exact ⟨[], rfl, .nil⟩
  | cons n rest ih =>
    rw [List.forall_mem_cons] at h
    obtain ⟨w, hw, hr⟩ := h.1
    obtain ⟨ws, hws, hrs⟩ := ih h.2
    refine ⟨w :: ws, ?_, .cons hr hrs⟩
    rw [compileAll]
    exact (bind_of_ok hw _).trans (bind_of_ok hws _)

theorem exists_compileProperties {ps : List Property}
    (h : ∀ p ∈ ps, p.value.CompilesTo assign R) :
    ∃ pvs, compileProperties (resolveTo assign) ps = .ok pvs
      ∧ List.Forall₂ (ForProperty R) pvs ps := by
  induction ps with
  | nil => exact ⟨[], rfl, .nil⟩
  | cons p rest ih =>
    obtain ⟨key, type, optional⟩ := p
    rw [List.forall_mem_cons] at h
    obtain ⟨w, hw, hr⟩ := h.1
    obtain ⟨pvs, hpvs, hrs⟩ := ih h.2
    refine ⟨.mk key w optional :: pvs, ?_, .cons ⟨rfl, rfl, hr⟩ hrs⟩
    have hp : compileProperty (resolveTo assign) (.mk key type optional)
        = .ok (.mk key w optional) := bind_of_ok hw _
    rw [compileProperties]
    exact (bind_of_ok hp _).trans (bind_of_ok hpvs _)

theorem exists_compileIndexer {ix : Option Indexer}
    (h : ∀ i ∈ ix, i.key.CompilesTo assign R ∧ i.value.CompilesTo assign R) :
    ∃ iv, compileIndexer (resolveTo assign) ix = .ok iv ∧ ForIndexer R iv ix := by
  rcases ix with _ | ⟨keyType, type⟩
  · exact ⟨none, rfl, trivial⟩
  · obtain ⟨⟨key, hkey, hrk⟩, w, hw, hr⟩ := h _ rfl
    refine ⟨some (.mk key w), ?_, hrk, hr⟩
    rw [compileIndexer]
    exact (bind_of_ok hkey _).trans (bind_of_ok hw _)

/-- A type with parts enough is compiled when its parts are, from what these become. -/
theorem exists_compile {n : Node} (hn : n.hasParts 1 = true)
    (h : ∀ part ∈ n.parts, part.CompilesTo assign R) : n.CompilesTo assign (Built assign R) := by
  cases n with
  | leaf name => exact ⟨_, rfl, .leaf name⟩
  | union members =>
    obtain ⟨ws, hws, hr⟩ := exists_compileAll h
    cases members with
    | nil => simp [hasParts] at hn
    | cons first rest => exact ⟨.union ws, bind_of_ok hws _, .union hr⟩
  | intersection members =>
    obtain ⟨ws, hws, hr⟩ := exists_compileAll h
    cases members with
    | nil => simp [hasParts] at hn
    | cons first rest => exact ⟨.intersection ws, bind_of_ok hws _, .intersection hr⟩
  | array element =>
    obtain ⟨w, hw, hr⟩ := h element (by simp [parts])
    exact ⟨.array w, bind_of_ok hw _, .array hr⟩
  | tuple elements =>
    obtain ⟨ws, hws, hr⟩ := exists_compileAll h
    cases elements with
    | nil => simp [hasParts] at hn
    | cons first rest => exact ⟨.tuple ws, bind_of_ok hws _, .tuple hr⟩
  | shape exact ps ix =>
    obtain ⟨pvs, hpvs, hrp⟩ := exists_compileProperties fun p hp =>
      h p.value (List.mem_append_left _ (List.mem_map_of_mem hp))
    obtain ⟨iv, hiv, hri⟩ := @exists_compileIndexer assign R ix (by
      rintro i rfl
      exact ⟨h i.key (by simp [parts]), h i.value (by simp [parts])⟩)
    exact ⟨.shape exact pvs iv, (bind_of_ok hpvs _).trans (bind_of_ok hiv _), .shape hrp hri⟩
  | stray s => simp [hasParts] at hn

/-- A relation that is passed on from the parts holds of every compiled regular type. -/
theorem compilesTo_of_regular
    (step : ∀ {w n}, n.compile (resolveTo assign) = .ok w → n.hasParts 1 = true →
      Built assign R w n → R w n) {n : Node} (h : n.Regular 1) : n.CompilesTo assign R := by
  induction n using induction_parts with
  | h n ih =>
    obtain ⟨hn, hparts⟩ := (regular_iff h.1).1 h
    obtain ⟨w, hw, hbuilt⟩ := exists_compile hn fun part hp => ih part hp (hparts part hp)
    exact ⟨w, hw, step hw hn hbuilt⟩

end Built

/-- A type that is compiled into a validator of its meaning. -/
def CompilesToMeaning (assign : String → Predicate) (n : Node) : Prop :=
  ∃ w, n.compile (resolveTo assign) = .ok w ∧ w.Decides (n.Holds (accepted assign))

/-- A regular type compiles into a validator of its meaning. -/
theorem compilesToMeaning_of_regular {n : Node} (h : n.Regular 1) : n.CompilesToMeaning assign := by
  refine compilesTo_of_regular (R := fun w n => w.Decides (n.Holds (accepted assign)))
    (fun {w n} _ hn hbuilt => ?_) h
  cases hbuilt with
  | leaf name =>
    intro v
    rw [Holds]
    exact decides_predicate (assign name) v
  | union hd => exact decides_union hd
  | intersection hd => exact decides_intersection hd
  | array hd => exact decides_array hd
  | tuple hd => exact decides_tuple hd
  | shape hdp hdi => exact decides_shape hdp hdi (of_decide_eq_true hn) _

/-- A compiled type answers on every value, and accepts just those that belong to it. -/
theorem compiled_accepts_iff_holds (n : Node) (h : n.Regular 1) (assign : String → Predicate) :
    ∃ w, n.compile (resolveTo assign) = .ok w ∧ ∀ v, ∃ verdict,
      w.evaluate v = .ok verdict ∧ (verdict.ok = true ↔ n.Holds (accepted assign) v) := by
  obtain ⟨w, hw, hd⟩ := @compilesToMeaning_of_regular assign n h
  refine ⟨w, hw, fun v => ?_⟩
  obtain ⟨verdict, he, hok, -⟩ := hd v
  exact ⟨verdict, he, hok⟩

/-- The keyword of a name, or the existential. -/
def keywordPredicate (name : String) : Predicate :=
  ((Keyword.ofName? name).getD .existential).predicate

end Node

end StructuralTypes

import StructuralTypes.Check.Agreement
import StructuralTypes.Proofs.Assembly
import StructuralTypes.Proofs.Resolving

/-! All ways to check a value give one verdict. Some look at whether a verdict accepts and
some at whether it has a failure, so they agree just when a verdict has a failure exactly if
it refuses. Every validator but those of a user's own making gives such verdicts, whatever
is in it: composites do not pass on a refusal without a failure. -/

namespace StructuralTypes

open Outcome

/-! ### Types that compile can be named -/

namespace Node

/-- A type that can be written as an annotation. -/
def HasText (n : Node) : Prop :=
  ∃ text, n.format = .ok text

abbrev NamesPart (_ : Validator) (n : Node) : Prop :=
  n.HasText

theorem exists_formatOperands {ws : List Validator} {nodes : List Node}
    (h : List.Forall₂ NamesPart ws nodes) (place : Operand) :
    ∃ texts, formatOperands place nodes = .ok texts := by
  induction h with
  | nil => exact ⟨[], rfl⟩
  | cons hn _ ih =>
    obtain ⟨text, ht⟩ := hn
    obtain ⟨texts, hts⟩ := ih
    exact ⟨_, (bind_of_ok ht _).trans (bind_of_ok hts _)⟩

theorem exists_formatAll {ws : List Validator} {nodes : List Node}
    (h : List.Forall₂ NamesPart ws nodes) : ∃ texts, formatAll nodes = .ok texts := by
  induction h with
  | nil => exact ⟨[], rfl⟩
  | cons hn _ ih =>
    obtain ⟨text, ht⟩ := hn
    obtain ⟨texts, hts⟩ := ih
    exact ⟨_, (bind_of_ok ht _).trans (bind_of_ok hts _)⟩

theorem exists_formatProperties {pvs : List PropertyValidator} {ps : List Property}
    (h : List.Forall₂ (ForProperty NamesPart) pvs ps) :
    ∃ texts, formatProperties ps = .ok texts := by
  induction h with
  | nil => exact ⟨[], rfl⟩
  | @cons pv p pvs ps hp _ ih =>
    obtain ⟨key, w, optional⟩ := pv
    obtain ⟨_, type, _⟩ := p
    obtain ⟨rfl, rfl, text, ht⟩ := hp
    obtain ⟨texts, hts⟩ := ih
    have hp : formatProperty (.mk key type optional)
        = .ok (formatKey key ++ (if optional then "?" else "") ++ ": " ++ text) :=
      bind_of_ok ht _
    exact ⟨_, (bind_of_ok hp _).trans (bind_of_ok hts _)⟩

theorem exists_formatIndexer {iv : Option IndexerValidator} {ix : Option Indexer}
    (h : ForIndexer NamesPart iv ix) : ∃ texts, formatIndexer ix = .ok texts := by
  rcases iv with _ | ⟨wk, w⟩ <;> rcases ix with _ | ⟨keyType, type⟩
  · exact ⟨[], rfl⟩
  · cases h
  · cases h
  · obtain ⟨⟨key, hkey⟩, text, ht⟩ := h
    exact ⟨_, (bind_of_ok hkey _).trans (bind_of_ok ht _)⟩

theorem Assembled.hasText {w : Validator} {n : Node} (h : Assembled NamesPart w n) :
    n.HasText := by
  cases h with
  | union _ h =>
    obtain ⟨texts, ht⟩ := exists_formatOperands h .ofUnion
    exact ⟨_, bind_of_ok ht _⟩
  | intersection _ h =>
    obtain ⟨texts, ht⟩ := exists_formatOperands h .ofIntersection
    exact ⟨_, bind_of_ok ht _⟩
  | @array w element h =>
    obtain ⟨text, ht⟩ := h
    cases element with
    | leaf name => exact ⟨_, rfl⟩
    | _ => exact ⟨_, bind_of_ok ht _⟩
  | tuple _ h =>
    obtain ⟨texts, ht⟩ := exists_formatAll h
    exact ⟨_, bind_of_ok ht _⟩
  | shape hp hi =>
    obtain ⟨texts, ht⟩ := exists_formatProperties hp
    obtain ⟨more, hm⟩ := exists_formatIndexer hi
    exact ⟨_, (bind_of_ok ht _).trans (bind_of_ok hm _)⟩

end Node

namespace Registry

/-- A result of an operation, on some registry. -/
def Gives {α : Type} (x : RegistryM α) (a : α) : Prop :=
  ∃ r r', x.run r = (.ok a, r')

theorem resulting_gives : Node.Resulting @Gives where
  of_pure h := by
    obtain ⟨r, r', h⟩ := h
    exact (Except.ok.inj (congrArg Prod.fst h)).symm
  of_throw h := by
    obtain ⟨r, r', h⟩ := h
    cases congrArg Prod.fst h
  of_bind {α β x f b} h := by
    obtain ⟨r, r', h⟩ := h
    rw [run_bind] at h
    cases hx : x.run r with
    | mk outcome r'' =>
      rw [hx] at h
      cases outcome with
      | error e => cases congrArg Prod.fst h
      | ok a => exact ⟨a, ⟨r, r'', hx⟩, r'', r', h⟩

/-- What compiles on a registry can be named in messages. -/
theorem hasText_of_compileNode {resolve : String → RegistryM Entry} {n : Node} {e : Entry}
    (h : Gives (compileNode resolve n) e) : n.HasText := by
  cases n with
  | leaf name => exact ⟨name, rfl⟩
  | _ =>
    obtain ⟨w, hw, -⟩ := resulting_gives.of_bind h
    exact resulting_gives.induction (P := Node.NamesPart) (fun _ => ⟨_, rfl⟩)
      Node.Assembled.hasText hw

/-- What follows a result starts from the registry that it left. -/
theorem run_bind_of_ok {α β : Type} {x : RegistryM α} {r r' : Registry} {a : α}
    (h : x.run r = (.ok a, r')) (f : α → RegistryM β) : (x >>= f).run r = (f a).run r' := by
  rw [run_bind, h]
  rfl

end Registry

/-! ### Verdicts -/

/-- A verdict with a failure just when it refuses. -/
def Verdict.Tallies (verdict : Verdict) : Prop :=
  verdict.ok = true ↔ verdict.failure = none

theorem Verdict.tallies_passed : Verdict.passed.Tallies := by
  simp [Tallies, passed]

theorem Verdict.tallies_failed (f : Failure) : (Verdict.failed f).Tallies := by
  simp [Tallies, failed]

namespace Validator

open Verdict

theorem tallies_judgeParts (v : Value) (kind : FailureKind) (failures : List (Value × Failure)) :
    (judgeParts v kind failures).Tallies := by
  rw [judgeParts]
  split
  · exact tallies_passed
  · exact tallies_failed _

theorem tallies_judgeAlternatives (v : Value) (failures : List Failure) :
    (judgeAlternatives v failures).Tallies := by
  rw [judgeAlternatives.eq_def]
  split <;> exact tallies_failed _

theorem tallies_judgeShape {exact : Bool} {pvs : List PropertyValidator}
    {check : String → Value → Except Fault (Option Failure)} {v : Value} {verdict : Verdict}
    (h : judgeShape exact pvs check v = .ok verdict) : verdict.Tallies := by
  rw [judgeShape] at h
  split at h
  · cases h
    exact tallies_failed _
  · obtain ⟨result, -, h⟩ := ok_of_bind h
    cases result with
    | error key =>
      cases h
      exact tallies_failed _
    | ok failures =>
      cases h
      exact tallies_judgeParts _ _ _

/-- Only a validator of a user's own making refuses without a failure, or fails without
refusing. -/
theorem tallies_evaluate {w : Validator} (hw : ∀ judge, w ≠ .custom judge) {v : Value}
    {verdict : Verdict} (h : w.evaluate v = .ok verdict) : verdict.Tallies := by
  cases w with
  | predicate p =>
    rw [evaluate] at h
    split at h <;> cases h
    · exact tallies_passed
    · exact tallies_failed _
  | callable name respond =>
    rw [evaluate] at h
    split at h <;> cases h
    · exact tallies_passed
    · exact tallies_failed _
    · exact tallies_failed _
  | union members =>
    obtain ⟨r, -, h⟩ := ok_of_bind h
    cases r with
    | none =>
      cases h
      exact tallies_passed
    | some failures =>
      cases h
      exact tallies_judgeAlternatives v failures
  | intersection members =>
    obtain ⟨failures, -, h⟩ := ok_of_bind h
    cases h
    exact tallies_judgeParts _ _ _
  | array element =>
    rw [evaluate] at h
    split at h
    · cases h
      exact tallies_failed _
    · obtain ⟨failures, -, h⟩ := ok_of_bind h
      cases h
      exact tallies_judgeParts _ _ _
  | tuple elements =>
    rw [evaluate] at h
    split at h
    · cases h
      exact tallies_failed _
    · split at h
      · cases h
        exact tallies_failed _
      · obtain ⟨failures, -, h⟩ := ok_of_bind h
        cases h
        exact tallies_judgeParts _ _ _
  | shape exact properties indexer => exact tallies_judgeShape h
  | custom judge => exact absurd rfl (hw judge)

/-- Calling a validator looks at the failure alone. -/
theorem call_eq_ok_iff {w : Validator} {v : Value} {verdict : Verdict}
    (h : w.evaluate v = .ok verdict) : w.call v = .ok () ↔ verdict.failure = none := by
  rw [call, bind_of_ok h]
  cases verdict.failure with
  | none => exact ⟨fun _ => rfl, fun _ => rfl⟩
  | some f => exact ⟨nofun, nofun⟩

end Validator

/-! ### Entry points -/

namespace Check

open Registry

variable {d : Definition} {w : Validator} {v : Value} {verdict : Verdict} {r r' : Registry}

/-- A definition that has a validator has a name in messages. -/
theorem exists_nameOf (h : (validatorFor d).run r = (.ok w, r')) : ∃ name, nameOf d = .ok name := by
  cases d with
  | text source => exact ⟨source, rfl⟩
  | validator w | entry e => exact ⟨_, rfl⟩
  | function f => exact ⟨_, rfl⟩
  | node n =>
    obtain ⟨state, -, hnode⟩ := resulting_gives.of_bind ⟨r, r', h⟩
    obtain ⟨e, he, -⟩ := resulting_gives.of_bind hnode
    exact hasText_of_compileNode he
  | foreign kind => cases congrArg Prod.fst h

theorem run_isValid (h : (validatorFor d).run r = (.ok w, r')) (he : w.evaluate v = .ok verdict) :
    ((isValid d v).run r).1 = .ok verdict.ok := by
  have hverdict : (Check.verdict d v).run r = (.ok verdict, r') := by
    rw [Check.verdict, run_bind_of_ok h, run_liftExcept, he]
  rw [isValid, run_bind_of_ok hverdict]
  rfl

theorem run_check (h : (validatorFor d).run r = (.ok w, r')) (v : Value) :
    ((check d v).run r).1 = w.call v := by
  rw [check, run_bind_of_ok h, run_liftExcept]

theorem refuse_ne_ok (description name : String) (failure : Option Failure) :
    refuse description name failure ≠ .ok () := by
  cases failure <;> exact nofun

theorem require_eq_ok_iff (he : w.evaluate v = .ok verdict) (description name : String) :
    require description name w v = .ok () ↔ verdict.ok = true := by
  rw [require, bind_of_ok he]
  cases verdict.ok with
  | true => exact ⟨fun _ => rfl, fun _ => rfl⟩
  | false => exact ⟨fun hr => absurd hr (refuse_ne_ok _ _ _), nofun⟩

theorem run_passthrough_eq {name : String} (h : (validatorFor d).run r = (.ok w, r'))
    (hname : nameOf d = .ok name) (hv : v.isNull = false) :
    ((passthrough true v d .null).run r).1
      = (require ("Cannot pass " ++ v.describe) name w v).map fun _ => v := by
  rw [passthrough]
  simp only [Bool.not_true, Bool.false_eq_true, if_false, hv]
  rw [run_bind_of_ok h, hname]
  change ((liftExcept (require ("Cannot pass " ++ v.describe) name w v)
    >>= fun _ => return v : RegistryM Value).run r').1 = _
  rw [run_bind, run_liftExcept]
  cases require ("Cannot pass " ++ v.describe) name w v <;> rfl

/-- A checkpoint looks at whether the verdict accepts alone. -/
theorem run_passthrough_eq_ok_iff (h : (validatorFor d).run r = (.ok w, r'))
    (hv : v.isNull = false) (he : w.evaluate v = .ok verdict) (u : Value) :
    ((passthrough true v d .null).run r).1 = .ok u ↔ verdict.ok = true ∧ u = v := by
  obtain ⟨name, hname⟩ := exists_nameOf h
  rw [run_passthrough_eq h hname hv, ← require_eq_ok_iff he ("Cannot pass " ++ v.describe) name]
  cases require ("Cannot pass " ++ v.describe) name w v with
  | error e => exact ⟨nofun, fun hok => by cases hok.1⟩
  | ok a => exact ⟨fun hu => ⟨rfl, (Except.ok.inj hu).symm⟩, fun hu => congrArg Except.ok hu.2.symm⟩

/-- The ways to check a value agree if and only if the verdict has a failure just when it
refuses; the verdict of a validator that no user made has. -/
theorem agree_iff (h : (validatorFor d).run r = (.ok w, r')) (hv : v.isNull = false)
    (he : w.evaluate v = .ok verdict) :
    ((isValid d v).run r).1 = .ok verdict.ok
      ∧ (Agree d w v r ↔ (verdict.ok = true ↔ verdict.failure = none))
      ∧ ((∀ judge, w ≠ .custom judge) → Agree d w v r) := by
  have hvalid := run_isValid h he
  have hcall := Validator.call_eq_ok_iff he
  have hpass := run_passthrough_eq_ok_iff h hv he
  have hagree : Agree d w v r ↔ verdict.Tallies := by
    constructor
    · intro ha
      have hcalled := ha.called
      rwa [hvalid, Except.ok.injEq, hcall] at hcalled
    · intro ht
      have htrue : ((isValid d v).run r).1 = .ok true ↔ verdict.ok = true := by
        rw [hvalid, Except.ok.injEq]
      refine ⟨?_, ?_, ?_, fun hno => ?_⟩
      · rw [htrue, run_check h, hcall]
        exact ht
      · rw [htrue, hcall]
        exact ht
      · rw [htrue, hpass v]
        exact (and_iff_left rfl).symm
      · have hok : verdict.ok = false := Except.ok.inj (hvalid.symm.trans hno)
        have hcalled : w.call v ≠ .ok () := fun hc =>
          Bool.false_ne_true (hok.symm.trans (ht.2 (hcall.1 hc)))
        exact ⟨run_check h v ▸ hcalled, hcalled, fun u hu =>
          Bool.false_ne_true (hok.symm.trans ((hpass u).1 hu).1)⟩
  exact ⟨hvalid, hagree, fun hw => hagree.2 (Validator.tallies_evaluate hw he)⟩

/-- A validator of a user's own making that refuses every value without a failure. -/
def silent : Validator :=
  .custom fun _ => .ok { ok := false, failure := none }

/-- A value that is refused in silence is accepted by every check that looks for a failure. -/
theorem silent_not_agree :
    (validatorFor (.validator silent)).run (.empty false) = (.ok silent, .empty false)
      ∧ silent.evaluate (.int 1) = .ok { ok := false, failure := none }
      ∧ ¬Agree (.validator silent) silent (.int 1) (.empty false) := by
  refine ⟨rfl, rfl, fun ha => ?_⟩
  have hvalid : ((isValid (.validator silent) (.int 1)).run (.empty false)).1 = .ok false := rfl
  have hcheck : ((check (.validator silent) (.int 1)).run (.empty false)).1 = .ok () := rfl
  cases hvalid.symm.trans (ha.checked.2 hcheck)

theorem ints_agree : ∃ w r' verdict,
    (validatorFor (.node (.array (.leaf "int")))).run (.empty false) = (.ok w, r')
      ∧ w.evaluate (.list [.int 1, .text "x"]) = .ok verdict ∧ verdict.ok = false
      ∧ Agree (.node (.array (.leaf "int"))) w (.list [.int 1, .text "x"]) (.empty false) := by
  refine ⟨.array (.predicate Keyword.int.predicate), _, _, rfl, rfl, rfl, ?_⟩
  exact (agree_iff rfl rfl rfl).2.2 nofun

end Check

end StructuralTypes

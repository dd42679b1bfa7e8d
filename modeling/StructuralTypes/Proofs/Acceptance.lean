import StructuralTypes.Proofs.Answering
import StructuralTypes.Proofs.Caution

/-! What compiled types accept when every refusal is described. Describing refusals changes no
verdict, it only ends a judgement that comes to a number with too many digits. So wherever the
judgement of a compiled type is not ended like that, its verdict is the one of the meaning. -/

namespace StructuralTypes.Node

open Outcome Validator

variable {assign : String → Predicate} {n : Node} {w : Validator} {v : Value}

/-- The judgement of a compiled type that describes its refusals ends in a verdict, or at a
number with too many digits. -/
theorem guardedRenders_of_compile (h : n.compile (resolveTo assign) = .ok w) :
    w.guarded.Renders := by
  refine resulting_except.induction (P := GuardedRenders) (fun {name w} hw => ?_)
    Assembled.renders h
  cases hw
  exact renders_predicate _

/-- A judgement that is not ended has a verdict. -/
theorem exists_verdict_of_ne (h : n.compile (resolveTo assign) = .ok w)
    (hv : w.guarded.evaluate v ≠ .error (.overlong .written)) :
    ∃ verdict, w.guarded.evaluate v = .ok verdict := by
  have hends := guardedRenders_of_compile h v
  cases hw : w.guarded.evaluate v with
  | ok verdict => exact ⟨verdict, rfl⟩
  | error e =>
    rw [hw] at hends
    obtain ⟨rfl, -⟩ := hends
    exact absurd hw hv

/-- No judgement is ended on a value without overlong numbers. -/
theorem ne_overlong_of_writable (h : n.compile (resolveTo assign) = .ok w) (hv : v.Writable) :
    w.guarded.evaluate v ≠ .error (.overlong .written) := by
  intro hw
  have hends := guardedRenders_of_compile h v
  rw [hw] at hends
  exact hends.2 hv

/-- A compiled type gives every value the verdict of its meaning. Where refusals are described
it does so, too, just when the judgement is not ended at a number with too many digits, which
can only happen on a value that holds such a number. -/
theorem verdict_means_iff (n : Node) (h : n.Regular 1) (assign : String → Predicate) :
    ∃ w, n.compile (resolveTo assign) = .ok w ∧ ∀ v,
      (∃ verdict, w.evaluate v = .ok verdict
        ∧ (verdict.ok = true ↔ n.Holds (accepted assign) v))
      ∧ ((∃ verdict, w.guarded.evaluate v = .ok verdict
          ∧ (verdict.ok = true ↔ n.Holds (accepted assign) v))
        ↔ w.guarded.evaluate v ≠ .error (.overlong .written))
      ∧ (v.Writable → w.guarded.evaluate v ≠ .error (.overlong .written)) := by
  obtain ⟨w, hw, hmeans⟩ := compiled_accepts_iff_holds n h assign
  refine ⟨w, hw, fun v => ⟨hmeans v, ⟨?_, fun hne => ?_⟩, ne_overlong_of_writable hw⟩⟩
  · rintro ⟨verdict, hv, -⟩ hended
    cases hv.symm.trans hended
  · obtain ⟨verdict, hv⟩ := exists_verdict_of_ne hw hne
    obtain ⟨verdict', hv', hholds⟩ := hmeans v
    obtain rfl : verdict = verdict' := Except.ok.inj ((below_guarded w v verdict hv).symm.trans hv')
    exact ⟨verdict, hv, hholds⟩

/-- The type `{|a: [int, string[]], b?: int | null, [string]: object & *|}`. -/
def recordType : Node :=
  .shape true
    [.mk "a" (.tuple [.leaf "int", .array (.leaf "string")]) false,
     .mk "b" (.union [.leaf "int", .leaf "null"]) true]
    (some (.mk (.leaf "string") (.intersection [.leaf "object", .leaf "*"])))

theorem recordType_verdict_means : recordType.Regular 1 ∧ ∃ w,
    recordType.compile (resolveTo keywordPredicate) = .ok w ∧ ∀ v,
      (v.Writable → ∃ verdict, w.guarded.evaluate v = .ok verdict
        ∧ (verdict.ok = true ↔ recordType.Holds (accepted keywordPredicate) v)) := by
  have h : recordType.Regular 1 := by
    simp only [Regular]
    decide
  obtain ⟨w, hw, hall⟩ := verdict_means_iff recordType h keywordPredicate
  exact ⟨h, w, hw, fun v hv => (hall v).2.1.2 ((hall v).2.2 hv)⟩

/-- The type `?int`. -/
def optionalInt : Node :=
  .union [.leaf "null", .leaf "int"]

/-- A number belongs to the type, but there is no verdict since the test on absence has to
describe the number before the test on numbers is asked. -/
theorem optionalInt_no_verdict : optionalInt.Regular 1
    ∧ optionalInt.Holds (accepted keywordPredicate) overlongValue
    ∧ ∃ w, optionalInt.compile (resolveTo keywordPredicate) = .ok w
      ∧ w.guarded.evaluate overlongValue = .error (.overlong .written) := by
  refine ⟨?_, .inr (.inl rfl), _, rfl,
    evaluate_union_of_refused isOverlong_overlongValue rfl _⟩
  simp only [Regular]
  decide

end StructuralTypes.Node

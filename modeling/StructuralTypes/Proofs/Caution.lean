import StructuralTypes.Proofs.Membership
import StructuralTypes.Validator.Guarded

/-! Describing every refusal at once costs verdicts but changes none. Composites take the
verdicts of their parts in the same order either way, so by induction over a validator what
it answers when it describes its refusals is its verdict. -/

namespace StructuralTypes

namespace Outcome

variable {ε α β : Type} {x y : Except ε α} {f g : α → Except ε β}

/-- Whatever the first computation results in, the second one does. -/
def Below (x y : Except ε α) : Prop :=
  ∀ a, x = .ok a → y = .ok a

theorem Below.refl (x : Except ε α) : Below x x := fun _ h => h

theorem Below.bind (hx : Below x y) (hf : ∀ a, Below (f a) (g a)) : Below (x >>= f) (y >>= g) := by
  intro b hb
  obtain ⟨a, ha, hb⟩ := ok_of_bind hb
  exact (bind_of_ok (hx a ha) g).trans (hf a b hb)

end Outcome

namespace Validator

open Outcome

variable {c c' : Check}

/-! ### Judging parts -/

theorem below_failingItems (h : ∀ v, Below (c v) (c' v)) (entries : List (Value × Value)) :
    Below (failingItems c entries) (failingItems c' entries) := by
  induction entries with
  | nil => exact .refl _
  | cons p rest ih =>
    obtain ⟨key, item⟩ := p
    exact (h item).bind fun _ => (Below.refl _).bind fun _ => ih.bind fun _ => .refl _

theorem below_failingKeys {check check' : String → Value → Except Fault (Option Failure)}
    (h : ∀ key item, Below (check key item) (check' key item)) (entries : List (Value × Value))
    (failures : Table Failure) :
    Below (failingKeys check entries failures) (failingKeys check' entries failures) := by
  induction entries generalizing failures with
  | nil => exact .refl _
  | cons p rest ih =>
    obtain ⟨key, item⟩ := p
    cases key with
    | text key =>
      refine (h key item).bind fun refusal => ?_
      cases refusal with
      | none => exact ih failures
      | some f => exact ih _
    | _ => exact .refl _

theorem addMissing_guardedProperties (exact : Bool) (observed : List (Value × Value))
    (failures : Table Failure) (properties : List PropertyValidator) :
    addMissing exact observed failures (guardedProperties properties)
      = addMissing exact observed failures properties := by
  induction properties generalizing failures with
  | nil => rfl
  | cons p rest ih =>
    obtain ⟨key, w, optional⟩ := p
    exact ih _

theorem below_judgeShape {check check' : String → Value → Except Fault (Option Failure)}
    (h : ∀ key item, Below (check key item) (check' key item)) (exact : Bool)
    (properties : List PropertyValidator) (v : Value) :
    Below (judgeShape exact (guardedProperties properties) check v)
      (judgeShape exact properties check' v) := by
  unfold judgeShape
  simp only [addMissing_guardedProperties]
  cases v.isArrayLike || v.isObjectLike with
  | false => exact .refl _
  | true => exact (below_failingKeys h v.observed []).bind fun _ => .refl _

theorem below_guard {w : Validator} (w' : Validator) (h : ∀ v, Below (w.evaluate v) (w'.evaluate v))
    (cannotRefuse : Value → Bool) (v : Value) :
    Below ((guard cannotRefuse w).evaluate v) (w'.evaluate v) := by
  intro verdict hv
  rw [guard, evaluate] at hv
  obtain ⟨verdict', hw, hv⟩ := ok_of_bind hv
  split at hv
  · cases hv
  · cases hv
    exact h v verdict hw

theorem below_itemRefusal {exact : Bool} {ps ps' : List PropertyValidator}
    {iv iv' : Option IndexerValidator} {key : String} {item : Value}
    (hp : Option.Rel Below (evaluateDeclared ps key item) (evaluateDeclared ps' key item))
    (hi : Below (checkUndeclared exact (indexerChecks iv) key item)
      (checkUndeclared exact (indexerChecks iv') key item)) :
    Below (itemRefusal exact ps iv key item) (itemRefusal exact ps' iv' key item) := by
  rw [itemRefusal, itemRefusal]
  generalize evaluateDeclared ps key item = declared at hp ⊢
  generalize evaluateDeclared ps' key item = declared' at hp ⊢
  cases hp with
  | none => exact hi
  | some h => exact h.bind fun _ => .refl _

theorem length_guardedAll (members : List Validator) :
    (guardedAll members).length = members.length := by
  induction members with
  | nil => rfl
  | cons w rest ih => exact congrArg Nat.succ ih

/-! ### All validators -/

mutual

/-- A verdict that is given while every refusal is described is the verdict. -/
theorem below_guarded : ∀ (w : Validator) (v : Value), Below (w.guarded.evaluate v) (w.evaluate v)
  | predicate _, v | callable .., v => below_guard _ (fun _ => .refl _) _ v
  | custom _, _ => .refl _
  | union members, v =>
    below_guard (union members) (fun v => by
      rw [evaluate, evaluate]
      exact (below_refusedByAll members v).bind fun _ => .refl _) _ v
  | intersection members, v =>
    below_guard (intersection members) (fun v => by
      rw [evaluate, evaluate]
      exact (below_refusals members v).bind fun _ => .refl _) _ v
  | array element, v =>
    below_guard (array element) (fun v => by
      rw [evaluate, evaluate]
      cases v.entries? with
      | none => exact .refl _
      | some entries =>
        exact (below_failingItems (below_guarded element) entries).bind fun _ => .refl _) _ v
  | tuple elements, v =>
    below_guard (tuple elements) (fun v => by
      rw [evaluate, evaluate]
      cases v.elements? with
      | none => exact .refl _
      | some items =>
        dsimp only
        rw [length_guardedAll]
        split
        · exact .refl _
        · exact (below_failingPositions elements 0 items).bind fun _ => .refl _) _ v
  | shape exact properties indexer, v =>
    below_guard (shape exact properties indexer) (fun v => by
      rw [evaluate_shape, evaluate_shape]
      exact below_judgeShape (fun key item => below_itemRefusal
        (below_evaluateDeclared properties key item) (below_checkUndeclared exact indexer key item))
        exact properties v) _ v

theorem below_refusedByAll : ∀ (members : List Validator) (v : Value),
    Below (refusedByAll (guardedAll members) v) (refusedByAll members v)
  | [], _ => .refl _
  | w :: rest, v => by
    rw [guardedAll, refusedByAll, refusedByAll]
    refine (below_guarded w v).bind fun verdict => (Below.refl _).bind fun refusal => ?_
    cases refusal with
    | none => exact .refl _
    | some f => exact (below_refusedByAll rest v).bind fun _ => .refl _

theorem below_refusals : ∀ (members : List Validator) (v : Value),
    Below (refusals (guardedAll members) v) (refusals members v)
  | [], _ => .refl _
  | w :: rest, v => by
    rw [guardedAll, refusals, refusals]
    exact (below_guarded w v).bind fun _ => (Below.refl _).bind fun _ =>
      (below_refusals rest v).bind fun _ => .refl _

theorem below_failingPositions : ∀ (elements : List Validator) (position : Nat) (items : List Value),
    Below (failingPositions (guardedAll elements) position items)
      (failingPositions elements position items)
  | [], _, [] | [], _, _ :: _ | _ :: _, _, [] => .refl _
  | w :: rest, position, item :: items => by
    rw [guardedAll, failingPositions, failingPositions]
    exact (below_guarded w item).bind fun _ => (Below.refl _).bind fun _ =>
      (below_failingPositions rest (position + 1) items).bind fun _ => .refl _

theorem below_evaluateDeclared : ∀ (properties : List PropertyValidator) (key : String)
    (item : Value), Option.Rel Below (evaluateDeclared (guardedProperties properties) key item)
      (evaluateDeclared properties key item)
  | [], _, _ => .none
  | .mk declared w optional :: rest, key, item => by
    have hrest := below_evaluateDeclared rest key item
    rw [guardedProperties, evaluateDeclared, evaluateDeclared]
    cases hl : evaluateDeclared rest key item <;>
      cases hg : evaluateDeclared (guardedProperties rest) key item <;> rw [hl, hg] at hrest
    · dsimp only
      split
      · exact .some (below_guarded w item)
      · exact .none
    · cases hrest
    · cases hrest
    · exact hrest

theorem below_checkUndeclared (exact : Bool) : ∀ (indexer : Option IndexerValidator) (key : String)
    (item : Value), Below (checkUndeclared exact (indexerChecks (guardedIndexer indexer)) key item)
      (checkUndeclared exact (indexerChecks indexer) key item)
  | none, _, _ => .refl _
  | some (.mk keyValidator w), key, item => by
    have hitem : Below (w.guarded.evaluate item >>= Verdict.refusal?)
        (w.evaluate item >>= Verdict.refusal?) := (below_guarded w item).bind fun _ => .refl _
    cases exact with
    | false => exact hitem
    | true =>
      refine (below_guarded keyValidator (.text key)).bind fun verdict => ?_
      cases verdict.ok with
      | false => exact .refl _
      | true => exact hitem

end

/-- What is written out is the verdict. -/
theorem evaluate_of_written {w : Validator} {v : Value} {verdict : Verdict}
    (h : w.written v = .ok verdict) : w.evaluate v = .ok verdict := by
  rw [written] at h
  obtain ⟨verdict', hw, h⟩ := ok_of_bind h
  split at h
  · cases h
  · cases h
    exact below_guarded w v verdict hw

end Validator

end StructuralTypes

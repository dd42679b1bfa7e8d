import Mathlib.Data.List.Forall2

/-! Computations that end with a result or a fault, one after the other. -/

namespace StructuralTypes.Outcome

variable {ε α β : Type}

/-- What follows a result is run on it. -/
theorem bind_of_ok {e : Except ε α} {a : α} (h : e = .ok a) (f : α → Except ε β) :
    (e >>= f) = f a := by
  rw [h]
  rfl

/-- A fault ends the computation. -/
theorem bind_of_error {e : Except ε α} {fault : ε} (h : e = .error fault) (f : α → Except ε β) :
    (e >>= f) = .error fault := by
  rw [h]
  rfl

/-- A computation with a result got there by the results of its steps. -/
theorem ok_of_bind {e : Except ε α} {f : α → Except ε β} {b : β} (h : (e >>= f) = .ok b) :
    ∃ a, e = .ok a ∧ f a = .ok b := by
  cases e with
  | error e => cases h
  | ok a => exact ⟨a, rfl, h⟩

theorem bind_eq_ok_iff {e : Except ε α} {f : α → Except ε β} {b : β} :
    (e >>= f) = .ok b ↔ ∃ a, e = .ok a ∧ f a = .ok b :=
  ⟨ok_of_bind, fun ⟨_, ha, hb⟩ => (bind_of_ok ha f).trans hb⟩

theorem ok_of_map {e : Except ε α} {view : α → β} {b : β} (h : e.map view = .ok b) :
    ∃ a, e = .ok a ∧ view a = b := by
  cases e with
  | error e => cases h
  | ok a => exact ⟨a, rfl, Except.ok.inj h⟩

theorem error_of_map {e : Except ε α} {view : α → β} {fault : ε}
    (h : e.map view = .error fault) : e = .error fault := by
  cases e with
  | error e => exact congrArg Except.error (Except.error.inj h)
  | ok a => cases h

theorem ok_of_toOption {e : Except ε α} {a : α} (h : e.toOption = some a) : e = .ok a := by
  cases e with
  | error e => cases h
  | ok b => exact congrArg Except.ok (Option.some.inj h)

/-- A computation with a result of some kind, or a fault of some kind. -/
def Ends (bad : ε → Prop) (good : α → Prop) (e : Except ε α) : Prop :=
  match e with
  | .ok a => good a
  | .error fault => bad fault

theorem Ends.imp {bad bad' : ε → Prop} {good good' : α → Prop} {e : Except ε α}
    (h : Ends bad good e) (hb : ∀ fault, bad fault → bad' fault) (hg : ∀ a, good a → good' a) :
    Ends bad' good' e := by
  cases e with
  | ok a => exact hg a h
  | error fault => exact hb fault h

theorem Ends.bind {bad : ε → Prop} {good : α → Prop} {good' : β → Prop} {e : Except ε α}
    {f : α → Except ε β} (h : Ends bad good e) (hf : ∀ a, good a → Ends bad good' (f a)) :
    Ends bad good' (e >>= f) := by
  cases e with
  | ok a => exact hf a h
  | error fault => exact h

/-- A list of computations has results when each of them has one. -/
theorem exists_mapM {R : α → β → Prop} {f : α → Except ε β} {items : List α}
    (h : ∀ a ∈ items, ∃ b, f a = .ok b ∧ R a b) :
    ∃ bs, items.mapM f = .ok bs ∧ List.Forall₂ R items bs := by
  induction items with
  | nil => exact ⟨[], rfl, .nil⟩
  | cons a rest ih =>
    rw [List.forall_mem_cons] at h
    obtain ⟨b, hb, hr⟩ := h.1
    obtain ⟨bs, hbs, hrs⟩ := ih h.2
    refine ⟨b :: bs, ?_, .cons hr hrs⟩
    rw [List.mapM_cons, hb, hbs]
    rfl

/-! ### Computations with a state -/

/-- What follows a result starts from the state that it left. -/
theorem run_bind_eq {τ : Type} {α β : Type} (x : ExceptT ε (StateM τ) α)
    (f : α → ExceptT ε (StateM τ) β) (s : τ) :
    (x >>= f).run s = match x.run s with
      | (.ok a, s') => (f a).run s'
      | (.error e, s') => (.error e, s') := by
  unfold ExceptT.run
  simp only [bind, ExceptT.bind, ExceptT.mk, StateT.bind, ExceptT.bindCont]
  rcases x s with ⟨a | a, s'⟩ <;> rfl

end StructuralTypes.Outcome

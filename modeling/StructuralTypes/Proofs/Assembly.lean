import StructuralTypes.Proofs.Membership

/-! What compiling puts together. Whatever resolving names is like, a type that compiles is
a name that is resolved, or a composite of types that compile, and its validator is made of
theirs. -/

namespace StructuralTypes.Node

/-- Notions of a result by which a sequence of steps gets its result from theirs. -/
structure Resulting {m : Type → Type} [Monad m] [MonadExceptOf Fault m]
    (Gives : {α : Type} → m α → α → Prop) : Prop where
  of_pure : ∀ {α : Type} {a b : α}, Gives (Pure.pure a) b → b = a
  of_throw : ∀ {α : Type} {c : Cause} {a : α}, ¬Gives (MonadExcept.throw (Fault.ofCause c)) a
  of_bind : ∀ {α β : Type} {x : m α} {f : α → m β} {b : β},
    Gives (x >>= f) b → ∃ a, Gives x a ∧ Gives (f a) b

/-- A validator put together like a composite type from validators of its parts. -/
inductive Assembled (R : Validator → Node → Prop) : Validator → Node → Prop
  | union {ws : List Validator} {members : List Node} (hne : members ≠ [])
    (h : List.Forall₂ R ws members) : Assembled R (.union ws) (.union members)
  | intersection {ws : List Validator} {members : List Node} (hne : members ≠ [])
    (h : List.Forall₂ R ws members) : Assembled R (.intersection ws) (.intersection members)
  | array {w : Validator} {element : Node} (h : R w element) :
    Assembled R (.array w) (.array element)
  | tuple {ws : List Validator} {elements : List Node} (hne : elements ≠ [])
    (h : List.Forall₂ R ws elements) : Assembled R (.tuple ws) (.tuple elements)
  | shape {exact : Bool} {pvs : List PropertyValidator} {ps : List Property}
    {iv : Option IndexerValidator} {ix : Option Indexer}
    (hp : List.Forall₂ (ForProperty R) pvs ps) (hi : ForIndexer R iv ix) :
    Assembled R (.shape exact pvs iv) (.shape exact ps ix)

section Assembled

variable {R S : Validator → Node → Prop}

theorem forall₂_imp_of_mem {ws : List Validator} {nodes : List Node}
    (hn : ∀ n ∈ nodes, ∀ w, R w n → S w n) (h : List.Forall₂ R ws nodes) :
    List.Forall₂ S ws nodes := by
  induction h with
  | nil => exact .nil
  | cons hr _ ih =>
    rw [List.forall_mem_cons] at hn
    exact .cons (hn.1 _ hr) (ih hn.2)

theorem forProperty_imp_of_mem {pvs : List PropertyValidator} {ps : List Property}
    (hn : ∀ p ∈ ps, ∀ w, R w p.value → S w p.value) (h : List.Forall₂ (ForProperty R) pvs ps) :
    List.Forall₂ (ForProperty S) pvs ps := by
  induction h with
  | nil => exact .nil
  | @cons pv p pvs ps hr _ ih =>
    obtain ⟨key, w, optional⟩ := pv
    obtain ⟨_, type, _⟩ := p
    obtain ⟨rfl, rfl, hr⟩ := hr
    rw [List.forall_mem_cons] at hn
    exact .cons ⟨rfl, rfl, hn.1 w hr⟩ (ih hn.2)

/-- What follows for the parts of a type follows for what is assembled of them. -/
theorem Assembled.imp_of_mem {w : Validator} {n : Node}
    (hn : ∀ part ∈ n.parts, ∀ w, R w part → S w part) (h : Assembled R w n) :
    Assembled S w n := by
  cases h with
  | union hne h => exact .union hne (forall₂_imp_of_mem hn h)
  | intersection hne h => exact .intersection hne (forall₂_imp_of_mem hn h)
  | array h => exact .array (hn _ List.mem_cons_self _ h)
  | tuple hne h => exact .tuple hne (forall₂_imp_of_mem hn h)
  | @shape exact pvs ps iv ix hp hi =>
    refine .shape (forProperty_imp_of_mem (fun p hm =>
      hn p.value (List.mem_append_left _ (List.mem_map_of_mem hm))) hp) ?_
    rcases iv with _ | ⟨key, w⟩ <;> rcases ix with _ | ⟨keyType, type⟩
    · trivial
    · cases hi
    · cases hi
    · exact ⟨hn keyType (by simp [parts, Indexer.key]) key hi.1,
        hn type (by simp [parts, Indexer.value]) w hi.2⟩

end Assembled

section Resulting

variable {m : Type → Type} [Monad m] [MonadExceptOf Fault m]
  {Gives : {α : Type} → m α → α → Prop} {resolve : String → m Validator}

theorem Resulting.compileAll (G : Resulting Gives) {nodes : List Node} {ws : List Validator}
    (h : Gives (Node.compileAll resolve nodes) ws) :
    List.Forall₂ (fun w n => Gives (n.compile resolve) w) ws nodes := by
  induction nodes generalizing ws with
  | nil =>
    obtain rfl := G.of_pure h
    exact .nil
  | cons n rest ih =>
    obtain ⟨w, hw, h⟩ := G.of_bind h
    obtain ⟨ws, hws, h⟩ := G.of_bind h
    obtain rfl := G.of_pure h
    exact .cons hw (ih hws)

theorem Resulting.compileProperties (G : Resulting Gives) {ps : List Property}
    {pvs : List PropertyValidator} (h : Gives (Node.compileProperties resolve ps) pvs) :
    List.Forall₂ (ForProperty fun w n => Gives (n.compile resolve) w) pvs ps := by
  induction ps generalizing pvs with
  | nil =>
    obtain rfl := G.of_pure h
    exact .nil
  | cons p rest ih =>
    obtain ⟨key, type, optional⟩ := p
    obtain ⟨pv, hpv, h⟩ := G.of_bind h
    obtain ⟨pvs, hpvs, h⟩ := G.of_bind h
    obtain ⟨w, hw, hpv⟩ := G.of_bind hpv
    obtain rfl := G.of_pure h
    obtain rfl := G.of_pure hpv
    exact .cons ⟨rfl, rfl, hw⟩ (ih hpvs)

theorem Resulting.compileIndexer (G : Resulting Gives) {ix : Option Indexer}
    {iv : Option IndexerValidator} (h : Gives (Node.compileIndexer resolve ix) iv) :
    ForIndexer (fun w n => Gives (n.compile resolve) w) iv ix := by
  rcases ix with _ | ⟨keyType, type⟩
  · obtain rfl := G.of_pure h
    trivial
  · obtain ⟨key, hkey, h⟩ := G.of_bind h
    obtain ⟨w, hw, h⟩ := G.of_bind h
    obtain rfl := G.of_pure h
    exact ⟨hkey, hw⟩

/-- The validator of a type is that of a name, or put together from those of its parts. -/
theorem Resulting.compile (G : Resulting Gives) {n : Node} {w : Validator}
    (h : Gives (n.compile resolve) w) :
    (∃ name, n = leaf name ∧ Gives (resolve name) w)
      ∨ Assembled (fun w n => Gives (n.compile resolve) w) w n := by
  cases n with
  | leaf name => exact .inl ⟨name, rfl, h⟩
  | union members =>
    cases members with
    | nil => exact absurd h G.of_throw
    | cons first rest =>
      obtain ⟨ws, hws, h⟩ := G.of_bind h
      obtain rfl := G.of_pure h
      exact .inr (.union (List.cons_ne_nil _ _) (G.compileAll hws))
  | intersection members =>
    cases members with
    | nil => exact absurd h G.of_throw
    | cons first rest =>
      obtain ⟨ws, hws, h⟩ := G.of_bind h
      obtain rfl := G.of_pure h
      exact .inr (.intersection (List.cons_ne_nil _ _) (G.compileAll hws))
  | array element =>
    obtain ⟨w, hw, h⟩ := G.of_bind h
    obtain rfl := G.of_pure h
    exact .inr (.array hw)
  | tuple elements =>
    cases elements with
    | nil => exact absurd h G.of_throw
    | cons first rest =>
      obtain ⟨ws, hws, h⟩ := G.of_bind h
      obtain rfl := G.of_pure h
      exact .inr (.tuple (List.cons_ne_nil _ _) (G.compileAll hws))
  | shape exact ps ix =>
    obtain ⟨pvs, hpvs, h⟩ := G.of_bind h
    obtain ⟨iv, hiv, h⟩ := G.of_bind h
    obtain rfl := G.of_pure h
    exact .inr (.shape (G.compileProperties hpvs) (G.compileIndexer hiv))
  | stray s => cases s <;> exact absurd h G.of_throw

/-- What holds of names, and of what is assembled whenever it holds of the parts, holds of
every type that compiles and its validator. -/
theorem Resulting.induction (G : Resulting Gives) {P : Validator → Node → Prop}
    (name : ∀ {name w}, Gives (resolve name) w → P w (leaf name))
    (step : ∀ {w n}, Assembled P w n → P w n) {n : Node} {w : Validator}
    (h : Gives (n.compile resolve) w) : P w n := by
  induction n using induction_parts generalizing w with
  | h n ih =>
    obtain ⟨name', rfl, hw⟩ | hassembled := G.compile h
    · exact name hw
    · exact step (hassembled.imp_of_mem fun part hp w hw => ih part hp hw)

end Resulting

/-- The results of computations without a state. -/
theorem resulting_except : Resulting fun {α} (x : Except Fault α) (a : α) => x = .ok a where
  of_pure h := (Except.ok.inj h).symm
  of_throw h := by cases h
  of_bind h := Outcome.ok_of_bind h

end StructuralTypes.Node

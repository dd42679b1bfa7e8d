import Mathlib
import StructuralTypes.Proofs.Canonical
import StructuralTypes.Validator.Compile

/-! What reading makes can be compiled. A regular type is compiled by resolving names and
putting the results together, so it answers whenever every name does. -/

namespace StructuralTypes

namespace Node

/-! ### Compiling regular types -/

/-- Conditions on computations that results and sequences of steps keep. -/
structure Sequential {m : Type → Type} [Monad m] (Good : (α : Type) → m α → Prop) : Prop where
  pure : ∀ {α : Type} (a : α), Good α (Pure.pure a)
  bind : ∀ {α β : Type} {x : m α} {f : α → m β}, Good α x → (∀ a, Good β (f a)) →
    Good β (x >>= f)

section Sequential

variable {m : Type → Type} [Monad m] [MonadExceptOf Fault m] {Good : (α : Type) → m α → Prop}
  {resolve : String → m Validator}

theorem Sequential.compileAll (S : Sequential Good) {nodes : List Node}
    (h : ∀ n ∈ nodes, Good _ (n.compile resolve)) : Good _ (Node.compileAll resolve nodes) := by
  induction nodes with
  | nil => exact S.pure []
  | cons n rest ih =>
    rw [List.forall_mem_cons] at h
    exact S.bind h.1 fun _ => S.bind (ih h.2) fun _ => S.pure _

theorem Sequential.compileProperties (S : Sequential Good) {properties : List Property}
    (h : ∀ p ∈ properties, Good _ (p.value.compile resolve)) :
    Good _ (Node.compileProperties resolve properties) := by
  induction properties with
  | nil => exact S.pure []
  | cons p rest ih =>
    obtain ⟨key, value, optional⟩ := p
    rw [List.forall_mem_cons] at h
    exact S.bind (S.bind h.1 fun _ => S.pure _) fun _ => S.bind (ih h.2) fun _ => S.pure _

theorem Sequential.compileIndexer (S : Sequential Good) {indexer : Option Indexer}
    (h : ∀ n ∈ (indexer.map fun i => [i.key, i.value]).getD [], Good _ (n.compile resolve)) :
    Good _ (Node.compileIndexer resolve indexer) := by
  rcases indexer with _ | ⟨key, value⟩
  · exact S.pure none
  · have hkey := h key (by simp [Indexer.key])
    have hvalue := h value (by simp [Indexer.value])
    exact S.bind hkey fun _ => S.bind hvalue fun _ => S.pure _

/-- Nothing but resolving names can keep a regular type from being compiled. -/
theorem Sequential.compile (S : Sequential Good) (h : ∀ name, Good _ (resolve name)) {n : Node}
    (hn : n.Regular 1) : Good _ (n.compile resolve) := by
  induction n using induction_parts with
  | h n ih =>
    obtain ⟨hparts, hall⟩ := (regular_iff hn.1).1 hn
    have hgood : ∀ part ∈ n.parts, Good _ (part.compile resolve) :=
      fun part hp => ih part hp (hall part hp)
    cases n with
    | leaf name => exact h name
    | union members =>
      cases members with
      | nil => simp [hasParts] at hparts
      | cons first rest => exact S.bind (S.compileAll hgood) fun _ => S.pure _
    | intersection members =>
      cases members with
      | nil => simp [hasParts] at hparts
      | cons first rest => exact S.bind (S.compileAll hgood) fun _ => S.pure _
    | array element => exact S.bind (hgood element List.mem_cons_self) fun _ => S.pure _
    | tuple elements =>
      cases elements with
      | nil => simp [hasParts] at hparts
      | cons first rest => exact S.bind (S.compileAll hgood) fun _ => S.pure _
    | shape exact properties indexer =>
      have hproperties := S.compileProperties fun p hp =>
        hgood p.value (List.mem_append_left _ (List.mem_map_of_mem hp))
      have hindexer := S.compileIndexer fun k hk => hgood k (List.mem_append_right _ hk)
      exact S.bind hproperties fun _ => S.bind hindexer fun _ => S.pure _
    | stray s => simp [hasParts] at hparts

end Sequential

/-! ### Resolvers that answer -/

/-- A computation that has a result in every state. -/
def Answering {σ : Type} (α : Type) (r : ExceptT Fault (StateM σ) α) : Prop :=
  ∀ s, ∃ a s', r.run s = (.ok a, s')

theorem sequential_answering (σ : Type) : Sequential (@Answering σ) where
  pure a s := ⟨a, s, rfl⟩
  bind {α β r f} hr hf s := by
    obtain ⟨a, s', ha⟩ := hr s
    obtain ⟨b, s'', hb⟩ := hf a s'
    refine ⟨b, s'', ?_⟩
    change StateT.run (ExceptT.run (r >>= f)) s = _
    rw [ExceptT.run_bind, StateT.run_bind, show StateT.run r.run s = (.ok a, s') from ha]
    exact hb

/-! ### Types that are read -/

/-- Whatever tokens and groups are read as is canonical, and every resolver that answers
every name compiles the type of an annotation. -/
theorem canonical_and_compilable :
    (∀ trees, TokenTree.AllClean trees → ∀ warnings n,
      ((Node.ofTree trees).run warnings).1 = .ok n → n.Canonical)
    ∧ ∀ text n, parse? text = .ok n →
      ∀ (σ : Type) (resolve : String → ExceptT Fault (StateM σ) Validator),
        (∀ name, Answering Validator (resolve name)) → Answering Validator (n.compile resolve) := by
  constructor
  · intro trees hclean warnings n hn
    have hread := @ensures_ofTree Unit _ canonicalLedger trees hclean warnings
    rw [hn] at hread
    exact hread
  · intro text n hn σ resolve hresolve
    obtain ⟨n', hn', hcanonical⟩ | ⟨cause, -, hf⟩ := canonical_or_written text
    · obtain rfl : n' = n := Except.ok.inj (hn'.symm.trans hn)
      exact (sequential_answering σ).compile hresolve (Regular.mono (by omega) hcanonical.1)
    · cases hn.symm.trans hf

/-- The tokens of `{"a": x[] | y, k: ?x}`, nested. -/
def sampleTrees : List TokenTree :=
  [.token ⟨.shape, "@"⟩, .group
    [.token ⟨.name, "\"a\""⟩, .token ⟨.colon, ":"⟩, .token ⟨.name, "x"⟩, .token ⟨.arraySuffix, "$"⟩,
      .token ⟨.union, "|"⟩, .token ⟨.name, "y"⟩, .token ⟨.comma, ","⟩, .token ⟨.name, "k"⟩,
      .token ⟨.colon, ":"⟩, .token ⟨.optional, "?"⟩, .token ⟨.name, "x"⟩]]

def sampleText : String := "[int, {| a: int & *, [string]: *[] |}]"

/-- Counts the names that are asked for. -/
def countingResolver (_ : String) : ExceptT Fault (StateM Nat) Validator := do
  modify (· + 1)
  return .predicate Keyword.existential.predicate

theorem canonical_and_compilable_sample :
    (TokenTree.AllClean sampleTrees ∧ ∃ n, ((Node.ofTree sampleTrees).run []).1 = .ok n
      ∧ n.Canonical)
    ∧ (∀ name, Answering Validator (countingResolver name))
      ∧ ∃ n, parse? sampleText = .ok n ∧ Answering Validator (n.compile countingResolver) := by
  have hclean : TokenTree.AllClean sampleTrees := by
    simp [sampleTrees, TokenTree.AllClean, TokenTree.IsClean]
  have hanswers : ∀ name, Answering Validator (countingResolver name) :=
    fun name s => ⟨_, s + 1, rfl⟩
  have hread : (((Node.ofTree sampleTrees).run []).1).toBool = true := by decide +kernel
  have hparse : (parse? sampleText).toBool = true := by decide +kernel
  refine ⟨⟨hclean, ?_⟩, hanswers, ?_⟩
  · cases hn : ((Node.ofTree sampleTrees).run []).1 with
    | error f => simp [hn, Except.toBool] at hread
    | ok n => exact ⟨n, rfl, canonical_and_compilable.1 sampleTrees hclean [] n hn⟩
  · cases hn : parse? sampleText with
    | error f => simp [hn, Except.toBool] at hparse
    | ok n => exact ⟨n, rfl, canonical_and_compilable.2 sampleText n hn Nat _ hanswers⟩

end Node

end StructuralTypes

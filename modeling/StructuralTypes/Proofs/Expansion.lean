import StructuralTypes.Node.Expansion
import StructuralTypes.Proofs.Canonical
import StructuralTypes.Validator.Compile

/-! What a name stands for among aliases. To expand a name and then compile the expansion
is to compile the annotation of the name, with the names in it meant likewise among the
other aliases. So what a name means is fixed by its own annotation and the meanings of
fewer names, and more aliases never change a meaning that was there. -/

namespace StructuralTypes

/-! ### Computations with results in step -/

namespace Outcome

variable {ε α β γ δ : Type}

/-- A second computation that ends in the fault of the first, or else in what becomes of
its result, which is never a fault. -/
inductive Follows (f : α → Except ε β) : Except ε α → Except ε β → Prop where
  | result {a : α} {b : β} (h : f a = .ok b) : Follows f (.ok a) (.ok b)
  | fault (e : ε) : Follows f (.error e) (.error e)

theorem Follows.bind {f : α → Except ε β} {x : Except ε α} {y : Except ε β}
    {f' : γ → Except ε δ} {g : α → Except ε γ} {g' : β → Except ε δ} (h : Follows f x y)
    (hg : ∀ a b, x = .ok a → f a = .ok b → Follows f' (g a) (g' b)) :
    Follows f' (x >>= g) (y >>= g') := by
  cases h with
  | result h => exact hg _ _ rfl h
  | fault e => exact .fault e

/-- The second computation is the first with what becomes of its result. -/
theorem Follows.bind_eq {f : α → Except ε β} {x : Except ε α} {y : Except ε β}
    (h : Follows f x y) : (x >>= f) = y := by
  cases h with
  | result h => exact h
  | fault e => rfl

/-- What becomes of a result is a result. -/
theorem Follows.ok_of {f : α → Except ε β} {x : Except ε α} {y : Except ε β} {a : α}
    (h : Follows f x y) (hx : x = .ok a) : ∃ b, f a = .ok b := by
  cases h with
  | result h =>
    cases hx
    exact ⟨_, h⟩
  | fault e => cases hx

theorem Follows.of_bind {f : α → Except ε β} {x : Except ε α} (h : ∀ a, x = .ok a → ∃ b, f a = .ok b) :
    Follows f x (x >>= f) := by
  cases x with
  | error e => exact .fault e
  | ok a =>
    obtain ⟨b, hb⟩ := h a rfl
    rw [bind_of_ok rfl, hb]
    exact .result hb

end Outcome

namespace Node

open Outcome

/-! ### Compiling in two ways -/

/-- Relations between computations that results, faults and sequences of steps keep. The
second computation of a pair may depend on an index. -/
structure Simulation {m₁ m₂ : Type → Type} [Monad m₁] [MonadExceptOf Fault m₁] [Monad m₂]
    [MonadExceptOf Fault m₂] {ι : Type} (Rel : (α : Type) → m₁ α → (ι → m₂ α) → Prop) :
    Prop where
  pure : ∀ {α : Type} (a : α), Rel α (Pure.pure a) fun _ => Pure.pure a
  throw : ∀ {α : Type} (c : Cause),
    Rel α (MonadExcept.throw (Fault.ofCause c)) fun _ => MonadExcept.throw (Fault.ofCause c)
  bind : ∀ {α β : Type} {x : m₁ α} {y : ι → m₂ α} {f : α → m₁ β} {g : ι → α → m₂ β},
    Rel α x y → (∀ a, Rel β (f a) fun i => g i a) → Rel β (x >>= f) fun i => y i >>= g i

section Simulation

variable {m₁ m₂ : Type → Type} [Monad m₁] [MonadExceptOf Fault m₁] [Monad m₂]
  [MonadExceptOf Fault m₂] {ι : Type} {Rel : (α : Type) → m₁ α → (ι → m₂ α) → Prop}
  {r₁ : String → m₁ Validator} {r₂ : ι → String → m₂ Validator}

theorem Simulation.compileAll (S : Simulation Rel) {nodes : List Node}
    (h : ∀ n ∈ nodes, Rel _ (n.compile r₁) fun i => n.compile (r₂ i)) :
    Rel _ (Node.compileAll r₁ nodes) fun i => Node.compileAll (r₂ i) nodes := by
  induction nodes with
  | nil => exact S.pure []
  | cons n rest ih =>
    have hrest := ih fun k hk => h k (List.mem_cons_of_mem _ hk)
    exact S.bind (h n List.mem_cons_self) fun _ => S.bind hrest fun _ => S.pure _

theorem Simulation.compileProperties (S : Simulation Rel) {properties : List Property}
    (h : ∀ p ∈ properties, Rel _ (p.value.compile r₁) fun i => p.value.compile (r₂ i)) :
    Rel _ (Node.compileProperties r₁ properties)
      fun i => Node.compileProperties (r₂ i) properties := by
  induction properties with
  | nil => exact S.pure []
  | cons p rest ih =>
    obtain ⟨key, value, optional⟩ := p
    have hvalue := h _ List.mem_cons_self
    have hrest := ih fun k hk => h k (List.mem_cons_of_mem _ hk)
    exact S.bind (S.bind hvalue fun _ => S.pure _) fun _ => S.bind hrest fun _ => S.pure _

theorem Simulation.compileIndexer (S : Simulation Rel) {indexer : Option Indexer}
    (h : ∀ n ∈ (indexer.map fun i => [i.key, i.value]).getD [],
      Rel _ (n.compile r₁) fun i => n.compile (r₂ i)) :
    Rel _ (Node.compileIndexer r₁ indexer) fun i => Node.compileIndexer (r₂ i) indexer := by
  rcases indexer with _ | ⟨key, value⟩
  · exact S.pure none
  · have hkey := h key (by simp [Indexer.key])
    have hvalue := h value (by simp [Indexer.value])
    exact S.bind hkey fun _ => S.bind hvalue fun _ => S.pure _

/-- A type is compiled alike where the names in it are resolved alike. -/
theorem Simulation.compile_of_leafNames (S : Simulation Rel) (r₁ : String → m₁ Validator)
    (r₂ : ι → String → m₂ Validator) (n : Node)
    (h : ∀ name ∈ n.leafNames, Rel _ (r₁ name) fun i => r₂ i name) :
    Rel _ (n.compile r₁) fun i => n.compile (r₂ i) := by
  induction n using induction_parts with
  | h n ih =>
    have hall : ∀ part ∈ n.parts, Rel _ (part.compile r₁) fun i => part.compile (r₂ i) :=
      fun part hp => ih part hp fun name hn => h name (mem_leafNames_of_mem_parts hp hn)
    cases n with
    | leaf name => exact h name List.mem_cons_self
    | union members =>
      cases members with
      | nil => exact S.throw _
      | cons n rest => exact S.bind (S.compileAll hall) fun _ => S.pure _
    | intersection members =>
      cases members with
      | nil => exact S.throw _
      | cons n rest => exact S.bind (S.compileAll hall) fun _ => S.pure _
    | array element => exact S.bind (hall element List.mem_cons_self) fun _ => S.pure _
    | tuple elements =>
      cases elements with
      | nil => exact S.throw _
      | cons n rest => exact S.bind (S.compileAll hall) fun _ => S.pure _
    | shape exact properties indexer =>
      have hproperties := S.compileProperties fun p hp =>
        hall p.value (List.mem_append_left _ (List.mem_map_of_mem hp))
      have hindexer := S.compileIndexer fun k hk => hall k (List.mem_append_right _ hk)
      exact S.bind hproperties fun _ => S.bind hindexer fun _ => S.pure _
    | stray s => cases s <;> exact S.throw _

/-- Types are compiled alike wherever names are resolved alike. -/
theorem Simulation.compile (S : Simulation Rel)
    (h : ∀ name, Rel _ (r₁ name) fun i => r₂ i name) (n : Node) :
    Rel _ (n.compile r₁) fun i => n.compile (r₂ i) :=
  S.compile_of_leafNames r₁ r₂ n fun name _ => h name

end Simulation

/-! ### Compiling what was substituted -/

section Substitution

variable {f : String → Except Fault Node} {g h : String → Except Fault Validator}

theorem length_substituteAll {nodes ms : List Node} (hs : substituteAll f nodes = .ok ms) :
    ms.length = nodes.length := by
  induction nodes generalizing ms with
  | nil =>
    cases hs
    rfl
  | cons n rest ih =>
    obtain ⟨m, -, hm⟩ := ok_of_bind hs
    obtain ⟨ms', hms, hcons⟩ := ok_of_bind hm
    cases hcons
    rw [List.length_cons, List.length_cons, ih hms]

theorem follows_substituteAll {nodes : List Node}
    (hn : ∀ n ∈ nodes, Follows (compile g) (substitute f n) (compile h n)) :
    Follows (compileAll g) (substituteAll f nodes) (compileAll h nodes) := by
  induction nodes with
  | nil => exact .result rfl
  | cons n rest ih =>
    have hrest := ih fun k hk => hn k (List.mem_cons_of_mem _ hk)
    refine (hn n List.mem_cons_self).bind fun m v _ hm => hrest.bind fun ms vs _ hms => ?_
    exact .result ((bind_of_ok hm _).trans (bind_of_ok hms _))

theorem follows_substituteProperties {properties : List Property}
    (hp : ∀ p ∈ properties, Follows (compile g) (substitute f p.value) (compile h p.value)) :
    Follows (compileProperties g) (substituteProperties f properties)
      (compileProperties h properties) := by
  induction properties with
  | nil => exact .result rfl
  | cons p rest ih =>
    obtain ⟨key, value, optional⟩ := p
    have hrest := ih fun k hk => hp k (List.mem_cons_of_mem _ hk)
    have hvalue : Follows (compileProperty g) (substituteProperty f (.mk key value optional))
        (compileProperty h (.mk key value optional)) :=
      (hp _ List.mem_cons_self).bind fun m v _ hm => .result (bind_of_ok hm _)
    refine hvalue.bind fun q v _ hq => hrest.bind fun qs vs _ hqs => ?_
    exact .result ((bind_of_ok hq _).trans (bind_of_ok hqs _))

theorem follows_substituteIndexer {indexer : Option Indexer}
    (hi : ∀ n ∈ (indexer.map fun i => [i.key, i.value]).getD [],
      Follows (compile g) (substitute f n) (compile h n)) :
    Follows (compileIndexer g) (substituteIndexer f indexer) (compileIndexer h indexer) := by
  rcases indexer with _ | ⟨key, value⟩
  · exact .result rfl
  · have hkey := hi key (by simp [Indexer.key])
    have hvalue := hi value (by simp [Indexer.value])
    refine hkey.bind fun k v _ hk => hvalue.bind fun m w _ hm => ?_
    exact .result ((bind_of_ok hk _).trans (bind_of_ok hm _))

/-- To substitute and then compile is to compile with names that are substituted first, as
long as what is put in their place can be compiled. -/
theorem follows_substitute (hf : ∀ name, Follows (compile g) (f name) (h name)) (n : Node)
    (hn : n.Regular 1) : Follows (compile g) (substitute f n) (compile h n) := by
  induction n using induction_parts with
  | h n ih =>
    obtain ⟨hparts, hregular⟩ := (regular_iff hn.1).1 hn
    have hall : ∀ part ∈ n.parts, Follows (compile g) (substitute f part) (compile h part) :=
      fun part hp => ih part hp (hregular part hp)
    cases n with
    | leaf name => exact hf name
    | union members =>
      cases members with
      | nil => simp [hasParts] at hparts
      | cons n rest =>
        refine (follows_substituteAll hall).bind fun ms vs hs hms => ?_
        cases ms with
        | nil => cases length_substituteAll hs
        | cons m ms => exact .result (bind_of_ok hms _)
    | intersection members =>
      cases members with
      | nil => simp [hasParts] at hparts
      | cons n rest =>
        refine (follows_substituteAll hall).bind fun ms vs hs hms => ?_
        cases ms with
        | nil => cases length_substituteAll hs
        | cons m ms => exact .result (bind_of_ok hms _)
    | array element =>
      refine (hall element List.mem_cons_self).bind fun m v _ hm => ?_
      exact .result (bind_of_ok hm _)
    | tuple elements =>
      cases elements with
      | nil => simp [hasParts] at hparts
      | cons n rest =>
        refine (follows_substituteAll hall).bind fun ms vs hs hms => ?_
        cases ms with
        | nil => cases length_substituteAll hs
        | cons m ms => exact .result (bind_of_ok hms _)
    | shape exact properties indexer =>
      have hproperties := follows_substituteProperties fun p hp =>
        hall p.value (List.mem_append_left _ (List.mem_map_of_mem hp))
      have hindexer := follows_substituteIndexer fun k hk => hall k (List.mem_append_right _ hk)
      refine hproperties.bind fun ps vs _ hps => hindexer.bind fun i w _ hi => ?_
      exact .result ((bind_of_ok hps _).trans (bind_of_ok hi _))
    | stray s => cases hn.1

end Substitution

/-! ### Expanding a name -/

/-- The bound on nested aliases does not matter once it is as large as their number. -/
theorem expandWithin_of_length_le {depth : Nat} {aliases : Table String}
    (h : aliases.length ≤ depth) : expandWithin depth aliases = expandName aliases := by
  have hstep : ∀ (d e : Nat) (t : Table String), t.length ≤ d → t.length ≤ e →
      expandWithin d t = expandWithin e t := by
    intro d
    induction d with
    | zero =>
      intro e t hd _
      obtain rfl := List.length_eq_zero_iff.1 (Nat.le_zero.1 hd)
      cases e <;> rfl
    | succ d ih =>
      intro e t hd he
      cases e with
      | zero =>
        obtain rfl := List.length_eq_zero_iff.1 (Nat.le_zero.1 he)
        rfl
      | succ e =>
        funext name
        rw [expandWithin, expandWithin]
        cases hl : Table.lookup? name t with
        | none => rfl
        | some source =>
          have hlt := Table.length_erase_lt hl
          dsimp only
          rw [ih e (Table.erase name t) (by omega) (by omega)]
  exact hstep depth aliases.length aliases h le_rfl

theorem expandName_of_lookup?_none {aliases : Table String} {name : String}
    (h : Table.lookup? name aliases = none) : expandName aliases name = builtinLeaf name := by
  rw [← expandWithin_of_length_le (Nat.le_succ aliases.length), expandWithin, h]

/-- An alias stands for its annotation, in which it is itself unknown. -/
theorem expandName_of_lookup? {aliases : Table String} {name source : String}
    (h : Table.lookup? name aliases = some source) :
    expandName aliases name
      = (parse? source >>= substitute (expandName (Table.erase name aliases))) := by
  have hlt := Table.length_erase_lt h
  rw [← expandWithin_of_length_le (Nat.le_succ aliases.length), expandWithin, h]
  dsimp only
  rw [expandWithin_of_length_le hlt.le]

/-- Only what the names stand for matters, not the order of the table. -/
theorem expandName_congr {aliases others : Table String}
    (h : ∀ name, Table.lookup? name aliases = Table.lookup? name others) :
    expandName aliases = expandName others := by
  have hstep : ∀ (d : Nat) (t u : Table String),
      (∀ name, Table.lookup? name t = Table.lookup? name u) →
        expandWithin d t = expandWithin d u := by
    intro d
    induction d with
    | zero => exact fun t u _ => rfl
    | succ d ih =>
      intro t u hl
      funext name
      rw [expandWithin, expandWithin, hl name]
      cases Table.lookup? name u with
      | none => rfl
      | some source =>
        have herase : ∀ other, Table.lookup? other (Table.erase name t)
            = Table.lookup? other (Table.erase name u) := by
          intro other
          rw [Table.lookup?_erase, Table.lookup?_erase, hl other]
        dsimp only
        rw [ih _ _ herase]
  have hmax := hstep (max aliases.length others.length) aliases others h
  rwa [expandWithin_of_length_le (le_max_left _ _), expandWithin_of_length_le (le_max_right _ _)]
    at hmax

/-! ### Meanings -/

/-- The validator of a name that needs no alias. -/
def builtinValidator (name : String) : Except Fault Validator :=
  match Predicate.ofName name with
  | .ok (some p) => .ok (.predicate p)
  | .ok none => .error (.ofCause (.typeNotFound name))
  | .error e => .error (.overlong e)

/-- The validator of a type without aliases. -/
def plainValidator (n : Node) : Except Fault Validator :=
  n.compile builtinValidator

/-- The validator of what a name stands for. -/
def meaning (aliases : Table String) (name : String) : Except Fault Validator :=
  expandName aliases name >>= plainValidator

/-- The validator of an annotation in which names have their meanings. -/
def textMeaning (aliases : Table String) (source : String) : Except Fault Validator :=
  parse? source >>= compile (meaning aliases)

theorem follows_builtinLeaf (name : String) :
    Follows plainValidator (builtinLeaf name) (builtinValidator name) := by
  rw [builtinLeaf, builtinValidator]
  cases h : Predicate.ofName name with
  | error e => exact .fault _
  | ok p =>
    cases p with
    | none => exact .fault _
    | some p =>
      refine .result ?_
      rw [plainValidator, compile, builtinValidator, h]

/-- What a name expands to can be compiled, and then is its annotation compiled by meanings. -/
theorem follows_expandName (aliases : Table String) (name : String) :
    Follows plainValidator (expandName aliases name) (meaning aliases name) := by
  suffices h : ∀ (size : Nat) (t : Table String), t.length = size → ∀ name n,
      expandName t name = .ok n → ∃ v, plainValidator n = .ok v from
    .of_bind (h aliases.length aliases rfl name)
  intro size
  induction size using Nat.strong_induction_on with
  | h size ih =>
    rintro t rfl name n hn
    cases hl : Table.lookup? name t with
    | none =>
      rw [expandName_of_lookup?_none hl] at hn
      exact (follows_builtinLeaf name).ok_of hn
    | some source =>
      rw [expandName_of_lookup? hl] at hn
      obtain ⟨m, hm, hs⟩ := ok_of_bind hn
      obtain ⟨m', hm', hcanonical⟩ | ⟨f, hf⟩ := parse?_spec source
      · obtain rfl : m' = m := Except.ok.inj (hm'.symm.trans hm)
        have hinner : ∀ other, Follows plainValidator (expandName (Table.erase name t) other)
            (meaning (Table.erase name t) other) := fun other =>
          .of_bind (ih _ (Table.length_erase_lt hl) _ rfl other)
        exact (follows_substitute hinner m' (hcanonical.1.mono (by decide))).ok_of hs
      · rw [hf] at hm
        cases hm

theorem meaning_of_lookup?_none {aliases : Table String} {name : String}
    (h : Table.lookup? name aliases = none) : meaning aliases name = builtinValidator name := by
  rw [meaning, expandName_of_lookup?_none h]
  exact (follows_builtinLeaf name).bind_eq

/-- An alias means what its annotation means among the other aliases. -/
theorem meaning_of_lookup? {aliases : Table String} {name source : String}
    (h : Table.lookup? name aliases = some source) :
    meaning aliases name = textMeaning (Table.erase name aliases) source := by
  rw [meaning, expandName_of_lookup? h, textMeaning]
  obtain ⟨n, hn, hcanonical⟩ | ⟨f, hf⟩ := parse?_spec source
  · rw [bind_of_ok hn, bind_of_ok hn]
    exact (follows_substitute (follows_expandName _) n (hcanonical.1.mono (by decide))).bind_eq
  · rw [hf]
    rfl

theorem meaning_congr {aliases others : Table String}
    (h : ∀ name, Table.lookup? name aliases = Table.lookup? name others) :
    meaning aliases = meaning others := by
  funext name
  rw [meaning, meaning, expandName_congr h]

/-! ### More aliases -/

/-- No name of a table is a keyword or a literal. -/
def Unreserved (aliases : Table String) : Prop :=
  ∀ name ∈ Table.keys aliases, Predicate.ofName name = .ok none

theorem Unreserved.of_within {t u : Table String} (h : Unreserved u) (hw : Table.Within t u) :
    Unreserved t := by
  intro name hname
  cases hl : Table.lookup? name t with
  | none => exact absurd hname (Table.lookup?_eq_none_iff.1 hl)
  | some source =>
    refine h name (not_not.1 fun hu => ?_)
    rw [← Table.lookup?_eq_none_iff, hw name source hl] at hu
    cases hu

/-- Whatever one computation results in, the other does too. -/
def Succeeds (α : Type) (x : Except Fault α) (y : Unit → Except Fault α) : Prop :=
  ∀ a, x = .ok a → y () = .ok a

theorem succeeds_simulation : Simulation Succeeds where
  pure _ _ h := h
  throw _ _ h := by cases h
  bind hx hf b hb := by
    obtain ⟨a, ha, hfa⟩ := ok_of_bind hb
    exact (bind_of_ok (hx a ha) _).trans (hf a b hfa)

/-- What a name means among some aliases it means among more of them. -/
theorem meaning_mono {t u : Table String} (hw : Table.Within t u) (hu : Unreserved u)
    {name : String} {v : Validator} (h : meaning t name = .ok v) : meaning u name = .ok v := by
  induction hsize : t.length using Nat.strong_induction_on generalizing t u name v with
  | h size ih =>
    subst hsize
    cases hl : Table.lookup? name t with
    | some source =>
      rw [meaning_of_lookup? hl] at h
      rw [meaning_of_lookup? (hw name source hl)]
      obtain ⟨n, hn, hv⟩ := ok_of_bind h
      have hinner : ∀ other, Succeeds _ (meaning (Table.erase name t) other)
          fun _ => meaning (Table.erase name u) other := fun other w hw' =>
        ih _ (Table.length_erase_lt hl) (hw.erase name) (hu.of_within Table.erase_within) hw' rfl
      exact (bind_of_ok hn _).trans (succeeds_simulation.compile hinner n v hv)
    | none =>
      rw [meaning_of_lookup?_none hl] at h
      cases hl' : Table.lookup? name u with
      | none => rw [meaning_of_lookup?_none hl', h]
      | some source =>
        -- a name that needs no alias in the smaller table is none in the larger one
        have hname : name ∈ Table.keys u := by
          rw [← not_not (a := name ∈ Table.keys u), ← Table.lookup?_eq_none_iff, hl']
          exact Option.some_ne_none _
        rw [builtinValidator, hu name hname] at h
        cases h

theorem compile_mono {t u : Table String} (hw : Table.Within t u) (hu : Unreserved u) {n : Node}
    {v : Validator} (h : n.compile (meaning t) = .ok v) : n.compile (meaning u) = .ok v := by
  have hinner : ∀ name, Succeeds _ (meaning t name) fun _ => meaning u name :=
    fun _ _ h => meaning_mono hw hu h
  exact succeeds_simulation.compile hinner n v h

theorem textMeaning_mono {t u : Table String} (hw : Table.Within t u) (hu : Unreserved u)
    {source : String} {v : Validator} (h : textMeaning t source = .ok v) :
    textMeaning u source = .ok v := by
  obtain ⟨n, hn, hv⟩ := ok_of_bind h
  exact (bind_of_ok hn _).trans (compile_mono hw hu hv)

/-! ### Faults -/

/-- A computation ends in no fault other than one in a type or a number with too many
digits. -/
def Accountable (α : Type) (x : Except Fault α) (_ : Unit → Except Fault α) : Prop :=
  ∀ e, x = .error e → (∃ f, e = .type f) ∨ ∃ o, e = .overlong o

theorem accountable_simulation : Simulation Accountable where
  pure _ _ h := by cases h
  throw c e h := by
    cases h
    exact .inl ⟨_, rfl⟩
  bind {α β x y f g} hx hf e he := by
    cases x with
    | error e' =>
      cases he
      exact hx _ rfl
    | ok a => exact hf a e he

/-- A name without a meaning has a fault in its type, or leads to a number with too many
digits. -/
theorem meaning_fault {aliases : Table String} {name : String} {e : Fault}
    (h : meaning aliases name = .error e) : (∃ f, e = .type f) ∨ ∃ o, e = .overlong o := by
  induction hsize : aliases.length using Nat.strong_induction_on generalizing aliases name e with
  | h size ih =>
    subst hsize
    cases hl : Table.lookup? name aliases with
    | none =>
      rw [meaning_of_lookup?_none hl, builtinValidator] at h
      split at h
      · cases h
      · cases h
        exact .inl ⟨_, rfl⟩
      · cases h
        exact .inr ⟨_, rfl⟩
    | some source =>
      rw [meaning_of_lookup? hl, textMeaning] at h
      obtain ⟨n, hn, -⟩ | ⟨f, hf⟩ := parse?_spec source
      · rw [bind_of_ok hn] at h
        have hinner : ∀ other, Accountable _ (meaning (Table.erase name aliases) other)
            fun _ => meaning (Table.erase name aliases) other := fun other e' he' =>
          ih _ (Table.length_erase_lt hl) he' rfl
        exact accountable_simulation.compile hinner n e h
      · rw [bind_of_error hf] at h
        cases h
        exact .inl ⟨_, rfl⟩

end Node

end StructuralTypes

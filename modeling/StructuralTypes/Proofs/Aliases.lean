import StructuralTypes.Proofs.Expansion
import StructuralTypes.Registry.History

/-! Registries of aliases. A registry builds each alias when it is first needed and keeps
what it built. At any time some aliases are being built, some are built and the others
wait; what was built means what it means among the built aliases alone, so it stays right
while other aliases are being built and after they failed. -/

namespace StructuralTypes.Registry

open Node Outcome

variable {α β γ δ : Type}

/-- What an operation leads to after the outcome of the one before it. -/
def proceed (f : α → RegistryM β) : Except Fault α × Registry → Except Fault β × Registry
  | (.ok a, r) => (f a).run r
  | (.error e, r) => (.error e, r)

theorem run_bind (x : RegistryM α) (f : α → RegistryM β) (r : Registry) :
    (x >>= f).run r = proceed f (x.run r) := by
  unfold ExceptT.run
  simp only [bind, ExceptT.bind, ExceptT.mk, StateT.bind, ExceptT.bindCont]
  rcases x r with ⟨a | a, r'⟩ <;> rfl

theorem run_get_bind (f : Registry → RegistryM β) (r : Registry) :
    (get >>= f).run r = (f r).run r := rfl

/-! ### Consistent registries -/

/-- Aliases under distinct names that can be registered and stand for nothing else. -/
structure Admissible (aliases : Table String) : Prop where
  distinct : (Table.keys aliases).Nodup
  named : ∀ name ∈ Table.keys aliases, name ≠ "" ∧ name ≠ "any"
  unreserved : Unreserved aliases

theorem Admissible.perm {aliases listed : Table String} (ha : Admissible aliases)
    (h : aliases.Perm listed) : Admissible listed := by
  have hkeys : (Table.keys aliases).Perm (Table.keys listed) := h.map _
  exact ⟨hkeys.nodup_iff.1 ha.distinct, fun name hn => ha.named name (hkeys.mem_iff.2 hn),
    fun name hn => ha.unreserved name (hkeys.mem_iff.2 hn)⟩

/-- The aliases whose validators a registry holds. -/
def builtAliases (aliases : Table String) (r : Registry) : Table String :=
  aliases.filter fun p => Table.has p.1 r.built

/-- The aliases that are not being built. -/
def idleAliases (aliases : Table String) (busy : List String) : Table String :=
  aliases.filter fun p => !busy.contains p.1

/-- A registry of aliases while those in `busy` are being built: these are absent, every
other one is built or waits with its annotation, and what is stored means what it means
among the built aliases. -/
structure Consistent (aliases : Table String) (busy : List String) (r : Registry) : Prop where
  absent : ∀ name, name ∈ busy ∨ Table.lookup? name aliases = none →
    Table.lookup? name r.built = none ∧ Table.lookup? name r.pending = none
  waiting : ∀ name source, Table.lookup? name aliases = some source → name ∉ busy →
    Table.lookup? name r.built = none →
      Table.lookup? name r.pending = some (.define (.text source))
  built : ∀ name e, Table.lookup? name r.built = some e →
    meaning (builtAliases aliases r) name = .ok e.validator
  compiled : ∀ source e, Table.lookup? source r.compiled = some e →
    textMeaning (builtAliases aliases r) source = .ok e.validator

variable {aliases : Table String} {busy : List String} {depth : Nat} {r r' : Registry}

theorem lookup?_builtAliases (name : String) : Table.lookup? name (builtAliases aliases r)
    = if Table.has name r.built then Table.lookup? name aliases else none :=
  Table.lookup?_filter (fun name => Table.has name r.built) name aliases

theorem lookup?_idleAliases (name : String) : Table.lookup? name (idleAliases aliases busy)
    = if name ∈ busy then none else Table.lookup? name aliases := by
  rw [idleAliases, Table.lookup?_filter fun name => !busy.contains name]
  by_cases h : name ∈ busy <;> simp [h]

theorem builtAliases_within : Table.Within (builtAliases aliases r) aliases := by
  intro name source h
  rw [lookup?_builtAliases] at h
  split at h
  · exact h
  · cases h

theorem idleAliases_within : Table.Within (idleAliases aliases busy) aliases := by
  intro name source h
  rw [lookup?_idleAliases] at h
  split at h
  · cases h
  · exact h

theorem builtAliases_mono (h : ∀ name, Table.has name r.built = true → Table.has name r'.built = true) :
    Table.Within (builtAliases aliases r) (builtAliases aliases r') := by
  intro name source hl
  rw [lookup?_builtAliases] at hl ⊢
  split at hl
  · rename_i hhas
    rw [if_pos (h name hhas)]
    exact hl
  · cases hl

/-- Nothing that is being built is built. -/
theorem Consistent.builtAliases_within_idle (h : Consistent aliases busy r) :
    Table.Within (builtAliases aliases r) (idleAliases aliases busy) := by
  intro name source hl
  rw [lookup?_idleAliases]
  rw [lookup?_builtAliases] at hl
  split at hl
  · rename_i hhas
    have hbusy : name ∉ busy := by
      intro hmem
      rw [Table.has, (h.absent name (.inl hmem)).1] at hhas
      cases hhas
    rw [if_neg hbusy]
    exact hl
  · cases hl

/-- To be consistent is a matter of what is stored. -/
theorem Consistent.of_eq (h : Consistent aliases busy r) (hbuilt : r'.built = r.built)
    (hpending : r'.pending = r.pending) (hcompiled : r'.compiled = r.compiled) :
    Consistent aliases busy r' := by
  have hsame : builtAliases aliases r' = builtAliases aliases r := by
    unfold builtAliases
    rw [hbuilt]
  refine ⟨?_, ?_, ?_, ?_⟩
  · rw [hbuilt, hpending]
    exact h.absent
  · rw [hbuilt, hpending]
    exact h.waiting
  · rw [hbuilt, hsame]
    exact h.built
  · rw [hcompiled, hsame]
    exact h.compiled

/-! ### Steps of a registry -/

/-- A pending alias is taken out while it is being built. -/
theorem Consistent.start (h : Consistent aliases busy r) {name : String}
    (hb : Table.lookup? name r.built = none) (hbuilt : r'.built = r.built)
    (hpending : r'.pending = Table.erase name r.pending) (hcompiled : r'.compiled = r.compiled) :
    Consistent aliases (name :: busy) r' := by
  have hsame : builtAliases aliases r' = builtAliases aliases r := by
    unfold builtAliases
    rw [hbuilt]
  refine ⟨?_, ?_, ?_, ?_⟩
  · intro other ho
    rw [hbuilt, hpending, Table.lookup?_erase]
    by_cases hn : other = name
    · rw [hn, if_pos rfl]
      exact ⟨hb, rfl⟩
    · rw [if_neg hn]
      refine h.absent other (ho.imp_left fun hmem => ?_)
      exact (List.mem_cons.1 hmem).resolve_left hn
  · intro other source hl hbusy ho
    rw [List.mem_cons, not_or] at hbusy
    rw [hbuilt] at ho
    rw [hpending, Table.lookup?_erase, if_neg hbusy.1]
    exact h.waiting other source hl hbusy.2 ho
  · rw [hbuilt, hsame]
    exact h.built
  · rw [hcompiled, hsame]
    exact h.compiled

theorem builtAliases_within_insert {name : String} {e : Entry}
    (hbuilt : r'.built = Table.insert name e r.built) :
    Table.Within (builtAliases aliases r) (builtAliases aliases r') := by
  refine builtAliases_mono fun other ho => ?_
  by_cases hn : other = name
  · rw [hbuilt, hn, Table.has, Table.lookup?_insert_self]
    rfl
  · rw [hbuilt, Table.has, Table.lookup?_insert_of_ne hn]
    exact ho

/-- A built alias means what its annotation means among the aliases built before it. -/
theorem Consistent.meaning_finish (ha : Admissible aliases) {name source : String} {e : Entry}
    (h : Consistent aliases (name :: busy) r) (hl : Table.lookup? name aliases = some source)
    (hm : textMeaning (builtAliases aliases r) source = .ok e.validator)
    (hbuilt : r'.built = Table.insert name e r.built) :
    meaning (builtAliases aliases r') name = .ok e.validator := by
  have hunreserved := ha.unreserved.of_within (builtAliases_within (r := r'))
  have habsent := h.absent name (.inl List.mem_cons_self)
  have hself : Table.lookup? name (builtAliases aliases r') = some source := by
    rw [lookup?_builtAliases, hbuilt, Table.has, Table.lookup?_insert_self]
    exact hl
  have hwithin : Table.Within (builtAliases aliases r)
      (Table.erase name (builtAliases aliases r')) := by
    intro k item hk
    have hne : k ≠ name := by
      rintro rfl
      rw [lookup?_builtAliases, Table.has, habsent.1] at hk
      cases hk
    rw [Table.lookup?_erase, if_neg hne]
    exact builtAliases_within_insert hbuilt k item hk
  rw [meaning_of_lookup? hself]
  exact textMeaning_mono hwithin (hunreserved.of_within Table.erase_within) hm

/-- An alias that was being built is stored with its validator. -/
theorem Consistent.finish (ha : Admissible aliases) {name source : String} {e : Entry}
    (h : Consistent aliases (name :: busy) r) (hl : Table.lookup? name aliases = some source)
    (hbusy : name ∉ busy) (hm : textMeaning (builtAliases aliases r) source = .ok e.validator)
    (hbuilt : r'.built = Table.insert name e r.built)
    (hpending : r'.pending = Table.erase name r.pending) (hcompiled : r'.compiled = r.compiled) :
    Consistent aliases busy r' := by
  have hunreserved := ha.unreserved.of_within (builtAliases_within (r := r'))
  have hmono : Table.Within (builtAliases aliases r) (builtAliases aliases r') :=
    builtAliases_within_insert hbuilt
  refine ⟨?_, ?_, ?_, ?_⟩
  · intro other ho
    have hn : other ≠ name := by
      rintro rfl
      rcases ho with ho | ho
      · exact hbusy ho
      · rw [hl] at ho
        cases ho
    rw [hbuilt, hpending, Table.lookup?_insert_of_ne hn, Table.lookup?_erase, if_neg hn]
    exact h.absent other (ho.imp_left (List.mem_cons_of_mem _))
  · intro other source' hl' hbusy' ho
    have hn : other ≠ name := by
      rintro rfl
      rw [hbuilt, Table.lookup?_insert_self] at ho
      cases ho
    rw [hbuilt, Table.lookup?_insert_of_ne hn] at ho
    rw [hpending, Table.lookup?_erase, if_neg hn]
    exact h.waiting other source' hl' (by simp [hn, hbusy']) ho
  · intro other e' ho
    rw [hbuilt] at ho
    obtain ⟨rfl, rfl⟩ | ho := Table.lookup?_insert_cases ho
    · exact h.meaning_finish ha hl hm hbuilt
    · exact meaning_mono hmono hunreserved (h.built other e' ho)
  · intro source' e' ho
    rw [hcompiled] at ho
    exact textMeaning_mono hmono hunreserved (h.compiled source' e' ho)

/-- An alias that could not be built waits again. -/
theorem Consistent.giveUp {name source : String} (h : Consistent aliases (name :: busy) r)
    (hl : Table.lookup? name aliases = some source) (hbusy : name ∉ busy)
    (hbuilt : r'.built = r.built)
    (hpending : r'.pending = Table.insert name (.define (.text source)) r.pending)
    (hcompiled : r'.compiled = r.compiled) : Consistent aliases busy r' := by
  have hsame : builtAliases aliases r' = builtAliases aliases r := by
    unfold builtAliases
    rw [hbuilt]
  refine ⟨?_, ?_, ?_, ?_⟩
  · intro other ho
    have hn : other ≠ name := by
      rintro rfl
      rcases ho with ho | ho
      · exact hbusy ho
      · rw [hl] at ho
        cases ho
    rw [hbuilt, hpending, Table.lookup?_insert_of_ne hn]
    exact h.absent other (ho.imp_left (List.mem_cons_of_mem _))
  · intro other source' hl' hbusy' ho
    rw [hpending]
    by_cases hn : other = name
    · rw [hn, hl] at hl'
      cases hl'
      rw [hn, Table.lookup?_insert_self]
    · rw [hbuilt] at ho
      rw [Table.lookup?_insert_of_ne hn]
      exact h.waiting other source' hl' (by simp [hn, hbusy']) ho
  · rw [hbuilt, hsame]
    exact h.built
  · rw [hcompiled, hsame]
    exact h.compiled

/-! ### Operations and what they compute -/

/-- An operation leaves a registry consistent, with no more pending names than before and
everything that was built. -/
structure Advances (aliases : Table String) (busy : List String) (r r' : Registry) : Prop where
  consistent : Consistent aliases busy r'
  pending_le : r'.pending.length ≤ r.pending.length
  built : ∀ name, Table.has name r.built = true → Table.has name r'.built = true

/-- An outcome is that of a computation on aliases: a result is had among the built
aliases, a fault among all that are not being built. -/
def Answers (aliases : Table String) (busy : List String) (view : α → β)
    (y : Table String → Except Fault β) : Except Fault α × Registry → Prop
  | (.ok a, r) => y (builtAliases aliases r) = .ok (view a)
  | (.error e, _) => y (idleAliases aliases busy) = .error e

/-- An operation on registries with few pending names computes on their aliases. -/
def Realizes (aliases : Table String) (busy : List String) (depth : Nat) (view : α → β)
    (x : RegistryM α) (y : Table String → Except Fault β) : Prop :=
  ∀ r, Consistent aliases busy r → r.pending.length ≤ depth →
    Advances aliases busy r (x.run r).2 ∧ Answers aliases busy view y (x.run r)

/-- A computation that keeps its results when aliases are added. -/
def Steady (aliases : Table String) (y : Table String → Except Fault β) : Prop :=
  ∀ t u, Table.Within t u → Table.Within u aliases → ∀ b, y t = .ok b → y u = .ok b

theorem Consistent.advances_refl (h : Consistent aliases busy r) : Advances aliases busy r r :=
  ⟨h, le_rfl, fun _ hb => hb⟩

theorem Advances.trans {r'' : Registry} (h : Advances aliases busy r r')
    (h' : Advances aliases busy r' r'') : Advances aliases busy r r'' :=
  ⟨h'.consistent, h'.pending_le.trans h.pending_le, fun name hb => h'.built name (h.built name hb)⟩

theorem Consistent.advances_of_eq (h : Consistent aliases busy r) (hbuilt : r'.built = r.built)
    (hpending : r'.pending = r.pending) (hcompiled : r'.compiled = r.compiled) :
    Advances aliases busy r r' :=
  ⟨h.of_eq hbuilt hpending hcompiled, hpending ▸ le_rfl, fun _ hb => hbuilt ▸ hb⟩

theorem realizes_pure (view : α → β) (a : α) :
    Realizes aliases busy depth view (pure a) fun _ => pure (view a) :=
  fun _ h _ => ⟨h.advances_refl, rfl⟩

theorem realizes_throw (view : α → β) (e : Fault) :
    Realizes aliases busy depth view (throw e) fun _ => throw e :=
  fun _ h _ => ⟨h.advances_refl, rfl⟩

theorem Realizes.bind {view : α → β} {view' : γ → δ} {x : RegistryM α} {f : α → RegistryM γ}
    {y : Table String → Except Fault β} {g : Table String → β → Except Fault δ}
    (hy : Steady aliases y) (hx : Realizes aliases busy depth view x y)
    (hf : ∀ a, Realizes aliases busy depth view' (f a) fun t => g t (view a)) :
    Realizes aliases busy depth view' (x >>= f) fun t => y t >>= g t := by
  intro r h hd
  obtain ⟨hadv, hans⟩ := hx r h hd
  rw [run_bind]
  rcases hrun : x.run r with ⟨e | a, r'⟩
  · rw [hrun] at hadv hans
    exact ⟨hadv, bind_of_error hans _⟩
  · rw [hrun] at hadv hans
    obtain ⟨hadv', hans'⟩ := hf a r' hadv.consistent (hadv.pending_le.trans hd)
    refine ⟨hadv.trans hadv', ?_⟩
    have hlater : Table.Within (builtAliases aliases r')
        (builtAliases aliases ((f a).run r').2) := builtAliases_mono hadv'.built
    have hidle := hadv.consistent.builtAliases_within_idle
    show Answers aliases busy view' _ ((f a).run r')
    rcases hrun' : (f a).run r' with ⟨e | c, r''⟩
    · rw [hrun'] at hans'
      exact (bind_of_ok (hy _ _ hidle idleAliases_within _ hans) _).trans hans'
    · rw [hrun'] at hans' hlater
      exact (bind_of_ok (hy _ _ hlater builtAliases_within _ hans) _).trans hans'

theorem steady_const (c : Except Fault β) : Steady aliases fun _ => c :=
  fun _ _ _ _ _ h => h

theorem Steady.bind {y : Table String → Except Fault β} {g : Table String → β → Except Fault δ}
    (hy : Steady aliases y) (hg : ∀ b, Steady aliases fun t => g t b) :
    Steady aliases fun t => y t >>= g t := by
  intro t u hw hu d hd
  obtain ⟨b, hb, hgb⟩ := ok_of_bind hd
  exact (bind_of_ok (hy t u hw hu b hb) _).trans (hg b t u hw hu d hgb)

theorem Admissible.steady_meaning (ha : Admissible aliases) (name : String) :
    Steady aliases fun t => meaning t name :=
  fun _ _ hw hu _ h => meaning_mono hw (ha.unreserved.of_within hu) h

theorem Admissible.steady_compile (ha : Admissible aliases) (n : Node) :
    Steady aliases fun t => n.compile (meaning t) :=
  fun _ _ hw hu _ h => compile_mono hw (ha.unreserved.of_within hu) h

end StructuralTypes.Registry

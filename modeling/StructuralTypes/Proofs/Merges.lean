import StructuralTypes.Proofs.Outcomes
import StructuralTypes.Proofs.Tables
import StructuralTypes.Settings

/-! Settings under overriding entries. What entries say on settings is a patch: values for the
switches and a table of what is given for aliases. Merging applies the patch, and entries that
update others amount to the one patch followed by the other, so that settings can be overridden
in two steps or in one. -/

namespace StructuralTypes

/-! ### Entries keyed by texts -/

namespace Value

/-- Entries keyed by texts, each once. -/
structure Named (entries : List (Value × Value)) : Prop where
  texts : ∀ p ∈ entries, ∃ key, p.1 = .text key
  distinct : (entries.map Prod.fst).Nodup

/-- The entries of a table. -/
def entriesOf (t : Table Value) : List (Value × Value) :=
  t.map fun p => (.text p.1, p.2)

theorem Named.exists_table {entries : List (Value × Value)} (h : Named entries) :
    ∃ t : Table Value, (Table.keys t).Nodup ∧ entries = entriesOf t := by
  obtain ⟨htexts, hdistinct⟩ := h
  induction entries with
  | nil => exact ⟨[], List.nodup_nil, rfl⟩
  | cons p rest ih =>
    rw [List.forall_mem_cons] at htexts
    obtain ⟨hp, hrest⟩ := List.nodup_cons.1 hdistinct
    obtain ⟨t, ht, rfl⟩ := ih htexts.2 hrest
    obtain ⟨⟨key, hkey⟩, -⟩ := htexts
    refine ⟨(key, p.2) :: t, List.nodup_cons.2 ⟨fun hmem => hp ?_, ht⟩, ?_⟩
    · obtain ⟨q, hq, hname⟩ := List.mem_map.1 hmem
      rw [hkey]
      exact List.mem_map.2 ⟨(.text q.1, q.2), List.mem_map_of_mem hq, congrArg Value.text hname⟩
    · rw [entriesOf, entriesOf, List.map_cons, ← hkey]

theorem named_entriesOf {t : Table Value} (h : (Table.keys t).Nodup) : Named (entriesOf t) where
  texts := by
    simp only [entriesOf, List.forall_mem_map]
    exact fun p _ => ⟨p.1, rfl⟩
  distinct := by
    have hkeys : (entriesOf t).map Prod.fst = (Table.keys t).map .text := by
      simp [entriesOf, Table.keys]
    rw [hkeys]
    exact h.map fun _ _ => Value.text.inj

theorem lookup?_entriesOf (key : String) (t : Table Value) :
    lookup? (.text key) (entriesOf t) = Table.lookup? key t := by
  induction t with
  | nil => rfl
  | cons p rest ih =>
    rw [entriesOf, List.map_cons, lookup?, Table.lookup?]
    by_cases h : p.1 = key
    · simp [h, sameKey]
    · rw [List.find?_cons_of_neg (by simpa [sameKey] using h), if_neg h]
      exact ih

theorem insertEntry_entriesOf (key : String) (item : Value) (t : Table Value) :
    insertEntry (.text key) item (entriesOf t) = entriesOf (Table.insert key item t) := by
  induction t with
  | nil => rfl
  | cons p rest ih =>
    rw [entriesOf, List.map_cons, insertEntry, Table.insert]
    by_cases h : p.1 = key
    · simp [h, sameKey, entriesOf]
    · rw [if_neg (by simpa [sameKey] using h), if_neg h]
      exact congrArg _ ih

def isMapping : Value → Bool
  | mapping _ => true
  | _ => false

end Value

namespace Settings

open Outcome Value

/-- Entries that can be laid over settings: the aliases, where they are given, are a mapping
keyed like the entries themselves. -/
structure Overriding (entries : List (Value × Value)) : Prop where
  named : Named entries
  aliases : ∀ v, lookup? (.text "aliases") entries = some v → ∃ items, v = .mapping items
    ∧ Named items

/-! ### Updates of tables -/

/-- An update leaves itself in place of what is no mapping. -/
theorem update_of_not_isMapping {old : Option Value} (h : old.all (!·.isMapping)) (item : Value) :
    update old item = item := by
  cases item with
  | mapping updates =>
    rw [update]
    rintro entries rfl
    cases h
  | _ => rfl

/-- A table with updates stored in it. -/
def updateTable (t u : Table Value) : Table Value :=
  u.foldl (fun t p => Table.insert p.1 (update (Table.lookup? p.1 t) p.2) t) t

theorem updateTable_cons (t : Table Value) (p : String × Value) (u : Table Value) :
    updateTable t (p :: u)
      = updateTable (Table.insert p.1 (update (Table.lookup? p.1 t) p.2) t) u := rfl

theorem updateAll_entriesOf (t u : Table Value) :
    updateAll (entriesOf t) (entriesOf u) = entriesOf (updateTable t u) := by
  induction u generalizing t with
  | nil => rfl
  | cons p rest ih =>
    have hcons : entriesOf (p :: rest) = (.text p.1, p.2) :: entriesOf rest := rfl
    rw [hcons, updateAll, lookup?_entriesOf, insertEntry_entriesOf, ih, updateTable_cons]

variable {t u : Table Value}

theorem lookup?_updateTable (hu : (Table.keys u).Nodup) (key : String) :
    Table.lookup? key (updateTable t u)
      = ((Table.lookup? key u).map (update (Table.lookup? key t))).or (Table.lookup? key t) := by
  induction u generalizing t with
  | nil => rfl
  | cons p rest ih =>
    obtain ⟨hp, hrest⟩ := Table.nodup_keys_cons hu
    rw [updateTable_cons, ih hrest, Table.lookup?]
    by_cases h : p.1 = key
    · subst h
      rw [if_pos rfl, Table.lookup?_eq_none_iff.2 hp, Table.lookup?_insert_self]
      rfl
    · rw [if_neg h, Table.lookup?_insert_of_ne (Ne.symm h)]

theorem nodup_keys_updateTable (ht : (Table.keys t).Nodup) (u : Table Value) :
    (Table.keys (updateTable t u)).Nodup := by
  induction u generalizing t with
  | nil => exact ht
  | cons p rest ih => exact ih (Table.nodup_keys_insert ht _ _)

/-- Where there are no mappings to go into, updates are just stored. -/
theorem updateTable_eq_updated (hu : (Table.keys u).Nodup)
    (h : ∀ key ∈ Table.keys u, (Table.lookup? key t).all (!·.isMapping)) :
    updateTable t u = t.updated u := by
  induction u generalizing t with
  | nil => rfl
  | cons p rest ih =>
    obtain ⟨hp, hrest⟩ := Table.nodup_keys_cons hu
    rw [updateTable_cons, update_of_not_isMapping (h p.1 List.mem_cons_self), Table.updated_cons]
    refine ih hrest fun key hkey => ?_
    have hne : key ≠ p.1 := fun e => hp (e ▸ hkey)
    rw [Table.lookup?_insert_of_ne hne]
    exact h key (List.mem_cons_of_mem _ hkey)

/-! ### Patches -/

/-- What entries give for the switches and the aliases. -/
structure Patch where
  enabled : Option Value
  warns : Option Value
  aliases : Table Value

/-- One patch and then another. -/
def Patch.followedBy (p q : Patch) : Patch :=
  { enabled := q.enabled.or p.enabled
    warns := q.warns.or p.warns
    aliases := p.aliases.updated q.aliases }

/-- A patch is what entries give. -/
structure Patch.Reads (p : Patch) (o : Table Value) : Prop where
  enabled : p.enabled = Table.lookup? "enabled" o
  warns : p.warns = Table.lookup? "warn_about_exact_shape_indexers" o
  aliases : Table.lookup? "aliases" o = some (.mapping (entriesOf p.aliases))
    ∨ Table.lookup? "aliases" o = none ∧ p.aliases = []
  distinct : (Table.keys p.aliases).Nodup

theorem Patch.exists_reads {o : Table Value} (h : Overriding (entriesOf o)) :
    ∃ p : Patch, p.Reads o := by
  cases hl : Table.lookup? "aliases" o with
  | none => exact ⟨⟨_, _, []⟩, rfl, rfl, .inr ⟨hl, rfl⟩, List.nodup_nil⟩
  | some v =>
    rw [← lookup?_entriesOf] at hl
    obtain ⟨items, rfl, hitems⟩ := h.aliases v hl
    obtain ⟨t, ht, rfl⟩ := hitems.exists_table
    rw [lookup?_entriesOf] at hl
    exact ⟨⟨_, _, t⟩, rfl, rfl, .inl hl, ht⟩

/-- The value of a switch. -/
def switch (key : String) : Value → Except Fault Bool
  | .bool b => return b
  | v => throw (if v.showsOverlong then .overlong .written else .flagNotBoolean key v)

theorem switch_eq_ok_iff {key : String} {v : Value} {b : Bool} :
    switch key v = .ok b ↔ v = .bool b := by
  constructor
  · intro h
    cases v <;> cases h
    rfl
  · rintro rfl
    rfl

theorem flag_entriesOf {key : String} {v : Value} (h : Table.lookup? key t = some v) :
    flag (entriesOf t) key = switch key v := by
  rw [flag, lookup?_entriesOf, h]
  cases v <;> rfl

/-- What a source of an alias is as a text. -/
def sourceText? (v : Value) : Option String :=
  if v.isText then some v.label else none

/-- The table of aliases, if all their sources are texts. -/
def collect : Table (Option String) → Except Fault (Table String)
  | [] => return []
  | (name, some source) :: rest => return (name, source) :: (← collect rest)
  | (name, none) :: _ => throw (.aliasNotText (.text name))

/-- Aliases, each with its text. -/
def texts (aliases : Table String) : Table (Option String) :=
  aliases.map fun p => (p.1, some p.2)

theorem collect_eq_ok_iff {sources : Table (Option String)} {aliases : Table String} :
    collect sources = .ok aliases ↔ sources = texts aliases := by
  induction sources generalizing aliases with
  | nil =>
    refine ⟨fun h => Except.ok.inj h ▸ rfl, fun h => ?_⟩
    rw [List.map_eq_nil_iff.1 h.symm]
    rfl
  | cons p rest ih =>
    obtain ⟨name, source⟩ := p
    cases source with
    | none =>
      refine iff_of_false nofun fun h => ?_
      cases aliases <;> cases h
    | some source =>
      rw [collect, bind_eq_ok_iff]
      constructor
      · rintro ⟨more, hmore, h⟩
        cases h
        rw [ih.1 hmore]
        rfl
      · intro h
        cases aliases with
        | nil => cases h
        | cons q more =>
          cases h
          exact ⟨more, ih.2 rfl, rfl⟩

/-- What aliases are given as, by their texts. -/
def sources (t : Table Value) : Table (Option String) :=
  t.map fun p => (p.1, sourceText? p.2)

theorem aliasTable_entriesOf {stored : Table String} (ht : (Table.keys t).Nodup)
    (hs : ∀ key ∈ Table.keys t, key ∉ Table.keys stored) :
    aliasTable stored (entriesOf t) = (collect (sources t)).map (stored ++ ·) := by
  induction t generalizing stored with
  | nil => simp [entriesOf, aliasTable, sources, collect, pure, Except.pure, Except.map]
  | cons p rest ih =>
    obtain ⟨hp, hrest⟩ := Table.nodup_keys_cons ht
    have hentries : entriesOf (p :: rest) = (.text p.1, p.2) :: entriesOf rest := rfl
    have hsources : sources (p :: rest) = (p.1, sourceText? p.2) :: sources rest := rfl
    have hshown : (Value.text p.1).labelsOverlong = false := rfl
    rw [hentries, hsources, aliasTable, hshown, if_neg Bool.false_ne_true]
    cases hsource : p.2.isText with
    | false =>
      rw [sourceText?, hsource]
      rfl
    | true =>
      have hnew : ∀ key ∈ Table.keys rest, key ∉ Table.keys (stored ++ [(p.1, p.2.label)]) := by
        intro key hkey
        rw [Table.keys_concat, List.mem_append, List.mem_singleton, not_or]
        exact ⟨hs key (List.mem_cons_of_mem _ hkey), fun e => hp (e ▸ hkey)⟩
      have hlabel : (Value.text p.1).label = p.1 := rfl
      rw [if_pos rfl, hlabel, Table.insert_of_not_mem (hs p.1 List.mem_cons_self), ih hrest hnew,
        sourceText?, hsource, if_pos rfl, collect]
      cases collect (sources rest) with
      | error fault => rfl
      | ok more => exact congrArg Except.ok (List.append_assoc _ _ _)

/-- The settings that a patch makes of others. -/
def patched (s : Settings) (p : Patch) : Except Fault Settings := do
  let aliases ← collect ((texts s.aliases).updated (sources p.aliases))
  let enabled ← switch "enabled" (p.enabled.getD (.bool s.enabled))
  let warns ← switch "warn_about_exact_shape_indexers" (p.warns.getD (.bool s.warns))
  return { enabled, warns, aliases }

variable {s s' : Settings} {p q : Patch}

theorem patched_eq_ok_iff : s.patched p = .ok s' ↔
    (texts s.aliases).updated (sources p.aliases) = texts s'.aliases
      ∧ p.enabled.getD (.bool s.enabled) = .bool s'.enabled
      ∧ p.warns.getD (.bool s.warns) = .bool s'.warns := by
  simp only [patched, bind_eq_ok_iff, collect_eq_ok_iff, switch_eq_ok_iff]
  constructor
  · rintro ⟨aliases, haliases, enabled, henabled, warns, hwarns, h⟩
    cases h
    exact ⟨haliases, henabled, hwarns⟩
  · rintro ⟨haliases, henabled, hwarns⟩
    exact ⟨_, haliases, _, henabled, _, hwarns, rfl⟩

theorem sources_updated (t u : Table Value) :
    sources (t.updated u) = (sources t).updated (sources u) :=
  Table.map_updated sourceText? t u

theorem keys_sources (t : Table Value) : Table.keys (sources t) = Table.keys t :=
  Table.keys_map sourceText? t

theorem lookup?_texts (key : String) (aliases : Table String) :
    Table.lookup? key (texts aliases) = (Table.lookup? key aliases).map some :=
  Table.lookup?_map some key aliases

theorem lookup?_sources (key : String) (t : Table Value) :
    Table.lookup? key (sources t) = (Table.lookup? key t).map sourceText? :=
  Table.lookup?_map sourceText? key t

theorem keys_texts (aliases : Table String) : Table.keys (texts aliases) = Table.keys aliases :=
  Table.keys_map some aliases

/-- Settings that were patched once are patched by what follows as if all had been one patch. -/
theorem patched_followedBy (hs : (Table.keys s.aliases).Nodup)
    (hp : (Table.keys p.aliases).Nodup) (hq : (Table.keys q.aliases).Nodup)
    (h : s.patched p = .ok s') : s'.patched q = s.patched (p.followedBy q) := by
  obtain ⟨haliases, henabled, hwarns⟩ := patched_eq_ok_iff.1 h
  have hboth : (texts s'.aliases).updated (sources q.aliases)
      = (texts s.aliases).updated (sources (p.followedBy q).aliases) := by
    rw [← haliases, Patch.followedBy, sources_updated]
    exact Table.updated_updated (by rwa [keys_texts]) (by rwa [keys_sources])
      (by rwa [keys_sources])
  have hswitch : ∀ {given given' : Option Value} {b b' : Bool},
      given.getD (.bool b) = .bool b' →
      given'.getD (.bool b') = (given'.or given).getD (.bool b) := by
    rintro given (_ | v) b b' hb
    · exact hb.symm
    · rfl
  rw [patched, patched, hboth]
  simp only [Patch.followedBy]
  rw [hswitch henabled, hswitch hwarns]

/-- A patch that is applied again changes nothing. -/
theorem patched_again (hs : (Table.keys s.aliases).Nodup) (hp : (Table.keys p.aliases).Nodup)
    (h : s.patched p = .ok s') : s'.patched p = .ok s' := by
  have hself : p.followedBy p = p := by
    rw [Patch.followedBy, Table.updated_self hp, Option.or_self, Option.or_self]
  rw [patched_followedBy hs hp hp h, hself, h]

/-! ### Merging -/

/-- The entries of settings, as a table. -/
def table (s : Settings) : Table Value :=
  [("enabled", .bool s.enabled), ("warn_about_exact_shape_indexers", .bool s.warns),
   ("aliases", .mapping (entriesOf (s.aliases.map fun p => (p.1, .text p.2))))]

theorem toEntries_eq (s : Settings) : s.toEntries = entriesOf s.table := by
  simp [toEntries, table, entriesOf]

/-- An item that is given for what was no mapping before stands in its place. -/
theorem lookup?_updateTable_of_some {key : String} {old : Value} (hu : (Table.keys u).Nodup)
    (h : Table.lookup? key t = some old) (hold : old.isMapping = false) :
    Table.lookup? key (updateTable t u) = some ((Table.lookup? key u).getD old) := by
  rw [lookup?_updateTable hu, h]
  cases Table.lookup? key u with
  | none => rfl
  | some item =>
    rw [Option.map_some, update_of_not_isMapping (by simp [hold])]
    rfl

/-- The aliases of settings, as a table of texts. -/
def aliasItems (s : Settings) : Table Value :=
  s.aliases.map fun p => (p.1, .text p.2)

theorem sources_aliasItems (s : Settings) : sources s.aliasItems = texts s.aliases := by
  simp [sources, aliasItems, texts, sourceText?, isText, label]

theorem keys_aliasItems (s : Settings) : Table.keys s.aliasItems = Table.keys s.aliases :=
  Table.keys_map Value.text s.aliases

/-- Aliases that are given are stored among those of the settings. -/
theorem lookup?_aliases (hp : p.Reads t) (ht : (Table.keys t).Nodup) :
    Table.lookup? "aliases" (updateTable s.table t)
      = some (.mapping (entriesOf (s.aliasItems.updated p.aliases))) := by
  have hold : Table.lookup? "aliases" s.table = some (.mapping (entriesOf s.aliasItems)) := rfl
  rw [lookup?_updateTable ht, hold]
  rcases hp.aliases with h | ⟨h, hnil⟩
  · rw [h, Option.map_some, Option.some_or, update, updateAll_entriesOf,
      updateTable_eq_updated hp.distinct]
    intro key _
    rw [aliasItems, Table.lookup?_map]
    cases Table.lookup? key s.aliases <;> rfl
  · rw [h, hnil]
    rfl

/-- Merging with entries applies the patch that they are. -/
theorem merge_entriesOf (hs : (Table.keys s.aliases).Nodup) (hp : p.Reads t)
    (ht : (Table.keys t).Nodup) : s.merge (entriesOf t) = s.patched p := by
  cases t with
  | nil =>
    have hnil : p.aliases = [] := hp.aliases.elim nofun And.right
    refine (patched_eq_ok_iff.2 ⟨?_, ?_, ?_⟩).symm
    · rw [hnil]
      rfl
    · rw [hp.enabled]
      rfl
    · rw [hp.warns]
      rfl
  | cons first rest =>
    have hmerge : s.merge (entriesOf (first :: rest))
        = ofEntries (updateAll s.toEntries (entriesOf (first :: rest))) := rfl
    have hdistinct : (Table.keys (s.aliasItems.updated p.aliases)).Nodup :=
      Table.nodup_keys_updated (by rwa [keys_aliasItems]) _
    have haliases : aliasesOf (entriesOf (updateTable s.table (first :: rest)))
        = collect ((texts s.aliases).updated (sources p.aliases)) := by
      rw [aliasesOf, lookup?_entriesOf, lookup?_aliases hp ht]
      dsimp only
      rw [aliasTable_entriesOf hdistinct (by simp [Table.keys]), sources_updated,
        sources_aliasItems]
      cases collect ((texts s.aliases).updated (sources p.aliases)) <;> rfl
    have henabled : Table.lookup? "enabled" s.table = some (.bool s.enabled) := rfl
    have hwarns : Table.lookup? "warn_about_exact_shape_indexers" s.table
        = some (.bool s.warns) := rfl
    rw [hmerge, toEntries_eq, updateAll_entriesOf, ofEntries, haliases,
      flag_entriesOf (lookup?_updateTable_of_some ht henabled rfl),
      flag_entriesOf (lookup?_updateTable_of_some ht hwarns rfl), ← hp.enabled, ← hp.warns]
    rfl

/-- What can be applied goes into no mapping. -/
theorem not_isMapping_of_patched (hp : (Table.keys p.aliases).Nodup) (h : s.patched p = .ok s') :
    p.enabled.all (!·.isMapping) ∧ p.warns.all (!·.isMapping)
      ∧ ∀ key, (Table.lookup? key p.aliases).all (!·.isMapping) := by
  obtain ⟨haliases, henabled, hwarns⟩ := patched_eq_ok_iff.1 h
  have hswitch : ∀ {given : Option Value} {b b' : Bool}, given.getD (.bool b) = .bool b' →
      given.all (!·.isMapping) := by
    rintro (_ | v) b b' hv
    · rfl
    · obtain rfl : v = .bool b' := hv
      rfl
  refine ⟨hswitch henabled, hswitch hwarns, fun key => ?_⟩
  have hlookup := congrArg (Table.lookup? key) haliases
  rw [Table.lookup?_updated (by rwa [keys_sources]), lookup?_sources, lookup?_texts key s'.aliases]
    at hlookup
  cases hv : Table.lookup? key p.aliases with
  | none => rfl
  | some v =>
    rw [hv] at hlookup
    cases v with
    | mapping entries =>
      cases hs' : Table.lookup? key s'.aliases with
      | none =>
        rw [hs'] at hlookup
        cases hlookup
      | some source =>
        rw [hs'] at hlookup
        cases hlookup
    | _ => rfl

/-- Updates of entries amount to the patches of both, one after the other. -/
theorem Patch.Reads.followedBy {a b : Table Value} (hp : p.Reads a) (hq : q.Reads b)
    (hb : (Table.keys b).Nodup) (henabled : p.enabled.all (!·.isMapping))
    (hwarns : p.warns.all (!·.isMapping))
    (haliases : ∀ key, (Table.lookup? key p.aliases).all (!·.isMapping)) :
    (p.followedBy q).Reads (updateTable a b) := by
  have hswitch : ∀ {key : String}, (Table.lookup? key a).all (!·.isMapping) →
      Table.lookup? key (updateTable a b) = (Table.lookup? key b).or (Table.lookup? key a) := by
    intro key h
    rw [lookup?_updateTable hb]
    cases Table.lookup? key b with
    | none => rfl
    | some item => rw [Option.map_some, update_of_not_isMapping h]
  refine ⟨?_, ?_, ?_, Table.nodup_keys_updated hp.distinct _⟩
  · rw [hswitch (hp.enabled ▸ henabled), Patch.followedBy, hp.enabled, hq.enabled]
  · rw [hswitch (hp.warns ▸ hwarns), Patch.followedBy, hp.warns, hq.warns]
  · rw [lookup?_updateTable hb, Patch.followedBy]
    rcases hq.aliases with hqa | ⟨hqa, hqnil⟩
    · refine .inl ?_
      rw [hqa]
      rcases hp.aliases with hpa | ⟨hpa, hpnil⟩
      · rw [hpa, Option.map_some, Option.some_or, update, updateAll_entriesOf,
          updateTable_eq_updated hq.distinct fun key _ => haliases key]
      · rw [hpa, hpnil, Table.nil_updated hq.distinct, Option.map_some, Option.some_or,
          update_of_not_isMapping rfl]
    · rw [hqa, hqnil]
      exact hp.aliases

theorem nodup_keys_aliasTable {stored aliases : Table String} {items : List (Value × Value)}
    (hs : (Table.keys stored).Nodup) (h : aliasTable stored items = .ok aliases) :
    (Table.keys aliases).Nodup := by
  induction items generalizing stored with
  | nil => exact Except.ok.inj h ▸ hs
  | cons p rest ih =>
    rw [aliasTable] at h
    split at h
    · cases h
    · split at h
      · exact ih (Table.nodup_keys_insert hs _ _) h
      · cases h

/-- Settings that are read have no alias twice. -/
theorem nodup_keys_of_ofEntries {data : List (Value × Value)} (h : ofEntries data = .ok s) :
    (Table.keys s.aliases).Nodup := by
  obtain ⟨aliases, haliases, h⟩ := ok_of_bind h
  obtain ⟨enabled, -, h⟩ := ok_of_bind h
  obtain ⟨warns, -, h⟩ := ok_of_bind h
  cases h
  rw [aliasesOf] at haliases
  split at haliases
  · cases haliases
    exact List.nodup_nil
  · cases haliases
    exact List.nodup_nil
  · exact @nodup_keys_aliasTable [] _ _ List.nodup_nil haliases
  · cases haliases

/-- Settings that could be overridden once are overridden again to the same settings, or with the
same fault, as if the second overrides had updated the first ones; and the same overrides change
nothing when they come again. -/
theorem merge_merge {data a b : List (Value × Value)} {s t : Settings}
    (hs : ofEntries data = .ok s) (ha : Overriding a) (hb : Overriding b)
    (h : s.merge a = .ok t) : t.merge b = s.merge (updateAll a b) ∧ t.merge a = .ok t := by
  obtain ⟨ta, hta, rfl⟩ := ha.named.exists_table
  obtain ⟨tb, htb, rfl⟩ := hb.named.exists_table
  obtain ⟨p, hp⟩ := Patch.exists_reads ha
  obtain ⟨q, hq⟩ := Patch.exists_reads hb
  have hdistinct := nodup_keys_of_ofEntries hs
  rw [merge_entriesOf hdistinct hp hta] at h
  have ht : (Table.keys t.aliases).Nodup := by
    rw [← keys_texts, ← (patched_eq_ok_iff.1 h).1]
    exact Table.nodup_keys_updated (by rwa [keys_texts]) _
  obtain ⟨henabled, hwarns, haliases⟩ := not_isMapping_of_patched hp.distinct h
  have hboth := hp.followedBy hq htb henabled hwarns haliases
  constructor
  · rw [updateAll_entriesOf, merge_entriesOf hdistinct hboth (nodup_keys_updateTable hta tb),
      merge_entriesOf ht hq htb, patched_followedBy hdistinct hp.distinct hq.distinct h]
  · rw [merge_entriesOf ht hp hta, patched_again hdistinct hp.distinct h]

/-- Settings with one alias. -/
def idSettings : Settings :=
  { standard with aliases := [("id", "int")] }

/-- Overrides with a switch, two aliases and an entry of no meaning. -/
def firstOverrides : List (Value × Value) :=
  entriesOf [("enabled", .bool false),
    ("aliases", .mapping (entriesOf [("key", .text "id | string"), ("id", .text "string")])),
    ("extra", .mapping [(.int 1, .null)])]

/-- Overrides with an alias that is in the first ones, a new one, and the entry of no meaning. -/
def secondOverrides : List (Value × Value) :=
  entriesOf [("extra", .mapping [(.int 1, .list []), (.int 2, .null)]),
    ("aliases", .mapping (entriesOf [("name", .text "string"), ("key", .text "id")]))]

theorem idSettings_merge_merge : ofEntries idSettings.toEntries = .ok idSettings
    ∧ Overriding firstOverrides ∧ Overriding secondOverrides
    ∧ ∃ t, idSettings.merge firstOverrides = .ok t
      ∧ t.merge secondOverrides = idSettings.merge (updateAll firstOverrides secondOverrides)
      ∧ t.merge firstOverrides = .ok t := by
  have hover : ∀ t items : Table Value, (Table.keys t).Nodup → (Table.keys items).Nodup →
      Table.lookup? "aliases" t = some (.mapping (entriesOf items)) →
      Overriding (entriesOf t) := by
    intro t items ht hitems h
    refine ⟨named_entriesOf ht, fun v hv => ?_⟩
    rw [lookup?_entriesOf, h] at hv
    exact ⟨_, (Option.some.inj hv).symm, named_entriesOf hitems⟩
  have hread : ofEntries idSettings.toEntries = .ok idSettings := rfl
  have hfirst : Overriding firstOverrides :=
    hover _ [("key", .text "id | string"), ("id", .text "string")] (by decide) (by decide) rfl
  have hsecond : Overriding secondOverrides :=
    hover _ [("name", .text "string"), ("key", .text "id")] (by decide) (by decide) rfl
  refine ⟨hread, hfirst, hsecond, _, rfl, merge_merge hread hfirst hsecond rfl⟩

end Settings

end StructuralTypes

import Mathlib.Data.List.Induction
import StructuralTypes.Proofs.Outcomes
import StructuralTypes.Proofs.Tables
import StructuralTypes.Settings.Assigned
import StructuralTypes.Yaml.Value

/-! What is gathered from assignments. One more assignment is refused just when its path goes on
behind that of a value, and otherwise makes the values below its path give way to its own. So
after any number of assignments the values are those of the assignments that stand, each at its
path, and no path of a value leads through another value. -/

namespace StructuralTypes.Override

open Outcome

variable {coerce : String → Except Fault Value} {members members' : Table Override}
  {name : String} {path q : List String} {v w : Value}

/-! ### Values of a tree -/

/-- A value is bound at a path below some members. -/
def Binds (members : Table Override) (path : List String) (v : Value) : Prop :=
  find? path members = some (.bound v)

@[simp] theorem not_binds_nil : ¬Binds members [] v := by
  simp [Binds, find?]

theorem binds_of_bound {u : Value} (h : Table.lookup? name members = some (.bound u)) :
    Binds members (name :: q) w ↔ q = [] ∧ w = u := by
  cases q <;> simp [Binds, find?, h, eq_comm]

/-- The members below a name, of which there are none where the name is new. -/
def Opens (members : Table Override) (name : String) (inner : Table Override) : Prop :=
  Table.lookup? name members = some (.group inner) ∨ Table.lookup? name members = none ∧ inner = []

theorem Opens.binds_iff {inner : Table Override} (h : Opens members name inner) :
    Binds members (name :: q) w ↔ Binds inner q w := by
  rcases h with h | ⟨h, rfl⟩
  · simp [Binds, find?, h]
  · cases q <;> simp [Binds, find?, h, Table.lookup?]

theorem bound_or_opens (members : Table Override) (name : String) :
    (∃ u, Table.lookup? name members = some (.bound u)) ∨ ∃ inner, Opens members name inner := by
  cases h : Table.lookup? name members with
  | none => exact .inr ⟨[], .inr ⟨h, rfl⟩⟩
  | some o =>
    cases o with
    | bound u => exact .inl ⟨u, rfl⟩
    | group inner => exact .inr ⟨inner, .inl h⟩

/-- Nothing is bound behind a value. -/
theorem Binds.eq_of_prefix (hv : Binds members path v) (hw : Binds members q w) (h : path <+: q) :
    path = q := by
  induction path generalizing members q with
  | nil => exact absurd hv not_binds_nil
  | cons name path ih =>
    cases q with
    | nil => exact absurd hw not_binds_nil
    | cons first q =>
      obtain ⟨rfl, htail⟩ := List.cons_prefix_cons.1 h
      obtain ⟨u, hu⟩ | ⟨inner, hinner⟩ := bound_or_opens members name
      · rw [((binds_of_bound hu).1 hv).1, ((binds_of_bound hu).1 hw).1]
      · rw [ih (hinner.binds_iff.1 hv) (hinner.binds_iff.1 hw) htail]

/-! ### One assignment -/

theorem assign_of_bound {u : Value} (h : Table.lookup? name members = some (.bound u))
    (hp : path ≠ []) : assign v (name :: path) members = none := by
  obtain ⟨next, path, rfl⟩ := List.exists_cons_of_ne_nil hp
  rw [assign, h]
  simp

theorem Opens.assign_eq {inner : Table Override} (h : Opens members name inner) (hp : path ≠ []) :
    assign v (name :: path) members
      = (assign v path inner).map fun inner => Table.insert name (.group inner) members := by
  obtain ⟨next, path, rfl⟩ := List.exists_cons_of_ne_nil hp
  rcases h with h | ⟨h, rfl⟩
  · rw [assign, h]
    simp
  · rw [assign, h]
    simp

/-- An assignment is refused just when its path goes on behind that of a value. -/
theorem assign_eq_none_iff :
    assign v path members = none ↔ ∃ q w, Binds members q w ∧ q <+: path ∧ q ≠ path := by
  induction path generalizing members with
  | nil =>
    refine iff_of_false (by simp [assign]) ?_
    rintro ⟨q, w, -, hq, hne⟩
    exact hne (List.prefix_nil.1 hq)
  | cons name path ih =>
    by_cases hp : path = []
    · subst hp
      refine iff_of_false (by simp [assign]) ?_
      rintro ⟨_ | ⟨first, q⟩, w, hw, hq, hne⟩
      · exact not_binds_nil hw
      · obtain ⟨rfl, htail⟩ := List.cons_prefix_cons.1 hq
        exact hne (by rw [List.prefix_nil.1 htail])
    · obtain ⟨u, hu⟩ | ⟨inner, hinner⟩ := bound_or_opens members name
      · refine iff_of_true (assign_of_bound hu hp)
          ⟨[name], u, (binds_of_bound hu).2 ⟨rfl, rfl⟩, ?_⟩
        simp [eq_comm, hp]
      · rw [hinner.assign_eq hp, Option.map_eq_none_iff, ih]
        constructor
        · rintro ⟨q, w, hw, hq, hne⟩
          exact ⟨name :: q, w, hinner.binds_iff.2 hw, by simpa using hq, by simpa using hne⟩
        · rintro ⟨_ | ⟨first, q⟩, w, hw, hq, hne⟩
          · exact absurd hw not_binds_nil
          · obtain ⟨rfl, htail⟩ := List.cons_prefix_cons.1 hq
            exact ⟨q, w, hinner.binds_iff.1 hw, htail, by simpa using hne⟩

/-- What is bound below one name stays when something is stored under another. -/
theorem binds_insert_of_ne {other : String} (h : other ≠ name) (o : Override) :
    Binds (Table.insert name o members) (other :: q) w ↔ Binds members (other :: q) w := by
  rw [Binds, Binds, find?, find?, Table.lookup?_insert_of_ne h]

/-- An assignment binds its value at its path, in place of all values there or behind. -/
theorem binds_assign (hp : path ≠ []) (h : assign v path members = some members') :
    Binds members' q w ↔ q = path ∧ w = v ∨ ¬path <+: q ∧ Binds members q w := by
  induction path generalizing members members' q with
  | nil => exact absurd rfl hp
  | cons name path ih =>
    cases q with
    | nil => simp
    | cons first q =>
      by_cases hpath : path = []
      · subst hpath
        obtain rfl : Table.insert name (.bound v) members = members' := Option.some.inj h
        by_cases hfirst : first = name
        · subst hfirst
          rw [binds_of_bound (Table.lookup?_insert_self _ _ _)]
          simp
        · rw [binds_insert_of_ne hfirst]
          simp [hfirst, Ne.symm hfirst]
      · obtain ⟨u, hu⟩ | ⟨inner, hinner⟩ := bound_or_opens members name
        · rw [assign_of_bound hu hpath] at h
          cases h
        · rw [hinner.assign_eq hpath] at h
          obtain ⟨inner', hinner', rfl⟩ := Option.map_eq_some_iff.1 h
          by_cases hfirst : first = name
          · subst hfirst
            have hopens : Opens (Table.insert first (.group inner') members) first inner' :=
              .inl (Table.lookup?_insert_self _ _ _)
            rw [hopens.binds_iff, ih hpath hinner', hinner.binds_iff]
            simp
          · rw [binds_insert_of_ne hfirst]
            simp [hfirst, Ne.symm hfirst]

/-! ### Many assignments -/

/-- An assignment as it is read, if anything is wrong with it but for the assignments before it. -/
theorem read_eq (source : String) : Item.read source =
    if '=' ∈ source.toList then
      if (Item.of source).names = [] then throw .emptyPath else return Item.of source
    else throw (.noAssignment source) := by
  rw [Item.read]
  cases h : Split.cut? '=' source.toList with
  | none => rw [if_neg (Split.cut?_eq_none_iff.1 h)]
  | some p =>
    obtain ⟨before, after⟩ := p
    obtain ⟨hsource, hbefore⟩ := Split.cut?_eq_some h
    have hne : ∀ c ∈ before, decide (c ≠ '=') = true := fun c hc =>
      decide_eq_true fun e => hbefore (e ▸ hc)
    have hof : Item.of source = .mk (String.ofList before) (pathNames before)
        (String.ofList after) := by
      rw [Item.of, hsource, List.takeWhile_append_of_pos hne, List.dropWhile_append_of_pos hne]
      simp
    rw [if_pos (by simp [hsource]), hof]
    simp only [List.isEmpty_iff]

/-- What is said of a part of some texts and a last one is said of the last of them, or of a part
of those before it. -/
theorem exists_split_concat {α : Type} {sources : List α} {last : α}
    {P : List α → α → List α → Prop} :
    (∃ before source after, sources ++ [last] = before ++ source :: after ∧ P before source after)
      ↔ P sources last []
        ∨ ∃ before source after, sources = before ++ source :: after
          ∧ P before source (after ++ [last]) := by
  constructor
  · rintro ⟨before, source, after, heq, h⟩
    obtain rfl | ⟨init, final, rfl⟩ := List.eq_nil_or_concat' after
    · obtain ⟨rfl, hlast⟩ := List.append_inj' heq rfl
      obtain rfl := List.singleton_inj.1 hlast
      exact .inl h
    · rw [← List.cons_append, ← List.append_assoc] at heq
      obtain ⟨rfl, hlast⟩ := List.append_inj' heq rfl
      obtain rfl := List.singleton_inj.1 hlast
      exact .inr ⟨before, source, init, rfl, h⟩
  · rintro (h | ⟨before, source, after, rfl, h⟩)
    · exact ⟨sources, last, [], rfl, h⟩
    · exact ⟨before, source, after ++ [last], by simp, h⟩

/-- One more assignment makes those before it give way at its path. -/
theorem standing_concat {sources : List String} {last : String} :
    Standing coerce (sources ++ [last]) q w
      ↔ (Item.of last).names = q ∧ coerce (Item.of last).text = .ok w
        ∨ ¬(Item.of last).names <+: q ∧ Standing coerce sources q w := by
  rw [Standing, exists_split_concat]
  constructor
  · rintro (⟨hq, hw, -⟩ | ⟨before, source, after, rfl, hq, hw, hafter⟩)
    · exact .inl ⟨hq, hw⟩
    · rw [List.forall_mem_append] at hafter
      exact .inr ⟨hafter.2 last (List.mem_singleton_self last), before, source, after, rfl, hq, hw,
        hafter.1⟩
  · rintro (⟨hq, hw⟩ | ⟨hlast, before, source, after, rfl, hq, hw, hafter⟩)
    · exact .inl ⟨hq, hw, by simp⟩
    · exact .inr ⟨before, source, after, rfl, hq, hw,
        List.forall_mem_append.2 ⟨hafter, by simpa using hlast⟩⟩

theorem gather_concat (sources : List String) (last : String) :
    gather coerce (sources ++ [last])
      = gather coerce sources >>= fun members => add coerce members last := by
  simp [gather, List.foldlM_append]

theorem Coercible.concat {sources : List String} {last : String}
    (h : Coercible coerce (sources ++ [last])) :
    Coercible coerce sources ∧ ∃ v, coerce (Item.of last).text = .ok v := by
  rw [Coercible, List.forall_mem_append] at h
  obtain ⟨v, hv, -⟩ := h.2 last (List.mem_singleton_self last)
  exact ⟨h.1, v, hv⟩

/-- One more assignment is made where nothing is wrong with it and no value is in its way. -/
theorem add_eq_ok_iff {source : String} (hv : coerce (Item.of source).text = .ok v) :
    add coerce members source = .ok members'
      ↔ '=' ∈ source.toList ∧ (Item.of source).names ≠ []
        ∧ assign v (Item.of source).names members = some members' := by
  rw [add, bind_eq_ok_iff, read_eq]
  constructor
  · rintro ⟨item, hitem, h⟩
    split at hitem
    · split at hitem
      · cases hitem
      · cases hitem
        obtain ⟨u, hu, h⟩ := ok_of_bind h
        cases hv.symm.trans hu
        refine ⟨‹_›, ‹_›, ?_⟩
        split at h
        · cases h
          assumption
        · cases h
    · cases hitem
  · rintro ⟨hsign, hpath, hassign⟩
    refine ⟨Item.of source, by rw [if_pos hsign, if_neg hpath]; rfl, ?_⟩
    rw [bind_of_ok hv, hassign]
    rfl

/-- The values of the tree that is gathered are those of the assignments that stand. -/
theorem binds_gather {sources : List String} (hc : Coercible coerce sources)
    (h : gather coerce sources = .ok members) :
    Binds members q w ↔ Standing coerce sources q w := by
  induction sources using List.reverseRecOn generalizing members with
  | nil =>
    cases h
    refine iff_of_false ?_ fun ⟨before, source, after, heq, _⟩ => ?_
    · cases q <;> simp [Binds, find?, Table.lookup?]
    · cases before <;> cases heq
  | append_singleton sources last ih =>
    obtain ⟨hinit, v, hv⟩ := hc.concat
    rw [gather_concat] at h
    obtain ⟨earlier, hearlier, h⟩ := ok_of_bind h
    obtain ⟨-, hpath, hassign⟩ := (add_eq_ok_iff hv).1 h
    rw [standing_concat, binds_assign hpath hassign, ih hinit hearlier, hv, Except.ok.injEq,
      eq_comm, @eq_comm _ v]

/-- After assignments that went through, the next one does unless something is wrong with it. -/
theorem add_fails_iff {sources : List String} {last : String}
    (hc : Coercible coerce (sources ++ [last])) (h : gather coerce sources = .ok members) :
    (∀ members', add coerce members last ≠ .ok members') ↔ Refused coerce sources last := by
  obtain ⟨hinit, v, hv⟩ := hc.concat
  simp only [ne_eq, add_eq_ok_iff hv]
  constructor
  · intro hfails
    by_cases hsign : '=' ∈ last.toList
    · by_cases hpath : (Item.of last).names = []
      · exact .emptyPath hpath
      · have hnone : assign v (Item.of last).names members = none :=
          Option.eq_none_iff_forall_ne_some.2 fun members' hassign =>
            hfails members' ⟨hsign, hpath, hassign⟩
        obtain ⟨q, w, hw, hq, hne⟩ := assign_eq_none_iff.1 hnone
        exact .conflict ((binds_gather hinit h).1 hw) hq hne
    · exact .noAssignment hsign
  · rintro hrefused members' ⟨hsign, hpath, hassign⟩
    cases hrefused with
    | noAssignment hno => exact hno hsign
    | emptyPath hempty => exact hpath hempty
    | conflict hw hq hne =>
      have hnone : assign v (Item.of last).names members = none :=
        assign_eq_none_iff.2 ⟨_, _, (binds_gather hinit h).2 hw, hq, hne⟩
      cases hnone.symm.trans hassign

/-- Gathering fails just when something is wrong with an assignment behind those before it. -/
theorem gather_fails_iff {sources : List String} (hc : Coercible coerce sources) :
    (∃ fault, gather coerce sources = .error fault)
      ↔ ∃ before source after, sources = before ++ source :: after
        ∧ Refused coerce before source := by
  induction sources using List.reverseRecOn with
  | nil =>
    refine iff_of_false (fun ⟨_, h⟩ => by cases h) fun ⟨before, source, after, heq, _⟩ => ?_
    cases before <;> cases heq
  | append_singleton sources last ih =>
    rw [exists_split_concat, ← ih hc.concat.1, gather_concat]
    cases h : gather coerce sources with
    | error fault => simp [bind, Except.bind]
    | ok members =>
      rw [← add_fails_iff hc h]
      change (∃ fault, add coerce members last = .error fault) ↔ _
      cases add coerce members last <;> simp

/-! ### Distinct names -/

/-- No name stands twice in a group, at any depth. -/
inductive Distinct : Override → Prop
  | bound (v : Value) : Distinct (.bound v)
  | group {members : Table Override} (hkeys : (Table.keys members).Nodup)
    (h : ∀ p ∈ members, Distinct p.2) : Distinct (.group members)

theorem Distinct.insert {o : Override} (h : Distinct (.group members)) (ho : Distinct o) :
    Distinct (.group (Table.insert name o members)) := by
  obtain _ | ⟨hkeys, hall⟩ := h
  refine .group (Table.nodup_keys_insert hkeys _ _) fun p hp => ?_
  obtain rfl | hp := Table.mem_insert hp
  · exact ho
  · exact hall p hp

theorem distinct_nil : Distinct (.group []) :=
  .group List.nodup_nil fun _ hp => absurd hp List.not_mem_nil

theorem Opens.distinct {inner : Table Override} (h : Opens members name inner)
    (hd : Distinct (.group members)) : Distinct (.group inner) := by
  obtain _ | ⟨-, hall⟩ := hd
  rcases h with h | ⟨-, rfl⟩
  · exact hall _ (Table.mem_of_lookup? h)
  · exact distinct_nil

theorem distinct_assign (hd : Distinct (.group members))
    (h : assign v path members = some members') : Distinct (.group members') := by
  induction path generalizing members members' with
  | nil => exact Option.some.inj h ▸ hd
  | cons name path ih =>
    by_cases hp : path = []
    · subst hp
      exact Option.some.inj h ▸ hd.insert (.bound v)
    · obtain ⟨u, hu⟩ | ⟨inner, hinner⟩ := bound_or_opens members name
      · rw [assign_of_bound hu hp] at h
        cases h
      · rw [hinner.assign_eq hp] at h
        obtain ⟨inner', hinner', rfl⟩ := Option.map_eq_some_iff.1 h
        exact hd.insert (ih (hinner.distinct hd) hinner')

theorem distinct_gather {sources : List String} (hc : Coercible coerce sources)
    (h : gather coerce sources = .ok members) : Distinct (.group members) := by
  induction sources using List.reverseRecOn generalizing members with
  | nil =>
    cases h
    exact distinct_nil
  | append_singleton sources last ih =>
    obtain ⟨hinit, v, hv⟩ := hc.concat
    rw [gather_concat] at h
    obtain ⟨earlier, hearlier, h⟩ := ok_of_bind h
    exact distinct_assign (ih hinit hearlier) ((add_eq_ok_iff hv).1 h).2.2

/-! ### The tree as a value -/

theorem lookup?_toEntries (name : String) (members : Table Override) :
    Value.lookup? (.text name) (toEntries members)
      = (Table.lookup? name members).map toValue := by
  induction members with
  | nil => rfl
  | cons p rest ih =>
    obtain ⟨other, o⟩ := p
    rw [toEntries, Value.lookup?, Table.lookup?]
    by_cases h : other = name
    · simp [h, Value.sameKey]
    · rw [List.find?_cons_of_neg (by simpa [Value.sameKey] using h), if_neg h]
      exact ih

theorem at?_of_binds (h : Binds members path v) :
    Value.at? path (.mapping (toEntries members)) = some v := by
  induction path generalizing members with
  | nil => exact absurd h not_binds_nil
  | cons name path ih =>
    rw [Value.at?, lookup?_toEntries]
    cases hl : Table.lookup? name members with
    | none =>
      rw [Binds, find?, hl] at h
      cases h
    | some o =>
      cases o with
      | bound u =>
        obtain ⟨rfl, rfl⟩ := (binds_of_bound hl).1 h
        simp [toValue, Value.at?]
      | group inner =>
        have hopens : Opens members name inner := .inl hl
        simpa [toValue] using ih (hopens.binds_iff.1 h)

theorem exists_mem_of_mem_toEntries {key item : Value} (h : (key, item) ∈ toEntries members) :
    ∃ p ∈ members, key = .text p.1 ∧ item = toValue p.2 := by
  induction members with
  | nil => cases h
  | cons p rest ih =>
    obtain ⟨name, o⟩ := p
    rw [toEntries] at h
    obtain h | h := List.mem_cons.1 h
    · cases h
      exact ⟨(name, o), List.mem_cons_self, rfl, rfl⟩
    · obtain ⟨p, hp, heq⟩ := ih h
      exact ⟨p, List.mem_cons_of_mem _ hp, heq⟩

/-- Every scalar in the mapping that a tree comes to is bound in the tree. -/
theorem exists_binds_of_contains {keys : List Value} (hd : Distinct (.group members))
    (hs : ∀ path u, Binds members path u → u.isScalar = true) (hv : v.isScalar = true)
    (h : Value.Contains (.mapping (toEntries members)) keys v) :
    ∃ path, keys = path.map .text ∧ Binds members path v := by
  generalize hvalue : Value.mapping (toEntries members) = value at h
  induction h generalizing members with
  | here v =>
    rw [← hvalue] at hv
    cases hv
  | @under entries key item v keys hm h ih =>
    cases hvalue
    obtain _ | ⟨hkeys, hall⟩ := hd
    obtain ⟨⟨name, o⟩, hp, rfl, rfl⟩ := exists_mem_of_mem_toEntries hm
    have hlookup := Table.lookup?_of_mem hkeys hp
    cases o with
    | bound u =>
      have hu := hs [name] u ((binds_of_bound hlookup).2 ⟨rfl, rfl⟩)
      rw [toValue] at h
      cases h with
      | here => exact ⟨[name], rfl, (binds_of_bound hlookup).2 ⟨rfl, rfl⟩⟩
      | under => cases hu
    | group inner =>
      have hopens : Opens members name inner := .inl hlookup
      obtain ⟨path, rfl, hpath⟩ := ih (hall _ hp)
        (fun path u hu => hs (name :: path) u (hopens.binds_iff.2 hu)) hv rfl
      exact ⟨name :: path, rfl, hopens.binds_iff.2 hpath⟩

/-- Gathering assignments whose texts can be coerced fails just when one of them has no sign of
equality, has no path, or has a path that goes on behind that of a value that stands among the
assignments before it. Otherwise looking up the path of an assignment that stands gives its value,
there are no other scalars in what is gathered, and the path of none leads to another. -/
theorem gather_keeps_standing (coerce : String → Except Fault Value) (sources : List String)
    (hc : Coercible coerce sources) :
    ((∃ fault, gather coerce sources = .error fault)
        ↔ ∃ before source after, sources = before ++ source :: after
          ∧ Refused coerce before source)
      ∧ ∀ members, gather coerce sources = .ok members →
        (∀ path v, Standing coerce sources path v →
          Value.at? path (.mapping (toEntries members)) = some v)
        ∧ (∀ keys v, Value.Contains (.mapping (toEntries members)) keys v → v.isScalar = true →
          ∃ path, keys = path.map .text ∧ Standing coerce sources path v)
        ∧ ∀ keys keys' v w, Value.Contains (.mapping (toEntries members)) keys v →
          Value.Contains (.mapping (toEntries members)) keys' w →
          v.isScalar = true → w.isScalar = true → keys <+: keys' → keys = keys' := by
  refine ⟨gather_fails_iff hc, fun members h => ?_⟩
  have hscalar : ∀ path u, Binds members path u → u.isScalar = true := by
    intro path u hu
    obtain ⟨before, source, after, rfl, -, hsource, -⟩ := (binds_gather hc h).1 hu
    obtain ⟨v, hv, hscalar⟩ := hc source (by simp)
    cases hv.symm.trans hsource
    exact hscalar
  have hbinds : ∀ keys v, Value.Contains (.mapping (toEntries members)) keys v →
      v.isScalar = true → ∃ path, keys = path.map .text ∧ Binds members path v :=
    fun keys v hv hs => exists_binds_of_contains (distinct_gather hc h) hscalar hs hv
  refine ⟨fun path v hv => at?_of_binds ((binds_gather hc h).2 hv), fun keys v hv hs => ?_, ?_⟩
  · obtain ⟨path, rfl, hpath⟩ := hbinds keys v hv hs
    exact ⟨path, rfl, (binds_gather hc h).1 hpath⟩
  · intro keys keys' v w hv hw hvs hws hprefix
    obtain ⟨path, rfl, hpath⟩ := hbinds keys v hv hvs
    obtain ⟨path', rfl, hpath'⟩ := hbinds keys' w hw hws
    have htexts : Function.Injective Value.text := fun _ _ => Value.text.inj
    rw [hpath.eq_of_prefix hpath' ((List.prefix_map_iff_of_injective htexts).1 hprefix)]

/-- Two assignments that stand, and two that gave way. -/
def sampleOverrides : List String :=
  ["aliases.id=int", "enabled.a..b=1.5", ".enabled=false", "aliases.id=int[]"]

theorem sampleOverrides_keep_standing : Coercible (scalar Yaml.loader) sampleOverrides
    ∧ ∃ members, gather (scalar Yaml.loader) sampleOverrides = .ok members
      ∧ Value.at? ["aliases", "id"] (.mapping (toEntries members)) = some (.text "int[]")
      ∧ ∀ keys v, Value.Contains (.mapping (toEntries members)) keys v → v.isScalar = true →
        ∃ path, keys = path.map .text ∧ Standing (scalar Yaml.loader) sampleOverrides path v := by
  have hc : Coercible (scalar Yaml.loader) sampleOverrides := by
    have hall : ∀ source ∈ sampleOverrides,
        (scalar Yaml.loader (Item.of source).text).toOption.any Value.isScalar = true := by
      decide +kernel
    intro source hs
    obtain ⟨v, hv, hscalar⟩ := (Option.any_eq_true _ _).1 (hall source hs)
    exact ⟨v, ok_of_toOption hv, hscalar⟩
  have hrun : (gather (scalar Yaml.loader) sampleOverrides).toOption.isSome = true := by
    decide +kernel
  obtain ⟨members, hmembers⟩ := Option.isSome_iff_exists.1 hrun
  obtain ⟨hat, hscalars, -⟩ := (gather_keeps_standing (scalar Yaml.loader) sampleOverrides hc).2
    members (ok_of_toOption hmembers)
  refine ⟨hc, members, ok_of_toOption hmembers, hat _ _ ?_, hscalars⟩
  have hnames : (Item.of "aliases.id=int[]").names = ["aliases", "id"] := by decide +kernel
  exact ⟨sampleOverrides.take 3, "aliases.id=int[]", [], rfl, hnames, rfl, by simp⟩

end StructuralTypes.Override

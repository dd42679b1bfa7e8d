import StructuralTypes.Proofs.Resolving
import StructuralTypes.Settings.Checking

/-! Look-ups in the registry of settings. Whatever was looked up before, a name is resolved
to what it expands to, and its faults are those of a fresh registry. -/

namespace StructuralTypes.Registry

open Node Outcome

variable {aliases : Table String} {r r' : Registry}

/-! ### Histories -/

/-- Whether an operation only looks names up. -/
def Action.isLookup : Action → Bool
  | resolve _ | compile _ | knows _ => true
  | register .. | postpone .. => false

/-- Looking names up keeps a registry consistent, whether it succeeds or not. -/
theorem Consistent.after (ha : Admissible aliases) (h : Consistent aliases [] r) {a : Action}
    (hlookup : a.isLookup = true) : Consistent aliases [] (r.after a) := by
  have hkeep : ∀ x : RegistryM Entry, Consistent aliases [] (x.run r).2 →
      Consistent aliases [] ((x >>= fun e => return some e : RegistryM (Option Entry)).run r).2 := by
    intro x hx
    rw [run_bind]
    rcases hrun : x.run r with ⟨f | e, r'⟩
    · rw [hrun] at hx
      exact hx
    · rw [hrun] at hx
      exact hx
  cases a with
  | resolve name =>
    exact hkeep _ (realizes_resolve ha name r h r.length_le_levels).1.consistent
  | compile source =>
    have hcompile := realizes_compileWith
      (fun name => realizes_resolveWithin ha r.levels [] name) ha source r h
      r.length_le_levels
    exact hkeep _ hcompile.1.consistent
  | knows name =>
    rw [after_knows]
    exact h
  | register name d => cases hlookup
  | postpone name recipe => cases hlookup

theorem Consistent.afterAll (ha : Admissible aliases) (h : Consistent aliases [] r)
    {actions : List Action} (hlookup : ∀ a ∈ actions, a.isLookup = true) :
    Consistent aliases [] (r.afterAll actions) := by
  induction actions generalizing r with
  | nil => exact h
  | cons a rest ih =>
    rw [afterAll_cons]
    exact ih (h.after ha (hlookup a List.mem_cons_self))
      fun b hb => hlookup b (List.mem_cons_of_mem _ hb)

theorem consistent_empty (warns : Bool) : Consistent [] [] (empty warns) where
  absent _ _ := ⟨rfl, rfl⟩
  waiting _ _ h := by cases h
  built _ _ h := by cases h
  compiled _ _ h := by cases h

theorem admissible_nil : Admissible [] where
  distinct := List.nodup_nil
  named _ h := by cases h
  unreserved _ h := by cases h

/-- On a registry without names, compiling needs no alias. -/
theorem run_compileNode_empty (n : Node) :
    ((compileNode resolve n).run (empty false)).1.map Entry.validator = plainValidator n := by
  have hcompute : Realizes [] [] 0 Entry.validator (compileNode resolve n) fun t =>
      n.compile (meaning t) :=
    realizes_compileNode (fun name => realizes_resolve admissible_nil name) admissible_nil n
  have hrun := hcompute _ (consistent_empty false) le_rfl
  have hmeaning : meaning [] = builtinValidator := funext fun name => meaning_of_lookup?_none rfl
  rw [hrun.2.map_eq (admissible_nil.steady_compile n), plainValidator, hmeaning]

/-- Resolving a name ends like expanding it: with the validator that the expansion compiles
to on a registry without names, or with the fault of the expansion, which is also that of
a fresh registry. -/
def MeansExpansion (aliases : Table String) (fresh r : Registry) (name : String) : Prop :=
  (∃ node e e', expandName aliases name = .ok node ∧ ((resolve name).run r).1 = .ok e
      ∧ ((compileNode resolve node).run (.empty false)).1 = .ok e' ∧ e.validator = e'.validator)
    ∨ ∃ f, expandName aliases name = .error (.type f)
      ∧ ((resolve name).run r).1 = .error (.type f)
      ∧ ((resolve name).run fresh).1 = .error (.type f)

/-- In consistent registries a name means its expansion, unless that leads to a whole number
with too many digits to be read. -/
theorem meansExpansion_iff {aliases : Table String} (ha : Admissible aliases)
    {fresh r : Registry} (hfresh : Consistent aliases [] fresh) (hr : Consistent aliases [] r)
    (name : String) : MeansExpansion aliases fresh r name
      ↔ ∀ e, expandName aliases name ≠ .error (.overlong e) := by
  constructor
  · rintro (⟨node, -, -, hn, -⟩ | ⟨f, hf, -⟩) e he
    · rw [hn] at he
      cases he
    · rw [hf] at he
      cases he
  · intro hreadable
    have hmeans : ∀ q, Consistent aliases [] q →
        ((resolve name).run q).1.map Entry.validator = meaning aliases name :=
      fun q hq => hq.resolveWithin_eq ha le_rfl name
    cases hx : expandName aliases name with
    | ok node =>
      obtain ⟨v, hv⟩ := (follows_expandName aliases name).ok_of hx
      have hmeaning : meaning aliases name = .ok v := (bind_of_ok hx _).trans hv
      obtain ⟨e, he, rfl⟩ := ok_of_map ((hmeans r hr).trans hmeaning)
      obtain ⟨e', he', hsame⟩ := ok_of_map ((run_compileNode_empty node).trans hv)
      exact .inl ⟨node, e, e', hx, he, he', hsame.symm⟩
    | error fault =>
      have hmeaning : meaning aliases name = .error fault := bind_of_error hx _
      obtain ⟨f, rfl⟩ | ⟨o, rfl⟩ := meaning_fault hmeaning
      · exact .inr ⟨f, hx, error_of_map ((hmeans r hr).trans hmeaning),
          error_of_map ((hmeans fresh hfresh).trans hmeaning)⟩
      · exact absurd hx (hreadable o)

/-! ### Registries of settings -/

/-- Making aliases pending one after another. -/
theorem run_postponeAll (listed : Table String)
    (hnames : ∀ p ∈ listed, checkName (.text p.1) = .ok p.1) (hd : (Table.keys listed).Nodup)
    (r : Registry) (hbuilt : r.built = []) :
    ∃ r', (listed.forM fun p => postpone (.text p.1) (.define (.text p.2)) : RegistryM Unit).run r
        = (.ok (), r')
      ∧ r'.built = [] ∧ r'.compiled = r.compiled
      ∧ ∀ name, Table.lookup? name r'.pending
        = ((Table.lookup? name listed).map fun source => .define (.text source)).or
          (Table.lookup? name r.pending) := by
  induction listed generalizing r with
  | nil => exact ⟨r, rfl, hbuilt, rfl, fun _ => rfl⟩
  | cons p rest ih =>
    obtain ⟨name, source⟩ := p
    rw [Table.keys, List.map_cons, List.nodup_cons] at hd
    have hpostpone : (postpone (.text name) (.define (.text source))).run r
        = (.ok (), r.defer name (.define (.text source))) := by
      rw [run_postpone, hnames _ List.mem_cons_self]
    obtain ⟨r', hrun, hbuilt', hcompiled, hpending⟩ := ih
      (fun q hq => hnames q (List.mem_cons_of_mem _ hq)) hd.2 (r.defer name (.define (.text source)))
      (by rw [defer, hbuilt]; rfl)
    refine ⟨r', ?_, hbuilt', hcompiled, ?_⟩
    · show (postpone (.text name) (.define (.text source)) >>= fun _ =>
        (rest.forM fun p => postpone (.text p.1) (.define (.text p.2)))).run r = _
      rw [run_bind, hpostpone]
      exact hrun
    · intro other
      rw [hpending other, Table.lookup?, defer]
      dsimp only
      by_cases hn : name = other
      · -- the name is listed once, so nothing later stands in its place
        have hnone : Table.lookup? name rest = none := Table.lookup?_eq_none_iff.2 hd.1
        rw [if_pos hn, ← hn, hnone, Table.lookup?_insert_self]
        rfl
      · rw [if_neg hn, Table.lookup?_insert_of_ne (Ne.symm hn)]

end StructuralTypes.Registry

namespace StructuralTypes.Settings

open Registry Node

/-- Settings with admissible aliases have a registry in which all of them wait. -/
theorem registry_eq (s : Settings) (ha : Admissible s.aliases) :
    ∃ r, s.registry = .ok r ∧ Consistent s.aliases [] r := by
  have hnames : ∀ p ∈ s.aliases, checkName (.text p.1) = .ok p.1 := fun p hp =>
    ha.checkName_eq (Table.lookup?_of_mem ha.distinct hp)
  obtain ⟨r, hrun, hbuilt, hcompiled, hpending⟩ :=
    run_postponeAll s.aliases hnames ha.distinct (.empty s.warns) rfl
  refine ⟨r, ?_, ?_⟩
  · unfold registry
    dsimp only
    rw [hrun]
    rfl
  · constructor
    · intro name hn
      have hl := hn.resolve_left List.not_mem_nil
      rw [hbuilt, hpending, hl]
      exact ⟨rfl, rfl⟩
    · intro name source hl _ _
      rw [hpending, hl]
      rfl
    · intro name e he
      rw [hbuilt] at he
      cases he
    · intro source e he
      rw [hcompiled] at he
      cases he

/-- Whatever was looked up before, and in whatever order the aliases are listed, a name is
resolved, with more levels just as with those at hand, and to what it expands to: exactly
so unless it leads to a whole number with too many digits to be read. -/
theorem resolve_means_expansion_iff (s : Settings) {aliases : Table String}
    (ha : Admissible aliases) (hlisted : s.aliases.Perm aliases) {actions : List Action}
    (hlookup : ∀ a ∈ actions, a.isLookup = true) (name : String) :
    ∃ fresh, s.registry = .ok fresh
      ∧ (∀ depth, (fresh.afterAll actions).levels ≤ depth →
        ((resolveWithin depth name).run (fresh.afterAll actions)).1.map Entry.validator
          = ((resolve name).run (fresh.afterAll actions)).1.map Entry.validator)
      ∧ (MeansExpansion aliases fresh (fresh.afterAll actions) name
        ↔ ∀ e, expandName aliases name ≠ .error (.overlong e)) := by
  have ha' : Admissible s.aliases := ha.perm hlisted.symm
  obtain ⟨fresh, hregistry, hfresh⟩ := s.registry_eq ha'
  have hr := hfresh.afterAll ha' hlookup
  have hexpand : expandName s.aliases = expandName aliases :=
    expandName_congr (Table.lookup?_perm ha'.distinct hlisted)
  refine ⟨fresh, hregistry, fun depth hd => ?_, ?_⟩
  · rw [hr.resolveWithin_eq ha' hd, ← hr.resolveWithin_eq ha' le_rfl]
    rfl
  · unfold MeansExpansion
    rw [← hexpand]
    exact meansExpansion_iff ha' hfresh hr name

/-- An alias that refers to itself and two that share one. -/
def sampleAliases : Table String :=
  [("Tree", "{left: ?Tree}"), ("Pair", "[Id, Id]"), ("Link", "Pair | Id"), ("Id", "int | string")]

theorem admissible_sampleAliases : Admissible sampleAliases where
  distinct := by decide
  named := by decide
  unreserved := by
    intro name hname
    simp only [sampleAliases, Table.keys, List.map_cons, List.map_nil, List.mem_cons,
      List.not_mem_nil, or_false] at hname
    rcases hname with rfl | rfl | rfl | rfl <;> rfl

/-- Settings that list the aliases backwards, after look-ups some of which fail. -/
theorem resolve_sample_means_expansion_iff :
    ∃ fresh, registry { standard with aliases := sampleAliases.reverse } = .ok fresh
      ∧ (∀ depth, (fresh.afterAll [.resolve "Tree", .compile "Pair | Tree", .knows "Link"]).levels
          ≤ depth →
        ((resolveWithin depth "Link").run
            (fresh.afterAll [.resolve "Tree", .compile "Pair | Tree", .knows "Link"])).1.map
              Entry.validator
          = ((resolve "Link").run
            (fresh.afterAll [.resolve "Tree", .compile "Pair | Tree", .knows "Link"])).1.map
              Entry.validator)
      ∧ (MeansExpansion sampleAliases fresh
          (fresh.afterAll [.resolve "Tree", .compile "Pair | Tree", .knows "Link"]) "Link"
        ↔ ∀ e, expandName sampleAliases "Link" ≠ .error (.overlong e)) :=
  resolve_means_expansion_iff { standard with aliases := sampleAliases.reverse }
    admissible_sampleAliases (List.reverse_perm sampleAliases) (by decide) "Link"

/-! ### Names with too many digits -/

/-- A whole number of one digit more than can be read. -/
def overlongName : String :=
  String.ofList (List.replicate (Overlong.limit + 1) '1')

theorem wholeDigits?_ones (count : Nat) :
    NumberText.wholeDigits? (List.replicate (count + 1) '1')
      = some (List.replicate (count + 1) '1') := by
  have hline : NumberText.dropLineEnd (List.replicate (count + 1) '1')
      = List.replicate (count + 1) '1' := by
    rw [NumberText.dropLineEnd, List.getLast?_replicate, if_neg (by simp)]
  have hspan : NumberText.spanDigits (List.replicate (count + 1) '1')
      = (List.replicate (count + 1) '1', []) := by
    have hone : CharClass.isDigit '1' = true := by decide
    simp [NumberText.spanDigits, hone]
  rw [NumberText.wholeDigits?, hline, hspan, List.replicate_succ]

/-- A whole number with too many digits is no keyword and is not read as a literal. -/
theorem ofName_ones {count : Nat} (h : Overlong.limit ≤ count) :
    Predicate.ofName (String.ofList (List.replicate (count + 1) '1'))
      = .error (.read (count + 1)) := by
  have hkeyword : Keyword.ofName? (String.ofList (List.replicate (count + 1) '1')) = none := by
    rw [Keyword.ofName?, List.find?_eq_none]
    intro k _ hk
    have hshort : k.name.length ≤ 11 := by cases k <;> decide
    rw [beq_iff_eq.1 hk, String.length_ofList, List.length_replicate] at hshort
    have : 11 ≤ Overlong.limit := by decide
    omega
  have hquoted : Escapes.quoted? (List.replicate (count + 1) '1') = none := rfl
  have hcheck : Overlong.check (count + 1) = .error (.read (count + 1)) :=
    if_pos (Nat.lt_succ_of_le h)
  rw [Predicate.ofName, hkeyword, Literal.ofName, String.toList_ofList, hquoted,
    wholeDigits?_ones]
  dsimp only
  rw [List.length_replicate, hcheck]
  rfl

/-- A literal that expands to itself is not resolved but ends in a fault of another kind. -/
theorem overlongName_not_meansExpansion :
    (NumberText.wholeDigits? overlongName.toList).isSome = true ∧ Admissible standard.aliases
      ∧ ∃ fresh, standard.registry = .ok fresh
        ∧ ((resolve overlongName).run fresh).1 = .error (.overlong (.read (Overlong.limit + 1)))
        ∧ ¬ MeansExpansion standard.aliases fresh fresh overlongName := by
  have hname : Predicate.ofName overlongName = .error (.read (Overlong.limit + 1)) :=
    ofName_ones le_rfl
  have hexpand : expandName [] overlongName = .error (.overlong (.read (Overlong.limit + 1))) := by
    rw [expandName_of_lookup?_none rfl, builtinLeaf, hname]
    rfl
  have hmeaning : meaning [] overlongName = .error (.overlong (.read (Overlong.limit + 1))) := by
    rw [meaning_of_lookup?_none rfl, builtinValidator, hname]
  obtain ⟨fresh, hregistry, hfresh⟩ := standard.registry_eq admissible_nil
  refine ⟨?_, admissible_nil, fresh, hregistry, ?_, ?_⟩
  · rw [overlongName, String.toList_ofList, wholeDigits?_ones]
    rfl
  · exact Outcome.error_of_map
      ((hfresh.resolveWithin_eq admissible_nil le_rfl overlongName).trans hmeaning)
  · intro h
    exact (meansExpansion_iff admissible_nil hfresh hfresh overlongName).1 h _ hexpand

end StructuralTypes.Settings

import StructuralTypes.CommandLine.Promise
import StructuralTypes.Proofs.Answering
import StructuralTypes.Proofs.Courses
import StructuralTypes.Proofs.EntryPoints

/-! Registries whose names wait for annotations, as those of settings do, whatever the names
are. What they are asked for they compile from keywords and literals, so that refusals are
told; or it has a fault in a type or a number of too many digits, which is reported. Only a
table of names can have a fault of another kind, an empty name in it. -/

namespace StructuralTypes

open Outcome

/-- A fault in a type or a number of too many digits. -/
def Fault.IsReported : Fault → Prop
  | .type _ | .overlong _ => True
  | _ => False

namespace Registry

open Node

variable {α β : Type} {r : Registry} {name source : String} {depth : Nat}
  {resolve : String → RegistryM Entry}

/-- A stored validator whose refusals are told. -/
abbrev Tells (e : Entry) : Prop :=
  e.validator.guarded.Renders

/-- A registry whose validators tell their refusals and whose names wait for annotations. -/
structure OfTexts (r : Registry) : Prop where
  built : ∀ name e, Table.lookup? name r.built = some e → Tells e
  compiled : ∀ source e, Table.lookup? source r.compiled = some e → Tells e
  pending : ∀ name recipe, Table.lookup? name r.pending = some recipe →
    checkName (.text name) = .ok name ∧ ∃ source, recipe = .define (.text source)

theorem ofTexts_empty (warns : Bool) : OfTexts (empty warns) where
  built := nofun
  compiled := nofun
  pending := nofun

/-- With no more names waiting than may be built one inside another. -/
structure OfFewTexts (depth : Nat) (r : Registry) : Prop extends OfTexts r where
  few : r.pending.length ≤ depth

/-- A computation that keeps a registry of texts one and ends in a good result or in a fault
that is reported. -/
def Keeps (depth : Nat) (good : α → Prop) (x : RegistryM α) : Prop :=
  ∀ r, OfFewTexts depth r →
    OfFewTexts depth (x.run r).2 ∧ Ends Fault.IsReported good (x.run r).1

theorem keeps_pure {good : α → Prop} {a : α} (h : good a) : Keeps depth good (pure a) :=
  fun _ hr => ⟨hr, h⟩

theorem keeps_throw {good : α → Prop} {f : Fault} (h : f.IsReported) :
    Keeps depth good (throw f : RegistryM α) :=
  fun _ hr => ⟨hr, h⟩

theorem Keeps.bind {good : α → Prop} {good' : β → Prop} {x : RegistryM α} {f : α → RegistryM β}
    (hx : Keeps depth good x) (hf : ∀ a, good a → Keeps depth good' (f a)) :
    Keeps depth good' (x >>= f) := by
  intro r hr
  obtain ⟨hm, hends⟩ := hx r hr
  rw [run_bind]
  rcases hrun : x.run r with ⟨e | a, m⟩ <;> rw [hrun] at hm hends
  · exact ⟨hm, hends⟩
  · exact hf a hends m hm

/-! ### Compiling -/

theorem keeps_adopt {v : Validator} (h : v.guarded.Renders) : Keeps depth Tells (adopt v) := by
  intro r hr
  obtain ⟨e, rfl, hrun | hrun⟩ := run_adopt v r
  · rw [hrun]
    exact ⟨hr, h⟩
  · rw [hrun]
    exact ⟨⟨⟨hr.built, hr.compiled, hr.pending⟩, hr.few⟩, h⟩

theorem keeps_read (source : String) : Keeps depth (fun _ => True) (Registry.read source) := by
  intro r hr
  obtain ⟨journal, hrun⟩ := run_read source r
  rw [hrun]
  refine ⟨⟨⟨hr.built, hr.compiled, hr.pending⟩, hr.few⟩, ?_⟩
  obtain ⟨n, hn, -⟩ | ⟨f, hf⟩ := parse?_spec source
  · rw [hn]
    trivial
  · rw [hf]
    trivial

theorem keeps_resolveBuiltin (name : String) : Keeps depth Tells (resolveBuiltin name) := by
  unfold resolveBuiltin
  cases hname : Predicate.ofName name with
  | error e => exact keeps_throw trivial
  | ok found =>
    cases found with
    | none => exact keeps_throw trivial
    | some p =>
      have hbuiltin : builtinValidator name = .ok (.predicate p) := by rw [builtinValidator, hname]
      exact keeps_adopt (renders_builtin hbuiltin)

/-- The same computation on registries of texts, faults reported. -/
def SameOnTexts (depth : Nat) (x y : RegistryM α) : Prop :=
  Keeps depth (fun _ => True) x ∧ ∀ r, OfFewTexts depth r → x.run r = y.run r

theorem simulation_sameOnTexts :
    Simulation fun α (x : RegistryM α) (y : Unit → RegistryM α) => SameOnTexts depth x (y ()) where
  pure a := ⟨keeps_pure trivial, fun _ _ => rfl⟩
  throw _ := ⟨keeps_throw trivial, fun _ _ => rfl⟩
  bind {α β x y f g} hx hf := by
    refine ⟨hx.1.bind fun a _ => (hf a).1, fun r hr => ?_⟩
    have hm := (hx.1 r hr).1
    rw [run_bind, run_bind, ← hx.2 r hr]
    rcases hrun : x.run r with ⟨e | a, m⟩ <;> rw [hrun] at hm
    · rfl
    · exact (hf a).2 m hm

open Classical in
/-- Resolves a name and stops where refusals by its validator are not told. -/
noncomputable def certified (resolve : String → RegistryM Entry) (name : String) :
    RegistryM Validator := do
  let e ← resolve name
  if Tells e then return e.validator else throw (.ofCause .emptyTree)

section Compiling

variable (hresolve : ∀ name, Keeps depth Tells (resolve name))

include hresolve

theorem sameOnTexts_certified (name : String) :
    SameOnTexts depth (do return (← resolve name).validator) (certified resolve name) := by
  refine ⟨(hresolve name).bind fun _ _ => keeps_pure trivial, fun r hr => ?_⟩
  obtain ⟨-, hends⟩ := hresolve name r hr
  unfold certified
  rw [run_bind, run_bind]
  rcases hrun : (resolve name).run r with ⟨f | e, m⟩ <;> rw [hrun] at hends
  · rfl
  · have htells : Tells e := hends
    rw [proceed, proceed, if_pos htells]

/-- The validator of a type is made of those of its names, so its refusals are told. -/
theorem keeps_compile (n : Node) : Keeps depth (fun w : Validator => w.guarded.Renders)
    (n.compile fun name => return (← resolve name).validator) := by
  intro r hr
  have hsame := simulation_sameOnTexts.compile_of_leafNames
    (fun name => return (← resolve name).validator) (fun _ => certified resolve) n
    fun name _ => sameOnTexts_certified hresolve name
  obtain ⟨hm, hends⟩ := hsame.1 r hr
  have hrun := hsame.2 r hr
  refine ⟨hm, ?_⟩
  revert hends hrun
  rcases (n.compile fun name => return (← resolve name).validator : RegistryM Validator).run r
    with ⟨f | w, m⟩ <;> intro hends hrun
  · exact hends
  · have hname : ∀ {name : String} {w : Validator}, Gives (certified resolve name) w →
        GuardedRenders w (.leaf name) := by
      intro name w hgives
      obtain ⟨e, -, q, q', hq⟩ := resulting_gives.of_bind hgives
      by_cases htells : Tells e
      · rw [if_pos htells] at hq
        cases hq
        exact htells
      · rw [if_neg htells] at hq
        cases hq
    exact resulting_gives.induction hname Assembled.renders ⟨r, m, hrun.symm⟩

theorem keeps_compileNode (n : Node) : Keeps depth Tells (compileNode resolve n) := by
  cases n with
  | leaf name => exact hresolve name
  | _ => exact (keeps_compile hresolve _).bind fun v hv => keeps_adopt hv

omit hresolve in
theorem keeps_keep {e : Entry} (he : Tells e) (source : String) : Keeps depth Tells (keep source e) := by
  intro r hr
  refine ⟨⟨⟨hr.built, fun other e' ho => ?_, hr.pending⟩, hr.few⟩, he⟩
  obtain ⟨-, rfl⟩ | ho := Table.lookup?_insert_cases ho
  · exact he
  · exact hr.compiled other e' ho

theorem keeps_compileWith (source : String) : Keeps depth Tells (compileWith resolve source) := by
  intro r hr
  cases hc : Table.lookup? source r.compiled with
  | some e =>
    rw [run_compileWith_of_some hc]
    exact ⟨hr, hr.compiled source e hc⟩
  | none =>
    rw [run_compileWith_of_none hc, ← run_bind]
    exact ((keeps_read source).bind fun n _ => keeps_compileNode hresolve n).bind
      (fun e he => keeps_keep he source) r hr

end Compiling

/-! ### Resolving -/

/-- After the attempt to build a name a registry of texts is one still, and has a name more
waiting if the attempt failed. -/
theorem OfFewTexts.conclude {outcome : Except Fault Entry × Registry}
    (h : OfFewTexts depth outcome.2) (hends : Ends Fault.IsReported Tells outcome.1)
    (hname : checkName (.text name) = .ok name) :
    OfFewTexts (depth + 1) (conclude name source outcome).2
      ∧ Ends Fault.IsReported Tells (conclude name source outcome).1 := by
  rcases outcome with ⟨f | e, r⟩
  · have hf : f.isSignal = false := by
      cases f with
      | type _ | overlong _ => rfl
      | _ => cases hends
    have hlen := Table.length_insert_le name (Recipe.define (.text source)) r.pending
    rw [conclude_of_error hf, giveUp]
    refine ⟨⟨⟨h.built, h.compiled, fun other recipe ho => ?_⟩, ?_⟩, hends⟩
    · dsimp only at ho
      split at ho
      · exact h.pending other recipe ho
      · obtain ⟨rfl, rfl⟩ | ho := Table.lookup?_insert_cases ho
        · exact ⟨hname, source, rfl⟩
        · exact h.pending other recipe ho
    · dsimp only
      split
      · exact h.few.trans (Nat.le_succ depth)
      · exact hlen.trans (Nat.succ_le_succ h.few)
  · refine ⟨⟨⟨fun other e' ho => ?_, h.compiled, fun other recipe ho => ?_⟩, ?_⟩, hends⟩
    · obtain ⟨-, rfl⟩ | ho := Table.lookup?_insert_cases ho
      · exact hends
      · exact h.built other e' ho
    · exact h.pending other recipe (Table.erase_within other recipe ho)
    · exact (List.length_filter_le _ _).trans (h.few.trans (Nat.le_succ depth))

theorem keeps_lookUp {build : Recipe → RegistryM Entry}
    (hbuild : ∀ r recipe, OfFewTexts depth r → Table.lookup? name r.pending = some recipe →
      OfFewTexts depth ((build recipe).run r).2
        ∧ Ends Fault.IsReported Tells ((build recipe).run r).1) :
    Keeps depth Tells (lookUp build name) := by
  intro r hr
  cases hb : Table.lookup? name r.built with
  | some e =>
    rw [run_lookUp_of_built hb]
    exact ⟨hr, hr.built name e hb⟩
  | none =>
    cases hp : Table.lookup? name r.pending with
    | none =>
      rw [run_lookUp_of_absent hb hp]
      exact keeps_resolveBuiltin name r hr
    | some recipe =>
      rw [run_lookUp_of_pending hb hp]
      exact hbuild r recipe hr hp

theorem keeps_resolveWithin (depth : Nat) (name : String) :
    Keeps depth Tells (resolveWithin depth name) := by
  induction depth generalizing name with
  | zero =>
    -- no name waits where there is no level
    exact keeps_lookUp fun r recipe hr hp =>
      absurd ((Table.length_erase_lt hp).trans_le hr.few) (Nat.not_lt_zero _)
  | succ depth ih =>
    refine keeps_lookUp fun r recipe hr hp => ?_
    obtain ⟨hname, source, rfl⟩ := hr.pending name recipe hp
    rw [run_settlePending_text _ hname]
    have hstart : OfFewTexts depth (r.enter name) :=
      ⟨⟨hr.built, hr.compiled, fun other recipe ho =>
          hr.pending other recipe (Table.erase_within other recipe ho)⟩,
        Nat.le_of_lt_succ ((Table.length_erase_lt hp).trans_le hr.few)⟩
    obtain ⟨hm, hends⟩ := keeps_compileWith ih source _ hstart
    exact hm.conclude hends hname

/-! ### Settings -/

theorem OfTexts.defer (h : OfTexts r) (hname : checkName (.text name) = .ok name)
    (source : String) : OfTexts (r.defer name (.define (.text source))) where
  built other e ho := h.built other e (Table.erase_within other e ho)
  compiled := h.compiled
  pending other recipe ho := by
    obtain ⟨rfl, rfl⟩ | ho := Table.lookup?_insert_cases ho
    · exact ⟨hname, source, rfl⟩
    · exact h.pending other recipe ho

end Registry

namespace Settings

open Registry

/-- Making aliases pending goes wrong at the first name that is empty or unsafe. -/
theorem run_postponeAliases (aliases : Table String) {r : Registry} (h : OfTexts r) :
    ∃ r', OfTexts r' ∧ (aliases.forM fun p => postpone (.text p.1) (.define (.text p.2)) :
        RegistryM Unit).run r
      = ((aliases.find? fun p => p.1.isEmpty || p.1 == "any").elim (.ok ()) fun p =>
          (checkName (.text p.1)).map fun _ => (), r') := by
  induction aliases generalizing r with
  | nil => exact ⟨r, h, rfl⟩
  | cons p rest ih =>
    obtain ⟨name, source⟩ := p
    show ∃ r', OfTexts r' ∧ (postpone (.text name) (.define (.text source)) >>= fun _ =>
      rest.forM fun p => postpone (.text p.1) (.define (.text p.2)) : RegistryM Unit).run r = _
    rw [run_bind, run_postpone, List.find?_cons, checkName_text]
    dsimp only
    by_cases hempty : name.isEmpty = true
    · rw [if_pos hempty, hempty]
      refine ⟨r, h, ?_⟩
      show _ = (Except.map _ (checkName (.text name)), r)
      rw [checkName_text, if_pos hempty]
      rfl
    · by_cases hany : name = "any"
      · rw [if_neg hempty, if_pos hany]
        refine ⟨r, h, ?_⟩
        subst hany
        rfl
      · have hname : checkName (.text name) = .ok name := by
          rw [checkName_text, if_neg hempty, if_neg hany]
        have hgood : (name.isEmpty || name == "any") = false := by
          simpa using ⟨by simpa using hempty, hany⟩
        rw [if_neg hempty, if_neg hany, hgood]
        exact ih (h.defer hname source)

/-- What an annotation is compiled to under settings tells its refusals, or there is a fault
that is reported, unless an alias has no name. -/
theorem validatorFor_text (s : Settings) (source : String) :
    (s.forbidden? = some "" ∧ (s.validatorFor (.text source)).1 = .error (.misuse .nameNotText))
      ∨ (s.forbidden? ≠ some "" ∧ Ends Fault.IsReported (fun w => w.guarded.Renders)
        (s.validatorFor (.text source)).1) := by
  obtain ⟨r, hr, hrun⟩ := run_postponeAliases s.aliases (ofTexts_empty s.warns)
  have hregistry : s.registry = ((s.aliases.find? fun p => p.1.isEmpty || p.1 == "any").elim
      (.ok ()) fun p => (checkName (.text p.1)).map fun _ => ()).map fun _ => r := by
    unfold registry
    dsimp only
    rw [hrun]
  have hanswer : (s.validatorFor (.text source)).1
      = s.registry >>= fun r => ((Check.validatorFor (.text source)).run r).1 := by
    unfold validatorFor run
    cases s.registry <;> rfl
  rw [hanswer, hregistry, forbidden?]
  cases hfind : s.aliases.find? fun p => p.1.isEmpty || p.1 == "any" with
  | none =>
    have hcompile : Keeps r.levels (fun w : Validator => w.guarded.Renders) (do
        return (← compileWith (resolveWithin r.levels) source).validator) :=
      (keeps_compileWith (keeps_resolveWithin r.levels) source).bind fun e he => keeps_pure he
    exact .inr ⟨(Option.some_ne_none "").symm, (hcompile r ⟨hr, r.length_le_levels⟩).2⟩
  | some p =>
    obtain ⟨name, type⟩ := p
    have hbad := List.find?_some hfind
    dsimp only at hbad
    rw [Option.map_some, Option.elim_some, checkName_text]
    dsimp only
    by_cases hempty : name.isEmpty = true
    · rw [if_pos hempty]
      exact .inl ⟨congrArg some (String.isEmpty_iff.1 hempty), rfl⟩
    · have hany : name = "any" := by
        rw [Bool.or_eq_true] at hbad
        exact beq_iff_eq.1 (hbad.resolve_left hempty)
      rw [if_neg hempty, if_pos hany]
      exact .inr ⟨by rw [hany]; decide, trivial⟩

end Settings

end StructuralTypes

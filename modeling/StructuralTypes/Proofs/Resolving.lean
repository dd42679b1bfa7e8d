import StructuralTypes.Proofs.Aliases
import StructuralTypes.Registry.Course

/-! Resolving among aliases. Compiling and resolving keep a registry consistent and answer
what the meaning of a name among the idle aliases says, by induction on the levels of
aliases that may be entered. -/

namespace StructuralTypes.Registry

open Node Outcome

variable {α β : Type} {aliases : Table String} {busy : List String} {depth : Nat}
  {r r' : Registry}

/-! ### Compiling -/

/-- A validator made an object counts as a new one or is that of a keyword. -/
theorem run_adopt (v : Validator) (r : Registry) : ∃ e : Entry, e.validator = v
    ∧ ((adopt v).run r = (.ok e, r) ∨ (adopt v).run r = (.ok e, { r with made := r.made + 1 })) := by
  unfold adopt
  cases v with
  | predicate p =>
    dsimp only
    cases Keyword.ofName? p.name with
    | none => exact ⟨_, rfl, .inr rfl⟩
    | some k => exact ⟨_, rfl, .inl rfl⟩
  | _ => exact ⟨_, rfl, .inr rfl⟩

/-- Making a validator an object stores nothing. -/
theorem realizes_adopt (v : Validator) :
    Realizes aliases busy depth Entry.validator (adopt v) fun _ => pure v := by
  intro r h _
  obtain ⟨e, rfl, hrun | hrun⟩ := run_adopt v r <;> rw [hrun]
  · exact ⟨h.advances_refl, rfl⟩
  · exact ⟨h.advances_of_eq rfl rfl rfl, rfl⟩

theorem run_liftExcept (e : Except Fault α) (r : Registry) :
    (liftExcept e : RegistryM α).run r = (e, r) := by
  cases e <;> rfl

theorem run_warnings (warnings : List Warning) (r : Registry) :
    (warnings.forM fun w => record (.warned w) : RegistryM Unit).run r
      = (.ok (), { r with journal := r.journal ++ warnings.map .warned }) := by
  induction warnings generalizing r with
  | nil =>
    rw [List.map_nil, List.append_nil]
    rfl
  | cons w rest ih =>
    refine (ih { r with journal := r.journal ++ [.warned w] }).trans ?_
    rw [List.append_assoc]
    rfl

/-- Reading an annotation only passes warnings on. -/
theorem run_read (source : String) (r : Registry) : ∃ warnings : List Warning,
    (Registry.read source).run r
      = (parse? source, { r with journal := r.journal ++ warnings.map .warned }) := by
  unfold Registry.read parse?
  rcases (Node.parse source).run [] with ⟨result, warnings⟩
  rw [run_get_bind]
  split
  · refine ⟨warnings, ?_⟩
    rw [run_bind, run_warnings]
    exact run_liftExcept result _
  · refine ⟨[], ?_⟩
    rw [List.map_nil, List.append_nil]
    exact run_liftExcept result r

theorem realizes_read (source : String) :
    Realizes aliases busy depth id (Registry.read source) fun _ => parse? source := by
  intro r h _
  obtain ⟨warnings, hrun⟩ := run_read source r
  rw [hrun]
  refine ⟨h.advances_of_eq rfl rfl rfl, ?_⟩
  cases parse? source <;> rfl

section Compiling

variable {resolve : String → RegistryM Entry}
  (hresolve : ∀ name, Realizes aliases busy depth Entry.validator (resolve name) fun t =>
    meaning t name)

/-- What keeps up with a computation that keeps its results. -/
theorem realizes_simulation : Simulation fun α (x : RegistryM α) (y : Table String → Except Fault α) =>
    Steady aliases y ∧ Realizes aliases busy depth id x y where
  pure a := ⟨steady_const _, realizes_pure id a⟩
  throw _ := ⟨steady_const _, realizes_throw id _⟩
  bind hx hf := ⟨hx.1.bind fun b => (hf b).1, hx.2.bind hx.1 fun a => (hf a).2⟩

include hresolve in
/-- A type compiled with resolved names is the type compiled with their meanings. -/
theorem realizes_compileNode (ha : Admissible aliases) (n : Node) :
    Realizes aliases busy depth Entry.validator (compileNode resolve n) fun t =>
      n.compile (meaning t) := by
  have hname : ∀ name, Steady aliases (fun t => meaning t name)
      ∧ Realizes aliases busy depth id (do return (← resolve name).validator) fun t =>
        meaning t name := by
    intro name
    have hbind := (hresolve name).bind (ha.steady_meaning name) (g := fun _ v => pure v)
      fun e => realizes_pure id e.validator
    simp only [bind_pure] at hbind
    exact ⟨ha.steady_meaning name, hbind⟩
  have hcompile := realizes_simulation.compile hname n
  have hadopt := hcompile.2.bind hcompile.1 fun v => realizes_adopt v
  simp only [bind_pure] at hadopt
  cases n with
  | leaf name => exact hresolve name
  | _ => exact hadopt

/-- Stores the validator of an annotation. -/
def keep (source : String) (e : Entry) : RegistryM Entry := do
  modify fun r => { r with compiled := Table.insert source e r.compiled }
  return e

theorem run_compileWith_of_some {source : String} {e : Entry}
    (h : Table.lookup? source r.compiled = some e) :
    (compileWith resolve source).run r = (.ok e, r) := by
  unfold compileWith
  rw [run_get_bind, h]
  rfl

theorem run_compileWith_of_none {source : String}
    (h : Table.lookup? source r.compiled = none) : (compileWith resolve source).run r
      = proceed (keep source) ((Registry.read source >>= compileNode resolve).run r) := by
  unfold compileWith
  rw [← run_bind, bind_assoc, run_get_bind, h]
  rfl

/-- The validator of an annotation is stored under its text. -/
theorem Consistent.keep (h : Consistent aliases busy r) {source : String} {e : Entry}
    (hm : textMeaning (builtAliases aliases r) source = .ok e.validator) :
    Consistent aliases busy { r with compiled := Table.insert source e r.compiled } := by
  refine ⟨h.absent, h.waiting, h.built, ?_⟩
  intro other e' ho
  obtain ⟨rfl, rfl⟩ | ho := Table.lookup?_insert_cases ho
  · exact hm
  · exact h.compiled other e' ho

include hresolve in
/-- An annotation is compiled by meanings, whether or not it was compiled before. -/
theorem realizes_compileWith (ha : Admissible aliases) (source : String) :
    Realizes aliases busy depth Entry.validator (compileWith resolve source) fun t =>
      textMeaning t source := by
  intro r h hd
  cases hc : Table.lookup? source r.compiled with
  | some e =>
    rw [run_compileWith_of_some hc]
    exact ⟨h.advances_refl, h.compiled source e hc⟩
  | none =>
    rw [run_compileWith_of_none hc]
    obtain ⟨hadv, hans⟩ := (realizes_read source).bind (steady_const _)
      (fun n => realizes_compileNode hresolve ha n) r h hd
    rcases hrun : (Registry.read source >>= compileNode resolve).run r with ⟨e | e, r'⟩
    · rw [hrun] at hadv hans
      exact ⟨hadv, hans⟩
    · rw [hrun] at hadv hans
      exact ⟨⟨hadv.consistent.keep hans, hadv.pending_le, hadv.built⟩, hans⟩

end Compiling

/-! ### Resolving -/

section Resolving

variable {resolve : String → RegistryM Entry} {name source : String}

/-- How an operation goes on after one that may have ended in a fault. -/
def recover (handle : Fault → RegistryM α) : Except Fault α × Registry → Except Fault α × Registry
  | (.ok a, r) => (.ok a, r)
  | (.error e, r) => (handle e).run r

theorem run_tryCatch (x : RegistryM α) (handle : Fault → RegistryM α) (r : Registry) :
    (tryCatch x handle).run r = recover handle (x.run r) := by
  show (ExceptT.tryCatch x handle).run r = _
  unfold ExceptT.tryCatch ExceptT.run
  simp only [bind, ExceptT.mk, StateT.bind]
  rcases x r with ⟨e | a, r'⟩ <;> rfl

/-- A name can be registered unless it is empty or unsafe. -/
theorem checkName_text (name : String) : checkName (.text name)
    = if name.isEmpty then .error (.misuse .nameNotText)
      else if name = "any" then .error (.ofCause (.forbiddenName name)) else .ok name := by
  simp only [checkName, Value.plainKey]
  split
  · rfl
  · split <;> rfl

theorem Admissible.checkName_eq (ha : Admissible aliases)
    (hl : Table.lookup? name aliases = some source) : checkName (.text name) = .ok name := by
  have hmem : name ∈ Table.keys aliases := by
    rw [← not_not (a := name ∈ Table.keys aliases), ← Table.lookup?_eq_none_iff, hl]
    exact Option.some_ne_none _
  obtain ⟨hempty, hany⟩ := ha.named name hmem
  rw [checkName_text, if_neg (by simpa using hempty), if_neg hany]

theorem run_postpone (name : Value) (recipe : Recipe) (r : Registry) :
    (postpone name recipe).run r = match checkName name with
      | .ok key => (.ok (), r.defer key recipe)
      | .error f => (.error f, r) := by
  unfold postpone
  rw [run_bind, run_liftExcept]
  cases checkName name <;> rfl

/-- A definition is stored under a name that is allowed, once it is built. -/
theorem run_registerWith (resolve : String → RegistryM Entry) (name : Value) (d : Definition)
    (r : Registry) : (registerWith resolve name d).run r = match checkName name with
      | .ok key =>
        proceed (fun e => do store key e; return e) ((buildWith resolve key d).run r)
      | .error f => (.error f, r) := by
  unfold registerWith
  rw [run_bind, run_liftExcept]
  cases checkName name with
  | error f => rfl
  | ok key =>
    show (buildWith resolve key d >>= fun e => do store key e; return e).run r = _
    rw [run_bind]

theorem run_endBuild (recipe : Recipe) (fault : Fault) (r : Registry) :
    (endBuild name recipe fault).run r = (.ok (), r.stop name recipe fault) := by
  unfold endBuild stop
  cases fault.isSignal with
  | true => rfl
  | false =>
    show (Except.ok (), (if Table.has name r.pending then r
      else { r with pending := Table.insert name recipe r.pending }).note _)
        = (.ok (), r.giveUp name recipe)
    unfold giveUp
    cases Table.has name r.pending <;> rfl

/-- How the attempt to build a pending name ends. -/
def settle (name : String) (recipe : Recipe) :
    Except Fault Entry × Registry → Except Fault Entry × Registry
  | (.ok e, r) => (.ok e, r.note (.ended name .built))
  | (.error f, r) => (.error f, r.stop name recipe f)

theorem run_settlePending (resolve : String → RegistryM Entry) (name : String) (recipe : Recipe)
    (r : Registry) : (settlePending resolve name recipe).run r
      = settle name recipe ((buildName resolve name recipe).run (r.enter name)) := by
  show (tryCatch (buildName resolve name recipe >>= fun e => do
      record (.ended name .built)
      pure e : RegistryM Entry) _).run (r.enter name) = _
  rw [run_tryCatch, run_bind]
  rcases (buildName resolve name recipe).run (r.enter name) with ⟨f | e, r'⟩
  · show (do
      endBuild name recipe f
      throw f : RegistryM Entry).run r' = _
    rw [run_bind, run_endBuild]
    rfl
  · rfl

/-- What follows the compilation of a pending alias. -/
def conclude (name source : String) :
    Except Fault Entry × Registry → Except Fault Entry × Registry
  | (.ok e, r) => (.ok e, (r.hold name e).note (.ended name .built))
  | (.error f, r) => (.error f, r.stop name (.define (.text source)) f)

section LookUp

variable {build : Recipe → RegistryM Entry}

theorem run_lookUp (r : Registry) : (lookUp build name).run r
    = match Table.lookup? name r.built, Table.lookup? name r.pending with
      | some e, _ => (.ok e, r)
      | none, some recipe => (build recipe).run r
      | none, none => (resolveBuiltin name).run r := by
  unfold lookUp
  rw [run_get_bind]
  cases Table.lookup? name r.built with
  | some e => rfl
  | none => cases Table.lookup? name r.pending <;> rfl

theorem run_lookUp_of_built {e : Entry} (h : Table.lookup? name r.built = some e) :
    (lookUp build name).run r = (.ok e, r) := by
  rw [run_lookUp, h]

theorem run_lookUp_of_absent (hb : Table.lookup? name r.built = none)
    (hp : Table.lookup? name r.pending = none) :
    (lookUp build name).run r = (resolveBuiltin name).run r := by
  rw [run_lookUp, hb, hp]

theorem run_lookUp_of_pending {recipe : Recipe} (hb : Table.lookup? name r.built = none)
    (hp : Table.lookup? name r.pending = some recipe) :
    (lookUp build name).run r = (build recipe).run r := by
  rw [run_lookUp, hb, hp]

end LookUp

theorem run_resolveWithin_of_built {e : Entry} (h : Table.lookup? name r.built = some e) :
    (resolveWithin depth name).run r = (.ok e, r) := by
  cases depth <;> exact run_lookUp_of_built h

theorem run_resolveWithin_of_absent (hb : Table.lookup? name r.built = none)
    (hp : Table.lookup? name r.pending = none) :
    (resolveWithin depth name).run r = (resolveBuiltin name).run r := by
  cases depth <;> exact run_lookUp_of_absent hb hp

/-- To build a pending alias is to compile its annotation. -/
theorem run_settlePending_text (resolve : String → RegistryM Entry)
    (hname : checkName (.text name) = .ok name) (r : Registry) :
    (settlePending resolve name (.define (.text source))).run r
      = conclude name source ((compileWith resolve source).run (r.enter name)) := by
  rw [run_settlePending]
  show settle name _ ((registerWith resolve (.text name) (.text source)).run _) = _
  rw [run_registerWith, hname]
  show settle name _ (proceed _ ((compileWith resolve source).run (r.enter name))) = _
  rcases (compileWith resolve source).run (r.enter name) with ⟨f | e, r'⟩ <;> rfl

theorem realizes_resolveBuiltin (name : String) :
    Realizes aliases busy depth Entry.validator (resolveBuiltin name) fun _ =>
      builtinValidator name := by
  unfold resolveBuiltin builtinValidator
  cases Predicate.ofName name with
  | error e => exact realizes_throw _ _
  | ok p =>
    cases p with
    | none => exact realizes_throw _ _
    | some p => exact realizes_adopt _

/-- A name that no alias can stand for means what it means without aliases. -/
theorem Answers.of_builtin {outcome : Except Fault Entry × Registry}
    (h : Answers aliases busy Entry.validator (fun _ => builtinValidator name) outcome)
    (hc : Consistent aliases busy outcome.2)
    (hn : name ∈ busy ∨ Table.lookup? name aliases = none) :
    Answers aliases busy Entry.validator (fun t => meaning t name) outcome := by
  have hbuilt : Table.lookup? name (builtAliases aliases outcome.2) = none := by
    rw [lookup?_builtAliases, Table.has, (hc.absent name hn).1]
    rfl
  have hidle : Table.lookup? name (idleAliases aliases busy) = none := by
    rw [lookup?_idleAliases]
    split
    · rfl
    · rename_i hbusy
      exact hn.resolve_left hbusy
  rcases outcome with ⟨f | e, r'⟩
  · exact (meaning_of_lookup?_none hidle).trans h
  · exact (meaning_of_lookup?_none hbuilt).trans h

/-- Among the idle aliases, one means what its annotation means while it is being built. -/
theorem meaning_idleAliases (hl : Table.lookup? name aliases = some source) (hbusy : name ∉ busy) :
    meaning (idleAliases aliases busy) name
      = textMeaning (idleAliases aliases (name :: busy)) source := by
  have hself : Table.lookup? name (idleAliases aliases busy) = some source := by
    rw [lookup?_idleAliases, if_neg hbusy, hl]
  have hsame : meaning (Table.erase name (idleAliases aliases busy))
      = meaning (idleAliases aliases (name :: busy)) := by
    refine meaning_congr fun other => ?_
    rw [Table.lookup?_erase, lookup?_idleAliases, lookup?_idleAliases]
    by_cases hn : other = name
    · simp [hn]
    · simp [hn]
  rw [meaning_of_lookup? hself, textMeaning, textMeaning, hsame]

/-- No annotation of an alias leads to a signal. -/
theorem isSignal_of_meaning {aliases : Table String} {f : Fault}
    (h : meaning aliases name = .error f) : f.isSignal = false := by
  obtain ⟨f, rfl⟩ | ⟨o, rfl⟩ := meaning_fault h <;> rfl

theorem conclude_of_error {f : Fault} (hf : f.isSignal = false) :
    conclude name source (.error f, r) = (.error f, r.giveUp name (.define (.text source))) := by
  simp [conclude, stop, hf]

/-- Building a pending alias keeps a registry consistent and gives its meaning. -/
theorem Advances.conclude (ha : Admissible aliases) {started : Registry}
    {outcome : Except Fault Entry × Registry}
    (hadv : Advances aliases (name :: busy) started outcome.2)
    (hans : Answers aliases (name :: busy) Entry.validator (fun t => textMeaning t source) outcome)
    (hl : Table.lookup? name aliases = some source) (hbusy : name ∉ busy)
    (hp : Table.lookup? name r.pending = some (.define (.text source)))
    (hbuilt : started.built = r.built)
    (hpending : started.pending = Table.erase name r.pending) :
    Advances aliases busy r (conclude name source outcome).2
      ∧ Answers aliases busy Entry.validator (fun t => meaning t name)
        (conclude name source outcome) := by
  have hlt : (Table.erase name r.pending).length < r.pending.length := Table.length_erase_lt hp
  have hle := hadv.pending_le
  rw [hpending] at hle
  rcases outcome with ⟨f | e, r'⟩
  · have hhas : Table.has name r'.pending = false := by
      rw [Table.has, (hadv.consistent.absent name (.inl List.mem_cons_self)).2]
      rfl
    have hlen := Table.length_insert_le name (Recipe.define (.text source)) r'.pending
    have hmeaning : meaning (idleAliases aliases busy) name = .error f :=
      (meaning_idleAliases hl hbusy).trans hans
    rw [conclude_of_error (isSignal_of_meaning hmeaning), giveUp, if_neg (by simp [hhas])]
    refine ⟨⟨hadv.consistent.giveUp hl hbusy rfl rfl rfl, ?_, ?_⟩, hmeaning⟩
    · exact hlen.trans ((Nat.succ_le_succ hle).trans hlt)
    · intro other ho
      exact hadv.built other (hbuilt ▸ ho)
  · have hfinish : Consistent aliases busy (Registry.conclude name source (.ok e, r')).2 :=
      hadv.consistent.finish ha hl hbusy hans rfl rfl rfl
    refine ⟨⟨hfinish, ?_, ?_⟩, ?_⟩
    · have hfilter := List.length_filter_le (fun p => p.1 != name) r'.pending
      exact hfilter.trans (hle.trans hlt.le)
    · intro other ho
      show Table.has other (Table.insert name e r'.built) = true
      rw [Table.has]
      by_cases hn : other = name
      · rw [hn, Table.lookup?_insert_self]
        rfl
      · rw [Table.lookup?_insert_of_ne hn]
        exact hadv.built other (hbuilt ▸ ho)
    · exact hfinish.built name e (Table.lookup?_insert_self name e _)

/-- However aliases refer to each other, with as many levels as names are pending a name
is resolved to its meaning. -/
theorem realizes_resolveWithin (ha : Admissible aliases) (depth : Nat) (busy : List String)
    (name : String) :
    Realizes aliases busy depth Entry.validator (resolveWithin depth name) fun t =>
      meaning t name := by
  induction depth using Nat.strong_induction_on generalizing busy name with
  | h depth ih =>
    intro r h hd
    cases hb : Table.lookup? name r.built with
    | some e =>
      rw [run_resolveWithin_of_built hb]
      exact ⟨h.advances_refl, h.built name e hb⟩
    | none =>
      by_cases hn : name ∈ busy ∨ Table.lookup? name aliases = none
      · rw [run_resolveWithin_of_absent hb (h.absent name hn).2]
        obtain ⟨hadv, hans⟩ := realizes_resolveBuiltin name r h hd
        exact ⟨hadv, hans.of_builtin hadv.consistent hn⟩
      · obtain ⟨hbusy, hsome⟩ := not_or.1 hn
        obtain ⟨source, hl⟩ := Option.ne_none_iff_exists'.1 hsome
        have hp := h.waiting name source hl hbusy hb
        have hlt : (Table.erase name r.pending).length < r.pending.length := Table.length_erase_lt hp
        -- something is pending, so there is a level left, and one fewer is enough below it
        obtain ⟨below, rfl⟩ : ∃ below, depth = below + 1 :=
          Nat.exists_eq_succ_of_ne_zero (Nat.ne_of_gt (Nat.zero_lt_of_lt (hlt.trans_le hd)))
        have hstart : Consistent aliases (name :: busy) (r.enter name) := h.start hb rfl rfl rfl
        obtain ⟨hadv, hans⟩ := realizes_compileWith
          (fun other => ih below (Nat.lt_succ_self below) (name :: busy) other) ha source _ hstart
          (Nat.le_of_lt_succ (hlt.trans_le hd))
        rw [resolveWithin, run_lookUp_of_pending hb hp, run_settlePending_text _ (ha.checkName_eq hl)]
        exact hadv.conclude ha hans hl hbusy hp rfl rfl

end Resolving

theorem length_le_levels (r : Registry) : r.pending.length ≤ r.levels :=
  Nat.le_add_right _ _

theorem realizes_resolve (ha : Admissible aliases) (name : String) :
    Realizes aliases busy depth Entry.validator (resolve name) fun t => meaning t name :=
  fun r h _ => realizes_resolveWithin ha r.levels busy name r h r.length_le_levels

theorem Answers.map_eq {view : α → β} {y : Table String → Except Fault β}
    {outcome : Except Fault α × Registry} (h : Answers aliases [] view y outcome)
    (hy : Steady aliases y) : outcome.1.map view = y aliases := by
  have hidle : idleAliases aliases [] = aliases := by simp [idleAliases]
  rcases outcome with ⟨e | a, r'⟩
  · have h' : y (idleAliases aliases []) = .error e := h
    rw [hidle] at h'
    exact h'.symm
  · exact (hy _ _ builtAliases_within (fun _ _ hl => hl) _ h).symm

/-- With levels enough, names are resolved to their meanings. -/
theorem Consistent.resolveWithin_eq (ha : Admissible aliases) (h : Consistent aliases [] r)
    (hd : r.levels ≤ depth) (name : String) :
    ((resolveWithin depth name).run r).1.map Entry.validator = meaning aliases name :=
  (realizes_resolveWithin ha depth [] name r h (r.length_le_levels.trans hd)).2.map_eq
    (ha.steady_meaning name)

end StructuralTypes.Registry

import StructuralTypes.Proofs.Settling
import StructuralTypes.Validator.Evaluate

/-! Compiling again. A name that was resolved is resolved alike until it is defined from
outside, whether it is registered or stands for a keyword or literal. So an annotation that
was compiled once compiles again to the same validator, as long as this can be said of all
its names; and what is stored for an annotation was compiled at some moment. -/

namespace StructuralTypes.Registry

open Event Node

variable {α β : Type} {q r r' s m p : Registry} {name source : String} {depth : Nat} {e : Entry}
  {names : List String} {es xs ys since : List Event}

/-! ### Names that are not registered -/

/-- Whether a name is neither registered nor being built. -/
structure Vacant (name : String) (r : Registry) : Prop where
  idle : name ∉ r.busy
  built : Table.lookup? name r.built = none
  pending : Table.lookup? name r.pending = none

theorem Step.vacant (hs : Step r es r') (h : Vacant name r)
    (hout : ¬DefinedOutside name r.busy es) : Vacant name r' := by
  have hdef := defined?_ne_of_not_definedOutside hs h.idle hout
  refine ⟨fun hn => ?_, (hs.lookup?_built hdef).trans h.built, hs.lookup?_pending h.pending ?_ ?_⟩
  · rw [hs.busy_eq] at hn
    refine (mem_or_started_of_mem_trackAll hn).elim h.idle fun hstart => ?_
    obtain ⟨-, ⟨recipe, hwait⟩, -⟩ := hs.of_started hstart
    cases h.pending.symm.trans hwait
  · exact fun hpost => hdef _ hpost rfl
  · intro hend
    obtain ⟨-, ⟨outer, hbusy⟩, -⟩ := hs.of_ended hend
    exact h.idle (hbusy ▸ List.mem_cons_self)

/-- A name that is not registered stays so until it is defined from outside. -/
theorem Course.vacant (hc : Course q since p) (h : Vacant name q)
    (hout : ¬DefinedOutside name q.busy since) : Vacant name p := by
  induction hc with
  | refl => exact h
  | tail hc hs ih =>
    rw [definedOutside_append, not_or, ← hc.busy_eq] at hout
    exact hs.vacant (ih hout.1) hout.2

/-! ### Computations that can be repeated -/

/-- Warnings and nothing else. -/
def Harmless (events : List Event) : Prop :=
  ∀ e ∈ events, ∃ w, e = .warned w

theorem harmless_nil : Harmless [] := nofun

theorem harmless_warnings (warnings : List Warning) : Harmless (warnings.map .warned) := by
  intro e he
  obtain ⟨w, -, rfl⟩ := List.mem_map.1 he
  exact ⟨w, rfl⟩

theorem Harmless.append (hx : Harmless xs) (hy : Harmless ys) : Harmless (xs ++ ys) :=
  fun e he => (List.mem_append.1 he).elim (hx e) (hy e)

theorem Harmless.not_definedOutside {busy : List String} (h : Harmless xs) :
    ¬DefinedOutside name busy xs := by
  rintro ⟨situation, hs, hdef, -⟩
  obtain ⟨w, hw⟩ := h _ (mem_of_mem_situated hs)
  rw [hw] at hdef
  cases hdef

theorem Untouched.mono {names' : List String} (h : Untouched names' q p)
    (hn : ∀ name ∈ names, name ∈ names') : Untouched names q p :=
  fun name hname => h name (hn name hname)

/-- Names that are untouched are untouched since any moment in between. -/
theorem Untouched.later (h : Untouched names q p) (hqm : Course q xs m) (hn : Nested true xs)
    (hmp : Course m ys p) : Untouched names m p := by
  intro name hname
  obtain ⟨hidle, hout⟩ := h name hname
  rw [(hqm.trans hmp).since_eq, definedOutside_append, not_or, ← hqm.busy_eq] at hout
  rw [hmp.since_eq, hqm.busy_eq, hn.trackAll_eq]
  rw [hqm.busy_eq, hn.trackAll_eq] at hout
  exact ⟨hidle, hout.2⟩

/-- Warnings leave untouched what is. -/
theorem Untouched.harmless (h : Untouched names q p) (hqp : Course q xs p) (hpp : Course p ys r)
    (hy : Harmless ys) : Untouched names q r := by
  intro name hname
  obtain ⟨hidle, hout⟩ := h name hname
  rw [hqp.since_eq] at hout
  rw [(hqp.trans hpp).since_eq, definedOutside_append, not_or]
  exact ⟨hidle, hout, hy.not_definedOutside⟩

/-- A computation that does nothing but warn and has a result with some property. -/
def Warns (y : RegistryM β) (p : Registry) (good : β → Prop) : Prop :=
  ∃ b p' ws, y.run p = (.ok b, p') ∧ good b ∧ Course p ws p' ∧ Harmless ws

/-- Whatever the first computation gives, the second one gives the like at every later moment
until which the names are untouched, and does nothing but warn. -/
structure Repeats (names : List String) (R : α → β → Prop) (x : RegistryM α)
    (y : RegistryM β) : Prop where
  moves : Moves true x
  again : ∀ {q m : Registry} {a : α}, x.run q = (.ok a, m) →
    ∀ {p : Registry} {since : List Event}, Course m since p → Untouched names q p →
      Warns y p (R a)

section Repeats

variable {γ δ : Type} {R : α → β → Prop} {S : γ → δ → Prop} {x : RegistryM α} {y : RegistryM β}
  {f : α → RegistryM γ} {g : β → RegistryM δ}

theorem repeats_pure {a : α} {b : β} (h : R a b) :
    Repeats names R (pure a : RegistryM α) (pure b) where
  moves := moves_pure a
  again {q m a'} hrun {p since} _ _ := by
    cases hrun
    exact ⟨b, p, [], rfl, h, .refl, harmless_nil⟩

theorem Repeats.mono {names' : List String} (h : Repeats names R x y)
    (hn : ∀ name ∈ names, name ∈ names') : Repeats names' R x y where
  moves := h.moves
  again {_ _ _} hrun {_ _} hp hun := h.again hrun hp (hun.mono hn)

theorem Repeats.bind (hx : Repeats names R x y) (hf : ∀ a, Moves true (f a))
    (hfg : ∀ a b, R a b → Repeats names S (f a) (g b)) :
    Repeats names S (x >>= f) (y >>= g) where
  moves := hx.moves.bind hf
  again {q n c} hrun {p since} hp hun := by
    obtain ⟨a, m, hfirst, hrest⟩ := ok_of_run_bind hrun
    have hstart := hx.moves q
    rw [hfirst] at hstart
    obtain ⟨xs, hxs, hnx⟩ := hstart.course
    have hnext := hf a m
    rw [hrest] at hnext
    obtain ⟨ys, hys, -⟩ := hnext.course
    -- what is later than the whole is later than each of its parts
    obtain ⟨b, p', ws, hy, hab, hws, hharmless⟩ := hx.again hfirst (hys.trans hp) hun
    have hmid : Untouched names m p' :=
      (hun.later hxs hnx (hys.trans hp)).harmless (hys.trans hp) hws hharmless
    obtain ⟨d, p'', ws', hg, hcd, hws', hharmless'⟩ :=
      (hfg a b hab).again hrest (hp.trans hws) hmid
    refine ⟨d, p'', ws ++ ws', ?_, hcd, hws.trans hws', hharmless.append hharmless'⟩
    rw [run_bind, hy]
    exact hg

theorem simulation_repeats :
    Simulation fun α (x : RegistryM α) (y : Unit → RegistryM α) =>
      Repeats names Eq x (y ()) where
  pure _ := repeats_pure rfl
  throw _ := ⟨moves_throw _, fun hrun => nomatch hrun⟩
  bind hx hf := hx.bind (fun a => (hf a).moves) fun a _ hab => hab ▸ hf a

end Repeats

/-! ### Compiling again -/

/-- Whether two stored validators are the same, not necessarily as objects. -/
def Alike (e e' : Entry) : Prop :=
  e'.validator = e.validator

theorem warns_adopt (v : Validator) (p : Registry) :
    Warns (adopt v) p fun e => e.validator = v := by
  obtain ⟨e, he, hrun | hrun⟩ := run_adopt v p
  · exact ⟨e, _, [], hrun, he, .refl, harmless_nil⟩
  · exact ⟨e, _, [], hrun, he, (Step.make p).course, harmless_nil⟩

theorem repeats_adopt (v : Validator) : Repeats names Alike (adopt v) (adopt v) where
  moves := moves_adopt v
  again {q m e} hrun {p since} _ _ := by
    obtain ⟨e', m', ws, hrun', rfl, -⟩ := warns_adopt v q
    cases hrun.symm.trans hrun'
    exact warns_adopt _ p

/-- Which validator a name has that stands for a keyword or literal does not change. -/
theorem repeats_resolveBuiltin (name : String) :
    Repeats names Alike (resolveBuiltin name) (resolveBuiltin name) := by
  unfold resolveBuiltin
  cases Predicate.ofName name with
  | error f => exact ⟨moves_throw _, fun hrun => nomatch hrun⟩
  | ok found =>
    cases found with
    | none => exact ⟨moves_throw _, fun hrun => nomatch hrun⟩
    | some predicate => exact repeats_adopt (.predicate predicate)

/-- A name is resolved to the same validator until it is defined from outside. -/
theorem repeats_resolveWithin (depth depth' : Nat) (name : String) :
    Repeats [name] Alike (resolveWithin depth name) (resolveWithin depth' name) where
  moves := moves_resolveWithin depth name
  again {q m e} hrun {p since} hp hun := by
    have hmoves := moves_resolveWithin depth name q
    rw [hrun] at hmoves
    obtain ⟨xs, hxs, hnx⟩ := hmoves.course
    obtain ⟨hidle, hout⟩ := hun name List.mem_cons_self
    rw [(hxs.trans hp).since_eq] at hout
    by_cases hname : name ∈ q.names
    · have hbusy : m.busy = q.busy := hmoves.busy_eq
      rw [definedOutside_append, not_or, hnx.trackAll_eq] at hout
      obtain ⟨-, hagain⟩ := staysPut name hidle hname hrun hp (hbusy ▸ hout.2)
      exact ⟨e, p, [], hagain depth', rfl, .refl, harmless_nil⟩
    · rw [mem_names_iff, not_or, Table.has, Table.has, Option.not_isSome_iff_eq_none,
        Option.not_isSome_iff_eq_none] at hname
      have hvacant := (hxs.trans hp).vacant ⟨hidle, hname.1, hname.2⟩ hout
      rw [run_resolveWithin_of_absent hname.1 hname.2] at hrun
      have hagain := (repeats_resolveBuiltin name).again hrun hp hun
      rwa [Warns, ← run_resolveWithin_of_absent hvacant.built hvacant.pending] at hagain

/-- A type is compiled to the same validator until one of its names is defined from outside. -/
theorem repeats_compileNode (depth depth' : Nat) (n : Node) : Repeats n.leafNames Alike
    (compileNode (resolveWithin depth) n) (compileNode (resolveWithin depth') n) := by
  have hname : ∀ name ∈ n.leafNames, Repeats n.leafNames Eq
      (do return (← resolveWithin depth name).validator)
      (do return (← resolveWithin depth' name).validator) := fun name hn =>
    ((repeats_resolveWithin depth depth' name).mono (by simpa using hn)).bind
      (fun e => moves_pure e.validator) fun e e' he => repeats_pure he.symm
  have hcompile : Repeats n.leafNames Eq
      (n.compile fun name => return (← resolveWithin depth name).validator)
      (n.compile fun name => return (← resolveWithin depth' name).validator) :=
    simulation_repeats.compile_of_leafNames _
      (fun _ name => do return (← resolveWithin depth' name).validator) n hname
  cases n with
  | leaf name => exact repeats_resolveWithin depth depth' name
  | _ =>
    exact hcompile.bind (fun v => moves_adopt v) fun v w hv => hv ▸ repeats_adopt v

/-- Reading an annotation gives the same type at any time. -/
theorem repeats_read {n : Node} (hparse : parse? source = .ok n) : Repeats names
    (fun a b => a = n ∧ b = n) (Registry.read source) (Registry.read source) where
  moves := moves_read source
  again {q m a} hrun {p since} _ _ := by
    obtain ⟨-, m', hread, -⟩ := course_read source q
    obtain ⟨warnings, p', hread', hp', -⟩ := course_read source p
    rw [hparse] at hread hread'
    cases hrun.symm.trans hread
    exact ⟨n, p', _, hread', ⟨rfl, rfl⟩, hp', harmless_warnings warnings⟩

/-- An annotation is compiled to the same validator until one of its names is defined from
outside. -/
theorem repeats_compileAfresh (depth depth' : Nat) (source : String) :
    Repeats (namesIn source) Alike (compileAfresh depth source)
      (compileAfresh depth' source) := by
  have hmoves := moves_compileAfresh (moves_resolveWithin depth) source
  unfold namesIn
  cases hparse : parse? source with
  | error f =>
    refine ⟨hmoves, fun {q m e} hrun => ?_⟩
    obtain ⟨a, m', hread, -⟩ := ok_of_run_bind hrun
    obtain ⟨-, m'', hread', -⟩ := course_read source q
    rw [hparse] at hread'
    cases hread.symm.trans hread'
  | ok n =>
    have hnode := moves_compileNode (moves_resolveWithin depth)
    refine (repeats_read hparse).bind hnode ?_
    rintro a b ⟨rfl, rfl⟩
    exact repeats_compileNode depth depth' _

/-! ### Stored annotations -/

/-- An annotation that is not stored yet is compiled afresh. -/
theorem compiles_of_compile (hnone : Table.lookup? source q.compiled = none)
    (hrun : (compile source).run q = (.ok e, p)) :
    ∃ m, Compiles q.levels source e q m ∧ Course m [] p ∧
      Table.lookup? source p.compiled = some e := by
  have hrun' : (compileWith (resolveWithin q.levels) source).run q = (.ok e, p) := hrun
  rw [run_compileWith_of_none hnone] at hrun'
  rcases hfresh : (compileAfresh q.levels source).run q with ⟨f | e', m⟩
  · rw [compileAfresh] at hfresh
    rw [hfresh] at hrun'
    cases hrun'
  · have hfresh' := hfresh
    rw [compileAfresh] at hfresh'
    rw [hfresh'] at hrun'
    cases hrun'
    exact ⟨m, hfresh, (Step.keep m source e).course, Table.lookup?_insert_self source e _⟩

/-- What compiling gives is then stored. -/
theorem lookup?_of_compile (hrun : (compile source).run q = (.ok e, p)) :
    Table.lookup? source p.compiled = some e := by
  cases hsome : Table.lookup? source q.compiled with
  | none =>
    obtain ⟨-, -, -, hstored⟩ := compiles_of_compile hsome hrun
    exact hstored
  | some e' =>
    have hrun' : (compileWith (resolveWithin q.levels) source).run q = (.ok e, p) := hrun
    rw [run_compileWith_of_some hsome] at hrun'
    cases hrun'
    exact hsome

/-- Whatever an annotation is compiled to was the outcome of compiling it afresh at some moment
of the history. If none of its names was being built at such a moment or has been defined
since, other than in the course of building it, to compile it afresh now gives the same
validator and does nothing but warn. -/
theorem compile_eq_compileAfresh {warns : Bool} {definitions : List (Value × Definition)}
    {host : Host} {start : Registry} (h : ofDefinitions warns definitions host = (.ok (), start))
    {actions : List Action} (hrun : (compile source).run (start.afterAll actions) = (.ok e, p)) :
    Dated (empty warns host) source e p
      ∧ ∀ {q m : Registry} {depth : Nat} {since : List Event}, Compiles depth source e q m →
        Course m since p → Untouched (namesIn source) q p → ∀ depth',
          Warns (compileAfresh depth' source) p fun e' => e'.validator = e.validator := by
  constructor
  · have hlead : Leads true (start.afterAll actions) p := by
      have := moves_compile source (start.afterAll actions)
      rwa [hrun] at this
    have hhistory := (leads_history (congrArg Prod.snd h) actions).trans hlead.loud
    exact (hhistory.dated source e (lookup?_of_compile hrun)).resolve_left nofun
  · intro q m depth since hcompiles hsince hun depth'
    exact (repeats_compileAfresh depth depth' source).again hcompiles hsince hun

/-- An annotation that stays stored when what its name was built from is defined anew. -/
theorem trees_compile_eq_compileAfresh :
    ∃ start e p, ofDefinitions false [(.text "Id", .text "int")] = (.ok (), start)
      ∧ (compile "Tree[]").run (start.afterAll [.postpone (.text "Tree") (.define (.text "Id[]")),
          .compile "Tree[]", .postpone (.text "Id") (.define (.text "string"))]) = (.ok e, p)
      ∧ Warns (compileAfresh p.levels "Tree[]") p fun e' => e'.validator = e.validator := by
  have hstart : ofDefinitions false [(.text "Id", .text "int")]
      = (.ok (), (ofDefinitions false [(.text "Id", .text "int")]).2) := by cbv
  have huntouched : Untouched (namesIn "Tree[]")
      ((ofDefinitions false [(.text "Id", .text "int")]).2.after
        (.postpone (.text "Tree") (.define (.text "Id[]"))))
      ((ofDefinitions false [(.text "Id", .text "int")]).2.afterAll
        [.postpone (.text "Tree") (.define (.text "Id[]")), .compile "Tree[]",
          .postpone (.text "Id") (.define (.text "string"))]) := by
    decide +kernel
  have hnone : Table.lookup? "Tree[]" ((ofDefinitions false [(.text "Id", .text "int")]).2.after
      (.postpone (.text "Tree") (.define (.text "Id[]")))).compiled = none := by
    decide +kernel
  have hok : ((compile "Tree[]").run ((ofDefinitions false [(.text "Id", .text "int")]).2.after
      (.postpone (.text "Tree") (.define (.text "Id[]"))))).1.isOk = true := by
    decide +kernel
  generalize (ofDefinitions false [(.text "Id", .text "int")]).2 = start at *
  rcases hfirst : (compile "Tree[]").run
      (start.after (.postpone (.text "Tree") (.define (.text "Id[]")))) with ⟨f | e, p⟩
  · rw [hfirst] at hok
    cases hok
  · obtain ⟨m, hcompiles, hm, hstored⟩ := compiles_of_compile hnone hfirst
    have hp : start.afterAll [.postpone (.text "Tree") (.define (.text "Id[]")), .compile "Tree[]",
        .postpone (.text "Id") (.define (.text "string"))]
          = p.defer "Id" (.define (.text "string")) := by
      have hsecond : (start.after (.postpone (.text "Tree") (.define (.text "Id[]")))).after
          (.compile "Tree[]") = p := by
        rw [after, Action.run, run_bind, hfirst]
        rfl
      rw [afterAll_cons, afterAll_cons, hsecond]
      rfl
    have hagain : (compile "Tree[]").run (start.afterAll
        [.postpone (.text "Tree") (.define (.text "Id[]")), .compile "Tree[]",
          .postpone (.text "Id") (.define (.text "string"))])
          = (.ok e, p.defer "Id" (.define (.text "string"))) := by
      rw [hp]
      exact run_compileWith_of_some hstored
    refine ⟨start, e, _, hstart, hagain, ?_⟩
    exact (compile_eq_compileAfresh hstart hagain).2 hcompiles
      (hm.trans (Step.postpone p "Id" _).course) (hp ▸ huntouched) _

/-- Whether a validator that was asked for accepts a value. -/
def accepts? (outcome : Except Fault Entry × Registry) (v : Value) : Option Bool :=
  match outcome.1 with
  | .error _ => none
  | .ok e =>
    match e.validator.evaluate v with
    | .ok verdict => some verdict.ok
    | .error _ => none

/-- What is stored outlives the definition it was made with, and the time when a name that is
being built still stood for a keyword. -/
theorem stored_annotations_outdated :
    (let r := (empty false).afterAll
        [.register (.text "Id") (.text "int"), .compile "Id[]", .register (.text "Id") (.text "string")];
      accepts? ((compile "Id[]").run r) (.list [.text "x"]) = some false
        ∧ accepts? ((compileAfresh r.levels "Id[]").run r) (.list [.text "x"]) = some true)
    ∧ (let r := (empty false).afterAll [.postpone (.text "int") (.define (.text "int[]")), .resolve "int"];
      accepts? ((compile "int[]").run r) (.list [.list [.int 1]]) = some false
        ∧ accepts? ((compileAfresh r.levels "int[]").run r) (.list [.list [.int 1]])
          = some true) := by
  decide +kernel

end StructuralTypes.Registry

import StructuralTypes.Proofs.Resolving

/-! Operations take courses. Whatever a registry is asked, what it does is a sequence of
steps whose builds are nested, and each annotation it has stored was compiled afresh at
some moment on the way. -/

namespace StructuralTypes.Registry

open Event Node

variable {α β : Type} {quiet : Bool} {depth : Nat} {name source : String}
  {q m r r' p : Registry} {e : Entry} {xs ys since : List Event}

/-! ### Single operations -/

/-- A sequence with a result got there by the results of its steps. -/
theorem ok_of_run_bind {x : RegistryM α} {f : α → RegistryM β} {b : β}
    (h : (x >>= f).run r = (.ok b, p)) : ∃ a m, x.run r = (.ok a, m) ∧ (f a).run m = (.ok b, p) := by
  rw [run_bind] at h
  rcases hrun : x.run r with ⟨fault | a, m⟩
  · rw [hrun] at h
    cases h
  · rw [hrun] at h
    exact ⟨a, m, rfl, h⟩

/-- Warnings are passed on one after another. -/
theorem course_warned (warnings : List Warning) (r : Registry) :
    Course r (warnings.map .warned) { r with journal := r.journal ++ warnings.map .warned } := by
  induction warnings generalizing r with
  | nil =>
    rw [List.map_nil, List.append_nil]
    exact .refl
  | cons w rest ih =>
    have hrest := ih (r.note (.warned w))
    rw [note, List.append_assoc] at hrest
    exact (Step.warn r w).course.trans hrest

/-- Reading an annotation only passes warnings on. -/
theorem course_read (source : String) (r : Registry) : ∃ (warnings : List Warning) (p : Registry),
    (Registry.read source).run r = (parse? source, p)
      ∧ Course r (warnings.map .warned) p ∧ p.compiled = r.compiled := by
  obtain ⟨warnings, hrun⟩ := run_read source r
  exact ⟨warnings, _, hrun, course_warned warnings r, rfl⟩

theorem nested_warnings (quiet : Bool) (warnings : List Warning) :
    Nested quiet (warnings.map .warned) := by
  induction warnings with
  | nil => exact .nil quiet
  | cons w rest ih => exact .append (.warned quiet w) ih

/-- To resolve a pending name is to build it. -/
theorem run_resolveWithin_of_waiting {recipe : Recipe}
    (hb : Table.lookup? name r.built = none) (hp : Table.lookup? name r.pending = some recipe) :
    (resolveWithin (depth + 1) name).run r
      = settle name recipe ((buildName (resolveWithin depth) name recipe).run (r.enter name)) := by
  rw [resolveWithin, run_lookUp_of_pending hb hp, run_settlePending]

/-- Without a level left a pending name is refused. -/
theorem run_resolveWithin_zero {recipe : Recipe}
    (hb : Table.lookup? name r.built = none) (hp : Table.lookup? name r.pending = some recipe) :
    (resolveWithin 0 name).run r = (.error (.raised .tooDeep), r) := by
  rw [resolveWithin, run_lookUp_of_pending hb hp]
  rfl

/-- A name that is allowed is taken as what it shows. -/
theorem plainKey_of_checkName {v : Value} (h : checkName v = .ok name) :
    v.plainKey = .text name := by
  unfold checkName at h
  split at h
  case h_1 key hkey =>
    rw [hkey]
    split at h
    · cases h
    · split at h
      · cases h
      · exact congrArg Value.text (Except.ok.inj h)
  case h_2 => cases h

/-- What was registered is stored. -/
theorem lookup?_of_registerWith {resolve : String → RegistryM Entry} {d : Definition}
    (h : (registerWith resolve (.text name) d).run r = (.ok e, r')) :
    Table.lookup? name r'.built = some e := by
  rw [run_registerWith] at h
  cases hname : checkName (.text name) with
  | error f =>
    rw [hname] at h
    cases h
  | ok key =>
    obtain rfl : name = key := Value.text.inj (plainKey_of_checkName hname)
    rw [hname] at h
    dsimp only at h
    rcases hrun : (buildWith resolve name d).run r with ⟨f | e', p⟩
    · rw [hrun] at h
      cases h
    · rw [hrun] at h
      cases h
      exact Table.lookup?_insert_self name e p.built

/-! ### What a computation does -/

/-- An annotation is compiled afresh from one moment to another. -/
def Compiles (depth : Nat) (source : String) (e : Entry) (m m' : Registry) : Prop :=
  (compileAfresh depth source).run m = (.ok e, m')

/-- At some moment on the way, an annotation was compiled afresh with this result. -/
def Dated (q : Registry) (source : String) (e : Entry) (p : Registry) : Prop :=
  ∃ past m depth m' since, Course q past m ∧ Compiles depth source e m m' ∧ Course m' since p

theorem Dated.trans (hx : Course q xs r) (h : Dated r source e r') (hy : Course r' ys p) :
    Dated q source e p := by
  obtain ⟨past, m, depth, m', since, hpast, hm, hsince⟩ := h
  exact ⟨xs ++ past, m, depth, m', since ++ ys, hx.trans hpast, hm, hsince.trans hy⟩

/-- From one moment to another by nested events, and what is then stored for annotations
was stored before or compiled on the way. -/
structure Leads (quiet : Bool) (r p : Registry) : Prop where
  course : ∃ since, Course r since p ∧ Nested quiet since
  dated : ∀ source e, Table.lookup? source p.compiled = some e →
    Table.lookup? source r.compiled = some e ∨ Dated r source e p

/-- A computation that leads somewhere, whatever its outcome. -/
def Moves (quiet : Bool) (x : RegistryM α) : Prop :=
  ∀ r, Leads quiet r (x.run r).2

theorem Leads.refl (quiet : Bool) (r : Registry) : Leads quiet r r where
  course := ⟨[], .refl, .nil quiet⟩
  dated _ _ h := .inl h

/-- Steps that do not touch the stored annotations. -/
theorem Leads.of_course (h : Course r since p) (hn : Nested quiet since)
    (hc : p.compiled = r.compiled) : Leads quiet r p where
  course := ⟨since, h, hn⟩
  dated _ _ h := .inl (hc ▸ h)

theorem Leads.trans (hx : Leads quiet r m) (hy : Leads quiet m p) : Leads quiet r p := by
  obtain ⟨xs, hxs, hnx⟩ := hx.course
  obtain ⟨ys, hys, hny⟩ := hy.course
  refine ⟨⟨xs ++ ys, hxs.trans hys, hnx.append hny⟩, fun source e he => ?_⟩
  obtain he | hd := hy.dated source e he
  · exact (hx.dated source e he).imp_right fun hd => hd.trans .refl hys
  · exact .inr (hd.trans hxs .refl)

theorem Leads.loud (h : Leads quiet r p) : Leads false r p := by
  obtain ⟨since, hc, hn⟩ := h.course
  exact ⟨⟨since, hc, hn.loud⟩, h.dated⟩

theorem moves_pure (a : α) : Moves quiet (pure a : RegistryM α) :=
  fun r => .refl quiet r

theorem moves_throw (f : Fault) : Moves quiet (throw f : RegistryM α) :=
  fun r => .refl quiet r

theorem Moves.bind {x : RegistryM α} {f : α → RegistryM β} (hx : Moves quiet x)
    (hf : ∀ a, Moves quiet (f a)) : Moves quiet (x >>= f) := by
  intro r
  have hstart := hx r
  rw [run_bind]
  rcases hrun : x.run r with ⟨e | a, m⟩
  · rw [hrun] at hstart
    exact hstart
  · rw [hrun] at hstart
    exact hstart.trans (hf a m)

theorem Moves.loud {x : RegistryM α} (hx : Moves quiet x) : Moves false x :=
  fun r => (hx r).loud

/-- What is done does not depend on whether a fault is caught. -/
theorem Moves.attempt {x : RegistryM α} (hx : Moves quiet x) : Moves quiet (attempt x) :=
  hx

theorem moves_get : Moves quiet (get : RegistryM Registry) :=
  fun r => .refl quiet r

/-! ### Operations, given how names are resolved -/

theorem moves_adopt (v : Validator) : Moves quiet (adopt v) := by
  intro r
  obtain ⟨e, -, hrun | hrun⟩ := run_adopt v r
  · rw [hrun]
    exact .refl quiet r
  · rw [hrun]
    exact .of_course (Step.make r).course (.nil quiet) rfl

theorem moves_read (source : String) : Moves quiet (Registry.read source) := by
  intro r
  obtain ⟨warnings, p, hrun, hcourse, hcompiled⟩ := course_read source r
  rw [hrun]
  exact .of_course hcourse (nested_warnings quiet warnings) hcompiled

theorem moves_resolveBuiltin (name : String) : Moves quiet (resolveBuiltin name) := by
  unfold resolveBuiltin
  cases Predicate.ofName name with
  | error e => exact moves_throw _
  | ok found =>
    cases found with
    | none => exact moves_throw _
    | some p => exact moves_adopt _

theorem moves_postpone (name : Value) (recipe : Recipe) : Moves false (postpone name recipe) := by
  intro r
  rw [run_postpone]
  cases checkName name with
  | error f => exact .refl false r
  | ok key => exact .of_course (Step.postpone r key recipe).course (.postponed key) rfl

theorem moves_store (name : String) (e : Entry) : Moves false (do store name e; return e) :=
  fun r => .of_course (Step.store r name e).course (.registered name) rfl

theorem moves_takeNote (memory : Value) : Moves false (takeNote memory) :=
  fun r => .of_course (Step.takeNote r memory).course (.nil false) rfl

theorem simulation_moves : Simulation fun α (x : RegistryM α) (_ : Unit → RegistryM α) =>
    Moves quiet x where
  pure a := moves_pure a
  throw _ := moves_throw _
  bind hx hf := hx.bind hf

section Resolving

variable (hresolve : ∀ name, Moves true (resolveWithin depth name))

include hresolve

theorem moves_compileNode (n : Node) : Moves true (compileNode (resolveWithin depth) n) := by
  have hcompile : Moves true
      (n.compile fun name => return (← resolveWithin depth name).validator) :=
    simulation_moves.compile_of_leafNames _ (fun _ name => return (← resolveWithin depth name).validator)
      n fun name _ => (hresolve name).bind fun e => moves_pure e.validator
  cases n with
  | leaf name => exact hresolve name
  | _ => exact hcompile.bind fun v => moves_adopt v

theorem moves_compileAfresh (source : String) : Moves true (compileAfresh depth source) :=
  (moves_read source).bind fun n => moves_compileNode hresolve n

/-- An annotation is stored when it was compiled. -/
theorem moves_compileWith (source : String) :
    Moves true (compileWith (resolveWithin depth) source) := by
  intro r
  cases hc : Table.lookup? source r.compiled with
  | some e =>
    rw [run_compileWith_of_some hc]
    exact .refl true r
  | none =>
    rw [run_compileWith_of_none hc]
    have hfresh := moves_compileAfresh hresolve source r
    change Leads true r (proceed (keep source) ((compileAfresh depth source).run r)).2
    rcases hrun : (compileAfresh depth source).run r with ⟨f | e, m⟩
    · rw [hrun] at hfresh
      exact hfresh
    · rw [hrun] at hfresh
      obtain ⟨since, hcourse, hn⟩ := hfresh.course
      have hkeep := Step.keep m source e
      refine ⟨⟨since, ?_, hn⟩, fun other e' he => ?_⟩
      · have := hcourse.tail hkeep
        rwa [List.append_nil] at this
      · obtain ⟨rfl, rfl⟩ | he := Table.lookup?_insert_cases he
        · exact .inr ⟨[], r, depth, m, [], .refl, hrun, hkeep.course⟩
        · exact (hfresh.dated other e' he).imp_right fun hd => hd.trans .refl hkeep.course

theorem moves_buildWith (name : String) (d : Definition) :
    Moves true (buildWith (resolveWithin depth) name d) := by
  cases d with
  | validator v => exact moves_adopt v
  | entry e => exact moves_pure e
  | text source => exact moves_compileWith hresolve source
  | node n => exact moves_throw _
  | foreign kind => exact moves_throw _
  | function f =>
    rw [buildWith]
    split
    · exact moves_adopt _
    · exact moves_throw _

theorem moves_registerWith (name : Value) (d : Definition) :
    Moves false (registerWith (resolveWithin depth) name d) := by
  unfold registerWith
  cases checkName name with
  | error f => exact moves_throw f
  | ok key => exact (moves_buildWith hresolve key d).loud.bind fun e => moves_store key e

/-- Whatever a recipe does, what it catches and which way it goes on. -/
theorem moves_runRecipe (recipe : Recipe) :
    Moves false (runRecipe (resolveWithin depth) recipe) := by
  induction recipe with
  | define d => exact moves_pure d
  | raise f => exact moves_throw f
  | register name d next ih =>
    exact (moves_registerWith hresolve name d).attempt.bind fun outcome => ih outcome
  | postpone name recipe next _ ih =>
    exact (moves_postpone name recipe).attempt.bind fun outcome => ih outcome
  | postponeNumbered name number next ih =>
    exact moves_get.bind fun r =>
      (moves_postpone name (r.host.recipes number)).attempt.bind fun outcome => ih outcome
  | resolve name next ih => exact (hresolve name).loud.attempt.bind fun outcome => ih outcome
  | compile source next ih =>
    exact (moves_compileWith hresolve source).loud.attempt.bind fun outcome => ih outcome
  | look next ih => exact moves_get.bind fun r => ih r.sight
  | keep memory next ih => exact (moves_takeNote memory).bind fun _ => ih

theorem moves_buildName (name : String) (recipe : Recipe) :
    Moves false (buildName (resolveWithin depth) name recipe) :=
  (moves_runRecipe hresolve recipe).bind fun d => moves_registerWith hresolve (.text name) d

end Resolving

/-! ### Resolving -/

/-- To begin with the build of a name is under way, and it is to its end. -/
theorem busy_enter (r : Registry) (name : String) : (r.enter name).busy = name :: r.busy :=
  trackAll_concat [] r.journal (.started name)

/-- The build of a name that came to a fault ends by a step. -/
theorem exists_step_stop {outer : List String} (hbusy : p.busy = name :: outer) (recipe : Recipe)
    (f : Fault) : ∃ ending, Step p [.ended name ending] (p.stop name recipe f) := by
  unfold stop
  split
  · exact ⟨.abandoned, .abandon hbusy⟩
  · exact ⟨.failed, .fail hbusy recipe⟩

theorem compiled_stop (r : Registry) (name : String) (recipe : Recipe) (f : Fault) :
    (r.stop name recipe f).compiled = r.compiled := by
  unfold stop
  split <;> rfl

/-- Building a pending name is a step into it, what its recipe and the registration of the
outcome do, and a step out of it. -/
theorem Leads.settle {recipe : Recipe} {outcome : Except Fault Entry × Registry}
    (h : Leads false (r.enter name) outcome.2)
    (hb : Table.lookup? name r.built = none) (hp : Table.lookup? name r.pending = some recipe)
    (hbuilt : ∀ e, outcome.1 = .ok e → Table.lookup? name outcome.2.built = some e) :
    Leads quiet r (settle name recipe outcome).2 := by
  obtain ⟨since, hcourse, hn⟩ := h.course
  have hbusy : outcome.2.busy = name :: r.busy := by
    rw [hcourse.busy_eq, busy_enter, hn.trackAll_eq]
  have hin : Course r (.started name :: since) outcome.2 := (Step.start hb hp).course.trans hcourse
  -- whichever way the build ends, it is one step that leaves what is stored for annotations
  have hleave : ∀ {ending : Ending} {p' : Registry}, Step outcome.2 [.ended name ending] p' →
      p'.compiled = outcome.2.compiled → Leads quiet r p' := by
    intro ending p' hout hc
    refine ⟨⟨_, hin.tail hout, .build quiet name ending hn⟩, fun source e he => ?_⟩
    rw [hc] at he
    refine (h.dated source e he).imp_right fun hd => ?_
    exact hd.trans (Step.start hb hp).course hout.course
  rcases outcome with ⟨f | e, p⟩
  · obtain ⟨ending, hout⟩ := exists_step_stop hbusy recipe f
    exact hleave hout (compiled_stop p name recipe f)
  · exact hleave (.succeed hbusy (hbuilt e rfl)) rfl

/-- What is built is stored. -/
theorem lookup?_of_buildName {resolve : String → RegistryM Entry} {recipe : Recipe}
    (h : (buildName resolve name recipe).run r = (.ok e, p)) :
    Table.lookup? name p.built = some e := by
  obtain ⟨d, m, -, h⟩ := ok_of_run_bind h
  exact lookup?_of_registerWith h

/-- To look a name up is to find it, to fall back on what it stands for without registration, or
to build it. -/
theorem moves_lookUp {build : Recipe → RegistryM Entry}
    (hbuild : ∀ r recipe, Table.lookup? name r.built = none →
      Table.lookup? name r.pending = some recipe → Leads true r ((build recipe).run r).2) :
    Moves true (lookUp build name) := by
  intro r
  cases hb : Table.lookup? name r.built with
  | some e =>
    rw [run_lookUp_of_built hb]
    exact .refl true r
  | none =>
    cases hp : Table.lookup? name r.pending with
    | none =>
      rw [run_lookUp_of_absent hb hp]
      exact moves_resolveBuiltin name r
    | some recipe =>
      rw [run_lookUp_of_pending hb hp]
      exact hbuild r recipe hb hp

/-- However recipes refer to each other and however deep builds may be nested. -/
theorem moves_resolveWithin (depth : Nat) (name : String) :
    Moves true (resolveWithin depth name) := by
  induction depth generalizing name with
  | zero => exact moves_lookUp fun r _ _ _ => .refl true r
  | succ depth ih =>
    refine moves_lookUp fun r recipe hb hp => ?_
    rw [run_settlePending]
    refine (moves_buildName ih name recipe (r.enter name)).settle hb hp fun e he => ?_
    exact lookup?_of_buildName (Prod.ext he rfl)

/-! ### Histories -/

/-- Putting a result in another form changes nothing. -/
theorem Moves.map {x : RegistryM α} (h : Moves quiet x) (f : α → β) :
    Moves quiet (x >>= fun a => pure (f a)) :=
  h.bind fun a => moves_pure (f a)

theorem moves_register (name : Value) (d : Definition) : Moves false (register name d) :=
  fun r => moves_registerWith (moves_resolveWithin r.levels) name d r

theorem moves_resolve (name : String) : Moves true (resolve name) :=
  fun r => moves_resolveWithin r.levels name r

theorem moves_compile (source : String) : Moves true (compile source) :=
  fun r => moves_compileWith (moves_resolveWithin r.levels) source r

/-- Every operation leads somewhere. -/
theorem leads_after (r : Registry) (a : Action) : Leads false r (r.after a) := by
  cases a with
  | register name d => exact (moves_register name d).map some r
  | resolve name => exact ((moves_resolve name).map some r).loud
  | compile source => exact ((moves_compile source).map some r).loud
  | knows name =>
    rw [after_knows]
    exact .refl false r
  | postpone name recipe => exact (moves_postpone name recipe).map (fun _ => none) r

theorem leads_afterAll (r : Registry) (actions : List Action) :
    Leads false r (r.afterAll actions) := by
  induction actions generalizing r with
  | nil => exact .refl false r
  | cons a rest ih => exact (leads_after r a).trans (ih (r.after a))

theorem moves_registerAll (definitions : List (Value × Definition)) :
    Moves false (definitions.forM fun p => do let _ ← register p.1 p.2 : RegistryM Unit) := by
  induction definitions with
  | nil => exact moves_pure ()
  | cons d rest ih => exact ((moves_register d.1 d.2).map fun _ => ()).bind fun _ => ih

theorem leads_ofDefinitions (warns : Bool) (definitions : List (Value × Definition))
    (host : Host) : Leads false (empty warns host) (ofDefinitions warns definitions host).2 :=
  moves_registerAll definitions (empty warns host)

/-- A registry with a history has taken a course since it was empty. -/
theorem leads_history {warns : Bool} {definitions : List (Value × Definition)} {host : Host}
    {start : Registry} (h : (ofDefinitions warns definitions host).2 = start)
    (actions : List Action) : Leads false (empty warns host) (start.afterAll actions) :=
  (h ▸ leads_ofDefinitions warns definitions host).trans (leads_afterAll start actions)

/-- Between operations nothing is being built. -/
theorem Leads.busy_eq (h : Leads quiet r p) : p.busy = r.busy := by
  obtain ⟨since, hcourse, hn⟩ := h.course
  rw [hcourse.busy_eq, hn.trackAll_eq]

end StructuralTypes.Registry

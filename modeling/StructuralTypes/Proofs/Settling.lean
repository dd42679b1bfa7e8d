import StructuralTypes.Proofs.NameKeeping

/-! Building a pending name. Until a name is defined other than in the course of building
it, at most one of its builds that are not part of another one succeeds, and from then on
it keeps the validator; a recipe is not started again while it runs, unless its name is made
pending again; and a build that fails with an error leaves the name pending. -/

namespace StructuralTypes

namespace Event

variable {name : String} {busy : List String} {events : List Event}

/-- What is being built was being built before or has been started. -/
theorem mem_or_started_of_mem_trackAll (h : name ∈ trackAll busy events) :
    name ∈ busy ∨ started name ∈ events := by
  induction events generalizing busy with
  | nil => exact .inl h
  | cons e rest ih =>
    obtain h | h := ih h
    · cases e with
      | started other =>
        obtain rfl | h := List.mem_cons.1 h
        · exact .inr List.mem_cons_self
        · exact .inl h
      | ended other ending => exact .inl (List.mem_of_mem_tail h)
      | _ => exact .inl h
    · exact .inr (List.mem_cons_of_mem _ h)

theorem completions_eq_zero (h : ended name .built ∉ events) : completions name busy events = 0 := by
  rw [completions, List.countP_eq_zero]
  intro p hp hdone
  obtain ⟨hended, -⟩ := of_decide_eq_true hdone
  exact h (hended ▸ mem_of_mem_situated hp)

/-- The end of a build counts unless it is part of another build of the name. -/
theorem completions_ended (name : String) (outer : List String) :
    completions name (name :: outer) [ended name .built] = if name ∈ outer then 0 else 1 := by
  by_cases h : name ∈ outer <;> simp [completions, situated, h]

end Event

namespace Registry

open Event

variable {q r r' m p : Registry} {name : String} {depth : Nat} {e : Entry}
  {es xs ys since outer : List Event} {recipe : Recipe}

/-! ### What a step does to one name -/

/-- Only a definition of a name changes its validator. -/
theorem Step.lookup?_built (hs : Step r es r') (h : ∀ e ∈ es, e.defined? ≠ some name) :
    Table.lookup? name r'.built = Table.lookup? name r.built := by
  cases hs with
  | store other e =>
    have hne : name ≠ other := fun hn => h _ List.mem_cons_self (congrArg some hn.symm)
    exact Table.lookup?_insert_of_ne hne e r.built
  | postpone other recipe =>
    have hne : name ≠ other := fun hn => h _ List.mem_cons_self (congrArg some hn.symm)
    exact (Table.lookup?_erase other name r.built).trans (if_neg hne)
  | _ => rfl

/-- A name becomes pending by a definition or because a build of it failed. -/
theorem Step.lookup?_pending (hs : Step r es r') (h : Table.lookup? name r.pending = none)
    (hdef : .postponed name ∉ es) (hfail : .ended name .failed ∉ es) :
    Table.lookup? name r'.pending = none := by
  cases hs with
  | warn | make | keep | takeNote | succeed | abandon => exact h
  | store other e => exact (Table.lookup?_erase other name r.pending).trans (by rw [h, ite_self])
  | start => exact (Table.lookup?_erase _ name r.pending).trans (by rw [h, ite_self])
  | postpone other recipe =>
    have hne : name ≠ other := fun hn => hdef (hn ▸ List.mem_cons_self)
    exact (Table.lookup?_insert_of_ne hne recipe r.pending).trans h
  | @fail other outer inside recipe =>
    have hne : name ≠ other := fun hn => hfail (hn ▸ List.mem_cons_self)
    unfold giveUp
    dsimp only
    split
    · exact h
    · exact (Table.lookup?_insert_of_ne hne recipe r.pending).trans h

theorem Step.of_started (hs : Step r es r') (h : .started name ∈ es) :
    Table.lookup? name r.built = none ∧ (∃ recipe, Table.lookup? name r.pending = some recipe)
      ∧ Table.lookup? name r'.pending = none := by
  cases hs with
  | @start other recipe absent waiting =>
    obtain rfl := Event.started.inj (List.mem_singleton.1 h)
    exact ⟨absent, ⟨recipe, waiting⟩, Table.lookup?_erase_self name r.pending⟩
  | make | keep | takeNote => cases h
  | _ => cases List.mem_singleton.1 h

theorem Step.of_ended {ending : Ending} (hs : Step r es r') (h : .ended name ending ∈ es) :
    es = [.ended name ending] ∧ (∃ outer, r.busy = name :: outer)
      ∧ (ending = .built → ∃ e, Table.lookup? name r'.built = some e) := by
  cases hs with
  | @succeed other outer e inside present =>
    obtain ⟨rfl, rfl⟩ := Event.ended.inj (List.mem_singleton.1 h)
    exact ⟨rfl, ⟨outer, inside⟩, fun _ => ⟨e, present⟩⟩
  | @fail other outer inside | @abandon other outer inside =>
    obtain ⟨rfl, rfl⟩ := Event.ended.inj (List.mem_singleton.1 h)
    exact ⟨rfl, ⟨outer, inside⟩, nofun⟩
  | make | keep | takeNote => cases h
  | _ => cases List.mem_singleton.1 h

/-! ### Settled names -/

/-- Whether a name has a validator and is not being built. -/
structure Settled (name : String) (e : Entry) (r : Registry) : Prop where
  idle : name ∉ r.busy
  built : Table.lookup? name r.built = some e

/-- Events of a step of which none defines an idle name. -/
theorem defined?_ne_of_not_definedOutside (hs : Step r es r') (hidle : name ∉ r.busy)
    (hout : ¬DefinedOutside name r.busy es) : ∀ e ∈ es, e.defined? ≠ some name := by
  intro e he hd
  obtain rfl | ⟨e', rfl⟩ := hs.events_eq
  · cases he
  · obtain rfl := List.mem_singleton.1 he
    exact hout (definedOutside_singleton.2 ⟨hd, hidle⟩)

/-- Only a definition from outside unsettles a name. -/
theorem Step.settled (hs : Step r es r') (h : Settled name e r)
    (hout : ¬DefinedOutside name r.busy es) :
    Settled name e r' ∧ .started name ∉ es ∧ .ended name .built ∉ es := by
  have hdef := defined?_ne_of_not_definedOutside hs h.idle hout
  have hstart : .started name ∉ es := fun hn => by
    cases h.built.symm.trans (hs.of_started hn).1
  refine ⟨⟨fun hn => ?_, (hs.lookup?_built hdef).trans h.built⟩, hstart, fun hn => ?_⟩
  · rw [hs.busy_eq] at hn
    exact (mem_or_started_of_mem_trackAll hn).elim h.idle hstart
  · obtain ⟨-, ⟨outer, hbusy⟩, -⟩ := hs.of_ended hn
    exact h.idle (hbusy ▸ List.mem_cons_self)

/-- A settled name stays settled, and no build of it is started or ends. -/
theorem Course.settled (hc : Course q since p) (h : Settled name e q)
    (hout : ¬DefinedOutside name q.busy since) :
    Settled name e p ∧ .started name ∉ since ∧ .ended name .built ∉ since := by
  induction hc with
  | refl => exact ⟨h, List.not_mem_nil, List.not_mem_nil⟩
  | tail hc hs ih =>
    rw [definedOutside_append, not_or, ← hc.busy_eq] at hout
    obtain ⟨hm, hstart, hend⟩ := ih hout.1
    obtain ⟨hp, hstart', hend'⟩ := hs.settled hm hout.2
    exact ⟨hp, by simp [hstart, hstart'], by simp [hend, hend']⟩

/-- Until a name is defined from outside, at most one of its builds that are not part of
another one succeeds. -/
theorem Course.completions_le_one (hc : Course q since p)
    (hout : ¬DefinedOutside name q.busy since) : completions name q.busy since ≤ 1 := by
  have hstrong : completions name q.busy since = 0
      ∨ completions name q.busy since = 1 ∧ ∃ e, Settled name e p := by
    induction hc with
    | refl => exact .inl rfl
    | @tail xs es m p hc hs ih =>
      rw [definedOutside_append, not_or, ← hc.busy_eq] at hout
      rw [completions_append, ← hc.busy_eq]
      obtain hzero | ⟨hone, e, hm⟩ := ih hout.1
      · by_cases hend : .ended name .built ∈ es
        · obtain ⟨rfl, ⟨outer, hbusy⟩, hbuilt⟩ := hs.of_ended hend
          obtain ⟨e, he⟩ := hbuilt rfl
          rw [hzero, hbusy, completions_ended]
          by_cases hn : name ∈ outer
          · exact .inl (by rw [if_pos hn])
          · refine .inr ⟨by rw [if_neg hn], e, ?_, he⟩
            rw [hs.busy_eq, hbusy]
            exact hn
        · exact .inl (by rw [hzero, completions_eq_zero hend])
      · obtain ⟨hp, -, hend⟩ := hs.settled hm hout.2
        exact .inr ⟨by rw [hone, completions_eq_zero hend], e, hp⟩
  omega

/-! ### Builds under way -/

/-- Whether a name is being built, is not pending, and no other build of it was started
since. -/
structure Shut (name : String) (below : List String) (r : Registry) : Prop where
  pending : Table.lookup? name r.pending = none
  inside : ∃ inner, r.busy = inner ++ name :: below ∧ name ∉ inner

/-- As long as a build stays under way, only names above it come and go. -/
theorem exists_track_eq {inner below : List String} {e : Event} (hinner : name ∉ inner)
    (hstart : e ≠ .started name) (hstay : name :: below <:+ e.track (inner ++ name :: below)) :
    ∃ inner', e.track (inner ++ name :: below) = inner' ++ name :: below ∧ name ∉ inner' := by
  cases e with
  | started other =>
    refine ⟨other :: inner, rfl, ?_⟩
    rw [List.mem_cons, not_or]
    exact ⟨fun hn => hstart (hn ▸ rfl), hinner⟩
  | ended other ending =>
    cases inner with
    | nil => exact absurd hstay.length_le (by simp [track])
    | cons first rest => exact ⟨rest, rfl, fun hn => hinner (List.mem_cons_of_mem _ hn)⟩
  | _ => exact ⟨inner, rfl, hinner⟩

theorem Step.shut {below : List String} (hs : Step r es r') (h : Shut name below r)
    (hstay : name :: below <:+ r'.busy) (hdef : .postponed name ∉ es) :
    Shut name below r' ∧ .started name ∉ es := by
  obtain ⟨inner, hr, hinner⟩ := h.inside
  have hstart : .started name ∉ es := fun hn => by
    obtain ⟨-, ⟨recipe, hwait⟩, -⟩ := hs.of_started hn
    cases h.pending.symm.trans hwait
  rw [hs.busy_eq, hr] at hstay
  have hfail : .ended name .failed ∉ es := by
    intro hn
    obtain ⟨rfl, ⟨outer, houter⟩, -⟩ := hs.of_ended hn
    -- the build that would end is the one that stays under way
    cases inner with
    | nil => exact absurd hstay.length_le (by simp [track])
    | cons first rest =>
      rw [hr] at houter
      exact hinner ((List.cons.inj houter).1 ▸ List.mem_cons_self)
  refine ⟨⟨hs.lookup?_pending h.pending hdef hfail, ?_⟩, hstart⟩
  rw [hs.busy_eq, hr]
  obtain rfl | ⟨e, rfl⟩ := hs.events_eq
  · exact ⟨inner, rfl, hinner⟩
  · exact exists_track_eq hinner (fun he => hstart (he ▸ List.mem_cons_self)) hstay

/-- While a name is being built and not made pending again, no build of it is started. -/
theorem Course.shut {below : List String} (hc : Course q since p) (hbusy : q.busy = name :: below)
    (hq : Table.lookup? name q.pending = none) (hstay : Stay q.busy since)
    (hdef : .postponed name ∉ since) : Shut name below p ∧ .started name ∉ since := by
  induction hc with
  | refl => exact ⟨⟨hq, [], hbusy, List.not_mem_nil⟩, List.not_mem_nil⟩
  | @tail xs es m p hc hs ih =>
    rw [List.mem_append, not_or] at hdef
    have hfront : Stay q.busy xs := fun front hf => hstay front (hf.trans (List.prefix_append xs es))
    obtain ⟨hm, hstart⟩ := ih hfront hdef.1
    have hlast : name :: below <:+ p.busy := by
      rw [(hc.tail hs).busy_eq, ← hbusy]
      exact hstay _ List.prefix_rfl
    obtain ⟨hp, hstart'⟩ := hs.shut hm hlast hdef.2
    exact ⟨hp, by simp [hstart, hstart']⟩

/-- Steps without events leave the pending names alone. -/
theorem Course.pending_eq (hc : Course q [] p) : p.pending = q.pending := by
  generalize hnil : ([] : List Event) = events at hc
  induction hc with
  | refl => rfl
  | tail hc hs ih =>
    obtain ⟨rfl, rfl⟩ := List.append_eq_nil_iff.1 hnil.symm
    cases hs <;> exact ih rfl

theorem Course.of_started (hc : Course q [.started name] p) :
    (∃ recipe, Table.lookup? name q.pending = some recipe)
      ∧ Table.lookup? name p.pending = none := by
  generalize hone : [Event.started name] = events at hc
  induction hc with
  | refl => cases hone
  | tail hc hs ih =>
    obtain ⟨rfl, rfl⟩ | ⟨rfl, rfl⟩ := List.append_eq_singleton_iff.1 hone.symm
    · obtain ⟨-, hwait, hgone⟩ := hs.of_started List.mem_cons_self
      exact ⟨hc.pending_eq ▸ hwait, hgone⟩
    · obtain ⟨hwait, hgone⟩ := ih rfl
      exact ⟨hwait, hs.course.pending_eq ▸ hgone⟩

/-- A name without a validator gets one by being registered. -/
theorem Course.lookup?_built_none (hc : Course q since p)
    (hq : Table.lookup? name q.built = none) (hdef : .registered name ∉ since) :
    Table.lookup? name p.built = none := by
  induction hc with
  | refl => exact hq
  | tail hc hs ih =>
    rw [List.mem_append, not_or] at hdef
    have hm := ih hdef.1
    cases hs with
    | store other e =>
      have hne : name ≠ other := fun hn => hdef.2 (hn ▸ List.mem_cons_self)
      exact (Table.lookup?_insert_of_ne hne e _).trans hm
    | postpone other recipe => exact (Table.lookup?_erase other name _).trans (by rw [hm, ite_self])
    | _ => exact hm

/-! ### Lazy types -/

/-- Until a name is defined from outside, at most one of its builds that are not part of
another one succeeds. -/
def BuiltOnce (name : String) (journal : List Event) : Prop :=
  ∀ before during after, journal = before ++ (during ++ after) →
    ¬DefinedOutside name (trackAll [] before) during →
      completions name (trackAll [] before) during ≤ 1

/-- A build of a name is not started while another one is under way, unless the name was made
pending in between. -/
def NotReentered (name : String) (journal : List Event) : Prop :=
  ∀ before during after,
    journal = before ++ (.started name :: during ++ .started name :: after) →
      Stay (name :: trackAll [] before) during → .postponed name ∈ during

/-- At whatever moment a build of a name fails with an error, the name is pending afterwards,
with the recipe that failed or one from in between; and the next time it is resolved with a
level left a build is started, unless it was given a validator in between. -/
def FailsOpen (name : String) : Prop :=
  ∀ {q p : Registry} {depth : Nat} {recipe : Recipe} {f : Fault}, 0 < depth →
    Table.lookup? name q.built = none → Table.lookup? name q.pending = some recipe →
      (resolveWithin depth name).run q = (.error f, p) → f.isSignal = false →
        ∃ since again, p.journal = q.journal ++ (.started name :: since ++ [.ended name .failed])
          ∧ Table.lookup? name p.pending = some again
          ∧ (.postponed name ∉ since → again = recipe)
          ∧ (.registered name ∉ since → ∀ depth, 0 < depth → ∃ more,
            ((resolveWithin depth name).run p).2.journal = p.journal ++ .started name :: more)

/-- At whatever moment a registered name that is not being built is resolved, from then on until
it is defined from outside no build of it is started, and resolving it gives the same object
and does nothing else. -/
def StaysPut (name : String) : Prop :=
  ∀ {q q' : Registry} {depth : Nat} {e : Entry}, name ∉ q.busy → name ∈ q.names →
    (resolveWithin depth name).run q = (.ok e, q') →
      ∀ {since : List Event} {p : Registry}, Course q' since p →
        ¬DefinedOutside name q'.busy since →
          .started name ∉ since ∧ ∀ depth, (resolveWithin depth name).run p = (.ok e, p)

theorem Course.builtOnce {warns : Bool} {host : Host}
    (hc : Course (empty warns host) p.journal p) (name : String) :
    BuiltOnce name p.journal := by
  intro before during after hjournal hout
  rw [hjournal] at hc
  obtain ⟨q, hbefore, hc⟩ := hc.cut
  obtain ⟨m, hduring, -⟩ := hc.cut
  have hbusy : q.busy = trackAll [] before := hbefore.busy_eq
  rw [← hbusy] at hout ⊢
  exact hduring.completions_le_one hout

theorem Course.notReentered {warns : Bool} {host : Host}
    (hc : Course (empty warns host) p.journal p) (name : String) : NotReentered name p.journal := by
  intro before during after hjournal hstay
  by_contra hdef
  rw [hjournal] at hc
  obtain ⟨q, hbefore, hc⟩ := hc.cut
  obtain ⟨m, hc, hlast⟩ := hc.cut
  obtain ⟨q', hfirst, hduring⟩ := (show Course q ([.started name] ++ during) m from hc).cut
  obtain ⟨m', hlast, -⟩ := (show Course m ([.started name] ++ after) p from hlast).cut
  have hbusy : q'.busy = name :: trackAll [] before := by
    rw [hfirst.busy_eq, hbefore.busy_eq]
    rfl
  rw [← hbusy] at hstay
  obtain ⟨hm, -⟩ := hduring.shut hbusy hfirst.of_started.2 hstay hdef
  obtain ⟨recipe, hwait⟩ := hlast.of_started.1
  cases hm.pending.symm.trans hwait

/-- Where something is pending an operation has a level for a build. -/
theorem levels_pos (hp : Table.has name r.pending = true) : 0 < r.levels := by
  obtain ⟨recipe, hp⟩ := Option.isSome_iff_exists.1 hp
  have hlt := Table.length_erase_lt hp
  unfold levels
  omega

/-- What a build of a name does stands in the journal between its start and its end. -/
theorem course_buildName (depth : Nat) (r : Registry) (name : String) (recipe : Recipe) :
    ∃ since, Course (r.enter name) since
        ((buildName (resolveWithin depth) name recipe).run (r.enter name)).2
      ∧ Nested false since :=
  (moves_buildName (moves_resolveWithin depth) name recipe (r.enter name)).course

theorem Course.journal_of_enter (hc : Course (r.enter name) since p) :
    p.journal = r.journal ++ .started name :: since := by
  rw [hc.journal_eq, enter, List.append_assoc]
  rfl

theorem journal_settle (name : String) (recipe : Recipe) (outcome : Except Fault Entry × Registry) :
    ∃ ending, (settle name recipe outcome).2.journal
      = outcome.2.journal ++ [.ended name ending] := by
  rcases outcome with ⟨f | e, m⟩
  · unfold settle stop
    dsimp only
    split <;> exact ⟨_, rfl⟩
  · exact ⟨.built, rfl⟩

/-- To resolve a pending name is to start a build of it. -/
theorem journal_resolveWithin (hdepth : 0 < depth) (hb : Table.lookup? name r.built = none)
    (hp : Table.lookup? name r.pending = some recipe) : ∃ more,
      ((resolveWithin depth name).run r).2.journal = r.journal ++ .started name :: more := by
  obtain ⟨depth, rfl⟩ := Nat.exists_eq_add_one_of_ne_zero hdepth.ne'
  obtain ⟨since, hcourse, -⟩ := course_buildName depth r name recipe
  rw [run_resolveWithin_of_waiting hb hp]
  obtain ⟨ending, hended⟩ := journal_settle name recipe
    ((buildName (resolveWithin depth) name recipe).run (r.enter name))
  refine ⟨since ++ [.ended name ending], ?_⟩
  rw [hended, hcourse.journal_of_enter, List.append_assoc]
  rfl

theorem failsOpen (name : String) : FailsOpen name := by
  intro q p depth recipe f hdepth hb hp hrun hf
  obtain ⟨depth, rfl⟩ := Nat.exists_eq_add_one_of_ne_zero hdepth.ne'
  obtain ⟨since, hcourse, hn⟩ := course_buildName depth q name recipe
  rw [run_resolveWithin_of_waiting hb hp] at hrun
  rcases hbuild : (buildName (resolveWithin depth) name recipe).run (q.enter name) with ⟨f' | e, m⟩
  · rw [hbuild] at hrun hcourse
    obtain ⟨rfl, rfl⟩ : f' = f ∧ m.stop name recipe f' = p := by
      cases hrun
      exact ⟨rfl, rfl⟩
    have hstop : m.stop name recipe f' = m.giveUp name recipe := by simp [stop, hf]
    rw [hstop]
    have hgone : Table.lookup? name (q.enter name).pending = none :=
      Table.lookup?_erase_self name q.pending
    obtain ⟨again, hagain⟩ := Option.isSome_iff_exists.1
      ((has_pending_giveUp m name recipe).2 (.inl rfl))
    refine ⟨since, again, ?_, hagain, fun hdef => ?_, fun hdef depth hdepth => ?_⟩
    · have hjournal : m.journal = _ := hcourse.journal_of_enter
      rw [giveUp, hjournal, List.append_assoc]
    · obtain ⟨hm, -⟩ := hcourse.shut (busy_enter q name) hgone (hn.stay _) hdef
      unfold giveUp at hagain
      rw [Table.has, hm.pending] at hagain
      exact Option.some.inj (hagain.symm.trans (Table.lookup?_insert_self name recipe m.pending))
    · exact journal_resolveWithin hdepth (hcourse.lookup?_built_none hb hdef) hagain
  · rw [hbuild] at hrun
    cases hrun

theorem staysPut (name : String) : StaysPut name := by
  intro q q' depth e hidle hname hrun
  have hsettled : Settled name e q' := by
    have hlead : Leads true q q' := by
      have := moves_resolveWithin depth name q
      rwa [hrun] at this
    refine ⟨hlead.busy_eq ▸ hidle, ?_⟩
    cases hb : Table.lookup? name q.built with
    | some e' =>
      rw [run_resolveWithin_of_built hb] at hrun
      cases hrun
      exact hb
    | none =>
      have hpending : Table.has name q.pending = true := by
        simpa [mem_names_iff, Table.has, hb] using hname
      obtain ⟨recipe, hp⟩ := Option.isSome_iff_exists.1 hpending
      cases depth with
      | zero =>
        rw [run_resolveWithin_zero hb hp] at hrun
        cases hrun
      | succ below =>
        rw [run_resolveWithin_of_waiting hb hp] at hrun
        rcases hbuild : (buildName (resolveWithin below) name recipe).run (q.enter name)
          with ⟨f | e', m⟩
        · rw [hbuild] at hrun
          cases hrun
        · rw [hbuild] at hrun
          cases hrun
          show Table.lookup? name m.built = some e
          exact lookup?_of_buildName hbuild
  intro since p hc hout
  obtain ⟨hp, hstart, -⟩ := hc.settled hsettled hout
  exact ⟨hstart, fun depth => run_resolveWithin_of_built hp.built⟩

/-- Whatever operations there are, and however they fail, a pending type is built at most
once and then stays put. The last parts say that every operation has a level for a pending
name, and that what comes after a moment is a course. -/
theorem pending_types_settle {warns : Bool} {definitions : List (Value × Definition)} {host : Host}
    {start : Registry} (h : ofDefinitions warns definitions host = (.ok (), start))
    (actions : List Action) (name : String) :
    BuiltOnce name (start.afterAll actions).journal
      ∧ NotReentered name (start.afterAll actions).journal
      ∧ FailsOpen name ∧ StaysPut name
      ∧ (∀ q : Registry, Table.has name q.pending = true → 0 < q.levels)
      ∧ ∀ (q : Registry) (more : List Action), ∃ since, Course q since (q.afterAll more) := by
  obtain ⟨past, hpast, -⟩ := (leads_history (congrArg Prod.snd h) actions).course
  have hjournal : past = (start.afterAll actions).journal := hpast.journal_eq.symm
  rw [hjournal] at hpast
  refine ⟨hpast.builtOnce name, hpast.notReentered name, failsOpen name, staysPut name,
    fun q => levels_pos, fun q more => ?_⟩
  obtain ⟨since, hsince, -⟩ := (leads_afterAll q more).course
  exact ⟨since, hsince⟩

/-- A recipe that needs another name and fails where that is missing. -/
def demanding : Recipe :=
  .resolve "Leaf" <| .orRaise fun _ => .define (.text "Leaf[]")

/-- A type that cannot be built before another one is there. -/
theorem tree_settles : ∃ start, ofDefinitions true [(.text "Id", .text "int")] = (.ok (), start)
    ∧ let r := start.afterAll [.postpone (.text "Tree") demanding, .resolve "Tree",
        .register (.text "Leaf") (.text "Id"), .compile "Tree[]", .resolve "Tree"]
      r.journal = [.registered "Id", .postponed "Tree", .started "Tree", .ended "Tree" .failed,
          .registered "Leaf", .started "Tree", .registered "Tree", .ended "Tree" .built]
        ∧ BuiltOnce "Tree" r.journal ∧ NotReentered "Tree" r.journal
        ∧ FailsOpen "Tree" ∧ StaysPut "Tree" := by
  have hstart : ofDefinitions true [(.text "Id", .text "int")]
      = (.ok (), (ofDefinitions true [(.text "Id", .text "int")]).2) := by cbv
  obtain ⟨honce, halone, hfails, hstays, -⟩ := pending_types_settle hstart
    [.postpone (.text "Tree") demanding, .resolve "Tree", .register (.text "Leaf") (.text "Id"),
      .compile "Tree[]", .resolve "Tree"] "Tree"
  exact ⟨_, hstart, by decide +kernel, honce, halone, hfails, hstays⟩

/-- A recipe that gives its own name a validator and then asks for a name that there is not. -/
def presumptuous : Recipe :=
  .register (.text "n") (.text "int") <| .orRaise fun _ =>
    .resolve "missing" <| .orRaise fun _ => .define (.text "int")

/-- A recipe that makes its own name pending again and has it built before it defines it. -/
def repetitive : Recipe :=
  .postpone (.text "n") (.define (.text "int")) <| .orRaise fun _ =>
    .resolve "n" <| .orRaise fun _ => .define (.text "string")

/-- A build that fails after its recipe gave the name a validator is not tried again, and two
builds of a name succeed though it is defined in the course of building it alone. -/
theorem recipes_for_their_own_name :
    (let r := (empty false).afterAll [.postpone (.text "n") presumptuous, .resolve "n"];
      r.journal = [.postponed "n", .started "n", .registered "n", .ended "n" .failed]
        ∧ ((resolve "n").run r).1.isOk = true ∧ ((resolve "n").run r).2.journal = r.journal)
    ∧ (let r := (empty false).afterAll [.postpone (.text "n") repetitive];
      ∃ since, (r.after (.resolve "n")).journal = r.journal ++ since
        ∧ ¬DefinedOutside "n" [] since ∧ since.count (.ended "n" .built) = 2) := by
  refine ⟨by decide +kernel, ?_⟩
  refine ⟨[.started "n", .postponed "n", .started "n", .registered "n", .ended "n" .built,
    .registered "n", .ended "n" .built], ?_⟩
  decide +kernel

end Registry

end StructuralTypes

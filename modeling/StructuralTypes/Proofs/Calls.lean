import StructuralTypes.Proofs.Assembly
import StructuralTypes.Proofs.Expansion

/-! What compiling asks of a resolver. A tree is read from the front: a name is resolved
once, where it stands, and whatever cannot be compiled ends the reading there. The validator
is the tree over again, with the answers in the places of the names. -/

namespace StructuralTypes

/-- A name that was resolved, and what came of it. -/
structure Call where
  name : String
  answer : Except Fault Validator

section Noting

variable {σ : Type}

/-- Resolves a name and notes the call behind the earlier ones. -/
def noting (resolve : String → ExceptT Fault (StateM σ) Validator) (name : String) :
    ExceptT Fault (StateM (σ × List Call)) Validator :=
  ExceptT.mk fun (s, calls) =>
    let (answer, s') := (resolve name).run s
    (answer, s', calls ++ [⟨name, answer⟩])

end Noting

namespace Node

/-! ### Reading order -/

/-- All that stands in a tree, nodes or not, each before its parts, parts in order. -/
def reading (n : Node) : List Node :=
  n :: n.parts.attach.flatMap fun part => reading part.1
termination_by sizeOf n
decreasing_by exact sizeOf_lt_of_mem_parts part.2

theorem reading_eq (n : Node) : n.reading = n :: n.parts.flatMap reading := by
  rw [reading, List.flatMap_subtype (g := reading) fun part _ => rfl, List.unattach_attach]

/-- Whether something that is not a node stands in the place of one. -/
def isForeign : Node → Bool
  | stray (.value _) => true
  | _ => false

theorem walk_eq_filter (n : Node) : n.walk = n.reading.filter (!·.isForeign) := by
  induction n using induction_parts with
  | h n ih =>
    rw [reading_eq]
    cases hs : n.isStray with
    | false =>
      have hn : n.isForeign = false := by cases n <;> first | rfl | cases hs
      rw [walk_eq_cons hs, List.filter_cons_of_pos (by simp [hn]), List.filter_flatMap]
      exact congrArg _ (List.flatMap_congr ih)
    | true =>
      cases n with
      | stray s => cases s <;> rfl
      | _ => cases hs

theorem leafNames_eq_filterMap (n : Node) : n.leafNames = n.reading.filterMap leafName? := by
  rw [leafNames, walk_eq_filter, List.filterMap_filter]
  congr
  funext k
  cases k with
  | stray s => cases s <;> rfl
  | _ => rfl

/-- What is wrong with a node whatever its names stand for: a composite without members, or
no node at all. -/
def flaw? : Node → Option Cause
  | union [] => some (.emptyComposite "union")
  | intersection [] => some (.emptyComposite "intersection")
  | tuple [] => some (.emptyComposite "tuple")
  | stray .blank => some (.unexpectedNode (variant (stray .blank)))
  | stray (.value _) => some .emptyTree
  | _ => none

/-! ### Calls and answers -/

/-- Nodes that are read to the end: none has a flaw, and each name was resolved to the next
one of some answers. -/
structure Answered (nodes : List Node) (calls : List Call) (answers : List Validator) :
    Prop where
  flawless : ∀ k ∈ nodes, k.flaw? = none
  names : calls.map Call.name = nodes.filterMap leafName?
  answers : calls.map Call.answer = answers.map .ok

/-- A node at which reading stops: a name that cannot be resolved, or a node with a flaw. -/
inductive StopsAt : Node → List Call → Fault → Prop
  | name (name : String) (e : Fault) : StopsAt (leaf name) [⟨name, .error e⟩] e
  | flaw {k : Node} {c : Cause} (h : k.flaw? = some c) : StopsAt k [] (.ofCause c)

/-- Nodes that are read until one of them stops the reading. -/
def Halts (nodes : List Node) (calls : List Call) (e : Fault) : Prop :=
  ∃ before k after, nodes = before ++ k :: after ∧ ∃ passed answers last,
    Answered before passed answers ∧ StopsAt k last e ∧ calls = passed ++ last

/-- A validator of the kind of a node, with as many parts in the same places. -/
def Resembles (k : Node) (v : Validator) : Prop :=
  Assembled (fun _ _ => True) v k

/-- Validators in the order of nodes: all of an answer where the name it was given for
stands, and one like the node where another node stands. -/
inductive Mirrors : List Node → List Validator → List Validator → Prop
  | nil : Mirrors [] [] []
  | name (name : String) (w : Validator) {nodes : List Node} {answers vs : List Validator}
    (h : Mirrors nodes answers vs) : Mirrors (leaf name :: nodes) (w :: answers) (w.walk ++ vs)
  | node {k : Node} {v : Validator} {nodes : List Node} {answers vs : List Validator}
    (hk : k.Resembles v) (h : Mirrors nodes answers vs) :
    Mirrors (k :: nodes) answers (v :: vs)

section Calls

variable {nodes more : List Node} {calls calls' : List Call}
  {answers answers' vs vs' : List Validator} {e : Fault} {k : Node}

theorem answered_nil : Answered [] [] [] :=
  ⟨nofun, rfl, rfl⟩

theorem Answered.append (h : Answered nodes calls answers) (h' : Answered more calls' answers') :
    Answered (nodes ++ more) (calls ++ calls') (answers ++ answers') where
  flawless k hk := (List.mem_append.1 hk).elim (h.flawless k) (h'.flawless k)
  names := by rw [List.map_append, List.filterMap_append, h.names, h'.names]
  answers := by rw [List.map_append, List.map_append, h.answers, h'.answers]

theorem answered_leaf (name : String) (w : Validator) :
    Answered [leaf name] [⟨name, .ok w⟩] [w] where
  flawless k hk := by
    cases List.mem_singleton.1 hk
    rfl
  names := rfl
  answers := rfl

theorem answered_node (hflaw : k.flaw? = none) (hname : k.leafName? = none) :
    Answered [k] [] [] where
  flawless k' hk := by
    cases List.mem_singleton.1 hk
    exact hflaw
  names := by rw [List.filterMap_cons, hname]; rfl
  answers := rfl

theorem StopsAt.halts (h : StopsAt k calls e) (after : List Node) :
    Halts (k :: after) calls e :=
  ⟨[], k, after, rfl, [], [], calls, answered_nil, h, rfl⟩

theorem Halts.append (h : Halts nodes calls e) (more : List Node) :
    Halts (nodes ++ more) calls e := by
  obtain ⟨before, k, after, rfl, hrest⟩ := h
  exact ⟨before, k, after ++ more, by simp, hrest⟩

theorem Answered.halts (h : Answered nodes calls answers) (h' : Halts more calls' e) :
    Halts (nodes ++ more) (calls ++ calls') e := by
  obtain ⟨before, k, after, rfl, passed, answers', last, hb, hk, rfl⟩ := h'
  exact ⟨nodes ++ before, k, after, by simp, calls ++ passed, answers ++ answers', last,
    h.append hb, hk, by simp⟩

/-- The names that were asked for come first among all names. -/
theorem Halts.prefix_names (h : Halts nodes calls e) :
    calls.map Call.name <+: nodes.filterMap leafName? := by
  obtain ⟨before, k, after, rfl, passed, answers, last, hb, hk, rfl⟩ := h
  rw [List.map_append, List.filterMap_append, hb.names]
  refine (List.prefix_append_right_inj _).2 ?_
  cases hk with
  | name name e => exact ⟨after.filterMap leafName?, rfl⟩
  | flaw h => exact List.nil_prefix

theorem Mirrors.append (h : Mirrors nodes answers vs) (h' : Mirrors more answers' vs') :
    Mirrors (nodes ++ more) (answers ++ answers') (vs ++ vs') := by
  induction h with
  | nil => exact h'
  | name name w h ih =>
    rw [List.append_assoc]
    exact .name name w ih
  | node hk h ih => exact .node hk ih

theorem mirrors_leaf (name : String) (w : Validator) : Mirrors [leaf name] [w] w.walk := by
  simpa using Mirrors.name name w .nil

end Calls

/-! ### Computations that read nodes -/

section Reads

variable {σ α β : Type} {nodes more : List Node} {Good : α → List Validator → Prop}
  {Good' : β → List Validator → Prop} {x : ExceptT Fault (StateM (σ × List Call)) α}
  {f : α → ExceptT Fault (StateM (σ × List Call)) β} {k : Node}

/-- A computation that reads some nodes, to the end unless one of them stops it, and whose
result fits the answers. -/
def Reads (nodes : List Node) (Good : α → List Validator → Prop)
    (x : ExceptT Fault (StateM (σ × List Call)) α) : Prop :=
  ∀ s earlier, ∃ outcome s' calls, x.run (s, earlier) = (outcome, s', earlier ++ calls)
    ∧ Outcome.Ends (Halts nodes calls)
      (fun a => ∃ answers, Answered nodes calls answers ∧ Good a answers) outcome

theorem reads_pure {a : α} (h : Good a []) :
    Reads [] Good (pure a : ExceptT Fault (StateM (σ × List Call)) α) := by
  intro s earlier
  exact ⟨.ok a, s, [], by rw [List.append_nil]; rfl, [], answered_nil, h⟩

theorem reads_flaw {c : Cause} (h : k.flaw? = some c) (after : List Node) :
    Reads (k :: after) Good
      (throw (.ofCause c) : ExceptT Fault (StateM (σ × List Call)) α) := by
  intro s earlier
  exact ⟨.error (.ofCause c), s, [], by rw [List.append_nil]; rfl, (StopsAt.flaw h).halts after⟩

theorem reads_noting (resolve : String → ExceptT Fault (StateM σ) Validator) (name : String) :
    Reads [leaf name] (fun w answers => answers = [w]) (noting resolve name) := by
  intro s earlier
  refine ⟨((resolve name).run s).1, ((resolve name).run s).2, [⟨name, ((resolve name).run s).1⟩],
    rfl, ?_⟩
  cases ((resolve name).run s).1 with
  | ok w => exact ⟨[w], answered_leaf name w, rfl⟩
  | error e => exact (StopsAt.name name e).halts []

theorem Reads.imp {Better : α → List Validator → Prop} (h : Reads nodes Good x)
    (hg : ∀ a answers, Good a answers → Better a answers) : Reads nodes Better x := by
  intro s earlier
  obtain ⟨outcome, s', calls, hrun, hends⟩ := h s earlier
  exact ⟨outcome, s', calls, hrun, hends.imp (fun _ h => h) fun a ⟨answers, ha, hgood⟩ =>
    ⟨answers, ha, hg a answers hgood⟩⟩

/-- The nodes of two steps are read one after the other. -/
theorem Reads.bind {Mid : α → List Validator → Prop} (h : Reads nodes Mid x)
    (hf : ∀ a answers, Mid a answers →
      Reads more (fun b answers' => Good' b (answers ++ answers')) (f a)) :
    Reads (nodes ++ more) Good' (x >>= f) := by
  intro s earlier
  obtain ⟨outcome, s', calls, hrun, hends⟩ := h s earlier
  cases outcome with
  | error e => exact ⟨.error e, s', calls, by rw [Outcome.run_bind_eq, hrun], hends.append more⟩
  | ok a =>
    obtain ⟨answers, hanswered, hmid⟩ := hends
    obtain ⟨outcome', s'', calls', hrun', hends'⟩ := hf a answers hmid s' (earlier ++ calls)
    refine ⟨outcome', s'', calls ++ calls', ?_, ?_⟩
    · rw [Outcome.run_bind_eq, hrun, ← List.append_assoc]
      exact hrun'
    · refine hends'.imp (fun _ h => hanswered.halts h) ?_
      rintro b ⟨answers', hanswered', hgood⟩
      exact ⟨answers ++ answers', hanswered.append hanswered', hgood⟩

/-- What is done with the result of the last step asks for nothing more. -/
theorem Reads.map {g : α → β} (h : Reads nodes Good x)
    (hg : ∀ a answers, Good a answers → Good' (g a) answers) :
    Reads nodes Good' (x >>= fun a => pure (g a)) := by
  rw [← List.append_nil nodes]
  exact h.bind fun a answers ha => reads_pure (by rw [List.append_nil]; exact hg a answers ha)

theorem Reads.node (hflaw : k.flaw? = none) (hname : k.leafName? = none)
    (h : Reads nodes Good x) : Reads (k :: nodes) Good x := by
  intro s earlier
  obtain ⟨outcome, s', calls, hrun, hends⟩ := h s earlier
  have hk := answered_node hflaw hname
  refine ⟨outcome, s', calls, hrun, hends.imp (fun _ h => hk.halts h) ?_⟩
  exact fun a ⟨answers, ha, hgood⟩ => ⟨answers, hk.append ha, hgood⟩

end Reads

/-! ### Compiling -/

section Compile

variable {σ : Type} {resolve : String → ExceptT Fault (StateM (σ × List Call)) Validator}

/-- A computation that reads a tree, and mirrors it in its result. -/
def ReadsTree (n : Node) (x : ExceptT Fault (StateM (σ × List Call)) Validator) : Prop :=
  Reads n.reading (fun w answers => Mirrors n.walk answers w.walk) x

theorem reads_compileAll {nodes : List Node}
    (h : ∀ n ∈ nodes, n.ReadsTree (n.compile resolve)) :
    Reads (nodes.flatMap reading)
      (fun ws answers => Mirrors (walkAll nodes) answers (Validator.walkAll ws)
        ∧ List.Forall₂ (fun _ _ => True) ws nodes) (compileAll resolve nodes) := by
  induction nodes with
  | nil => exact reads_pure ⟨.nil, .nil⟩
  | cons n rest ih =>
    rw [List.forall_mem_cons] at h
    refine h.1.bind fun w answers hw => (ih h.2).map fun ws answers' hws => ?_
    exact ⟨hw.append hws.1, .cons trivial hws.2⟩

theorem reads_compileProperties {properties : List Property}
    (h : ∀ p ∈ properties, p.value.ReadsTree (p.value.compile resolve)) :
    Reads ((properties.map Property.value).flatMap reading)
      (fun pvs answers =>
        Mirrors (walkProperties properties) answers (Validator.walkProperties pvs)
          ∧ List.Forall₂ (ForProperty fun _ _ => True) pvs properties)
      (compileProperties resolve properties) := by
  induction properties with
  | nil => exact reads_pure ⟨.nil, .nil⟩
  | cons p rest ih =>
    obtain ⟨key, value, optional⟩ := p
    rw [List.forall_mem_cons] at h
    have hp : Reads value.reading (fun pv answers =>
        Mirrors value.walk answers (Validator.walkProperty pv)
          ∧ ForProperty (fun _ _ => True) pv (.mk key value optional))
        (compileProperty resolve (.mk key value optional)) :=
      h.1.map fun w answers hw => ⟨hw, rfl, rfl, trivial⟩
    refine hp.bind fun pv answers hpv => (ih h.2).map fun pvs answers' hpvs => ?_
    exact ⟨hpv.1.append hpvs.1, .cons hpv.2 hpvs.2⟩

theorem reads_compileIndexer {indexer : Option Indexer}
    (h : ∀ n ∈ (indexer.map fun i => [i.key, i.value]).getD [], n.ReadsTree (n.compile resolve)) :
    Reads (((indexer.map fun i => [i.key, i.value]).getD []).flatMap reading)
      (fun iv answers => Mirrors (walkIndexer indexer) answers (Validator.walkIndexer iv)
        ∧ ForIndexer (fun _ _ => True) iv indexer)
      (compileIndexer resolve indexer) := by
  rcases indexer with _ | ⟨key, value⟩
  · exact reads_pure ⟨.nil, trivial⟩
  · have hkey := h key (by simp [Indexer.key])
    have hvalue := h value (by simp [Indexer.value])
    simp only [Option.map_some, Option.getD_some, List.flatMap_cons, List.flatMap_nil,
      List.append_nil, Indexer.key, Indexer.value]
    refine hkey.bind fun kv answers hkv => hvalue.map fun w answers' hw => ?_
    exact ⟨hkv.append hw, trivial, trivial⟩

/-- Compiling reads the whole tree, as long as resolving a name reads that name. -/
theorem reads_compile (hr : ∀ name, (leaf name).ReadsTree (resolve name)) (n : Node) :
    n.ReadsTree (n.compile resolve) := by
  induction n using induction_parts with
  | h n ih =>
    rw [ReadsTree, reading_eq]
    cases n with
    | leaf name =>
      rw [← reading_eq]
      exact hr name
    | union members =>
      cases members with
      | nil => exact reads_flaw rfl _
      | cons first rest =>
        refine Reads.node rfl rfl ((reads_compileAll ih).map fun ws answers hws => ?_)
        exact .node (.union (List.cons_ne_nil _ _) hws.2) hws.1
    | intersection members =>
      cases members with
      | nil => exact reads_flaw rfl _
      | cons first rest =>
        refine Reads.node rfl rfl ((reads_compileAll ih).map fun ws answers hws => ?_)
        exact .node (.intersection (List.cons_ne_nil _ _) hws.2) hws.1
    | array element =>
      rw [parts, List.flatMap_singleton]
      refine Reads.node rfl rfl ((ih element List.mem_cons_self).map fun w answers hw => ?_)
      exact .node (.array trivial) hw
    | tuple elements =>
      cases elements with
      | nil => exact reads_flaw rfl _
      | cons first rest =>
        refine Reads.node rfl rfl ((reads_compileAll ih).map fun ws answers hws => ?_)
        exact .node (.tuple (List.cons_ne_nil _ _) hws.2) hws.1
    | shape exact properties indexer =>
      have hproperties := reads_compileProperties fun p hp =>
        ih p.value (List.mem_append_left _ (List.mem_map_of_mem hp))
      have hindexer := reads_compileIndexer fun k hk => ih k (List.mem_append_right _ hk)
      rw [parts, List.flatMap_append]
      refine Reads.node rfl rfl (hproperties.bind fun pvs answers hpvs =>
        hindexer.map fun iv answers' hiv => ?_)
      exact .node (.shape hpvs.2 hiv.2) (hpvs.1.append hiv.1)
    | stray s => cases s <;> exact reads_flaw rfl _

end Compile

/-! ### Noting changes nothing -/

section Noting

variable {σ : Type}

/-- A computation that does what another one does, and notes calls besides. -/
def Notes (α : Type) (x : ExceptT Fault (StateM σ) α)
    (y : Unit → ExceptT Fault (StateM (σ × List Call)) α) : Prop :=
  ∀ s earlier, ∃ later, (y ()).run (s, earlier) = ((x.run s).1, (x.run s).2, later)

theorem simulation_notes : Simulation (@Notes σ) where
  pure a s earlier := ⟨earlier, rfl⟩
  throw c s earlier := ⟨earlier, rfl⟩
  bind {α β x y f g} hx hf s earlier := by
    obtain ⟨later, hy⟩ := hx s earlier
    rw [Outcome.run_bind_eq, Outcome.run_bind_eq, hy]
    rcases x.run s with ⟨e | a, s'⟩
    · exact ⟨later, rfl⟩
    · exact hf a s' later

theorem notes_noting (resolve : String → ExceptT Fault (StateM σ) Validator) (name : String) :
    Notes _ (resolve name) fun _ => noting resolve name :=
  fun _ earlier => ⟨earlier ++ [⟨name, _⟩], rfl⟩

end Noting

/-- Compiling resolves the names of a tree one by one in reading order, each once where it
stands. It goes on to the first thing in that order that has no validator, and it ends in
the fault of that; else the walk of the validator is the walk of the tree, with the walk of
each answer in the place of its name. -/
theorem compile_calls {σ : Type} (resolve : String → ExceptT Fault (StateM σ) Validator)
    (n : Node) (s : σ) : ∃ outcome s' calls, (n.compile resolve).run s = (outcome, s')
      ∧ (n.compile (noting resolve)).run (s, []) = (outcome, s', calls)
      ∧ match outcome with
        | .ok w => calls.map Call.name = n.leafNames
          ∧ ∃ answers, calls.map Call.answer = answers.map .ok ∧ Mirrors n.walk answers w.walk
        | .error e => calls.map Call.name <+: n.leafNames ∧ Halts n.reading calls e := by
  have hleaf : ∀ name, (leaf name).ReadsTree (noting resolve name) := by
    intro name
    rw [ReadsTree, reading_eq]
    refine (reads_noting resolve name).imp ?_
    rintro w answers rfl
    exact mirrors_leaf name w
  obtain ⟨outcome, s', calls, hrun, hends⟩ := reads_compile hleaf n s []
  obtain ⟨later, hnotes⟩ := simulation_notes.compile (notes_noting resolve) n s []
  rcases hplain : (n.compile resolve).run s with ⟨outcome', s''⟩
  rw [hplain] at hnotes
  cases hrun.symm.trans hnotes
  refine ⟨outcome', s'', calls, rfl, hrun, ?_⟩
  rw [leafNames_eq_filterMap]
  cases outcome' with
  | ok w =>
    obtain ⟨answers, hanswered, hmirrors⟩ := hends
    exact ⟨hanswered.names, answers, hanswered.answers, hmirrors⟩
  | error e => exact ⟨hends.prefix_names, hends⟩

end Node

end StructuralTypes

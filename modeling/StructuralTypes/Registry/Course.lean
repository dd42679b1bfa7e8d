import StructuralTypes.Node.Regular
import StructuralTypes.Registry.History

/-! The course of a registry: the small steps of which its operations are made, each with
the events it adds to the journal. What is being built between two steps can be told from
the journal alone, since every build that is started ends, the innermost first. -/

namespace StructuralTypes

namespace Event

/-! ### Builds under way -/

/-- The names being built after an event, the innermost first. -/
def track (busy : List String) : Event → List String
  | started name => name :: busy
  | ended _ _ => busy.tail
  | warned _ | registered _ | postponed _ => busy

def trackAll (busy : List String) (events : List Event) : List String :=
  events.foldl track busy

/-- Events, each with the names being built when it happens. -/
def situated : List String → List Event → List (List String × Event)
  | _, [] => []
  | busy, e :: rest => (busy, e) :: situated (e.track busy) rest

/-- The name that an event gives a validator or a recipe. -/
def defined? : Event → Option String
  | registered name | postponed name => some name
  | _ => none

/-- Whether a name is defined other than in the course of building it. -/
def DefinedOutside (name : String) (busy : List String) (events : List Event) : Prop :=
  ∃ p ∈ situated busy events, p.2.defined? = some name ∧ name ∉ p.1

instance (name : String) (busy : List String) (events : List Event) :
    Decidable (DefinedOutside name busy events) :=
  inferInstanceAs (Decidable (∃ p ∈ situated busy events, p.2.defined? = some name ∧ name ∉ p.1))

/-- How many builds of a name that are not part of another build of it succeed. -/
def completions (name : String) (busy : List String) (events : List Event) : Nat :=
  (situated busy events).countP fun p => p.2 = ended name .built ∧ name ∉ p.1.tail

/-- Whether a name is registered after an event, if the event tells. The end of a build that
was abandoned tells nothing: the name is what the recipe has left it. -/
def leaves? (name : String) : Event → Option Bool
  | registered other | postponed other => if other = name then some true else none
  | started other => if other = name then some false else none
  | ended other .built | ended other .failed => if other = name then some true else none
  | ended _ .abandoned | warned _ => none

/-- Whether a name is lost: of the events that tell, the last one is the start of a build. -/
def Lost (name : String) (events : List Event) : Prop :=
  (events.filterMap (leaves? name)).getLast? = some false

instance (name : String) (events : List Event) : Decidable (Lost name events) :=
  inferInstanceAs (Decidable (_ = _))

/-- Whether the builds under way at first stay under way. -/
def Stay (busy : List String) (events : List Event) : Prop :=
  ∀ front, front <+: events → busy <:+ trackAll busy front

/-- Events in which every build that is started ends, in the quiet case without definitions
outside these builds. -/
inductive Nested : Bool → List Event → Prop
  | nil (quiet : Bool) : Nested quiet []
  | warned (quiet : Bool) (w : Warning) : Nested quiet [warned w]
  | registered (name : String) : Nested false [registered name]
  | postponed (name : String) : Nested false [postponed name]
  | build (quiet : Bool) (name : String) {inner : List Event} (ending : Ending)
    (h : Nested false inner) : Nested quiet (started name :: inner ++ [ended name ending])
  | append {quiet : Bool} {xs ys : List Event} (hx : Nested quiet xs) (hy : Nested quiet ys) :
    Nested quiet (xs ++ ys)

/-! ### Laws -/

variable {name : String} {busy : List String} {xs ys events : List Event}

@[simp] theorem trackAll_nil (busy : List String) : trackAll busy [] = busy := rfl

@[simp] theorem trackAll_singleton (busy : List String) (e : Event) :
    trackAll busy [e] = e.track busy := rfl

@[simp] theorem trackAll_append (busy : List String) (xs ys : List Event) :
    trackAll busy (xs ++ ys) = trackAll (trackAll busy xs) ys :=
  List.foldl_append

theorem trackAll_concat (busy : List String) (xs : List Event) (e : Event) :
    trackAll busy (xs ++ [e]) = e.track (trackAll busy xs) :=
  trackAll_append busy xs [e]

theorem situated_append (busy : List String) (xs ys : List Event) :
    situated busy (xs ++ ys) = situated busy xs ++ situated (trackAll busy xs) ys := by
  induction xs generalizing busy with
  | nil => rfl
  | cons e rest ih => exact congrArg ((busy, e) :: ·) (ih (e.track busy))

theorem mem_of_mem_situated {p : List String × Event} (h : p ∈ situated busy events) :
    p.2 ∈ events := by
  induction events generalizing busy with
  | nil => cases h
  | cons e rest ih =>
    rcases List.mem_cons.1 h with rfl | h
    · exact List.mem_cons_self
    · exact List.mem_cons_of_mem _ (ih h)

@[simp] theorem definedOutside_append : DefinedOutside name busy (xs ++ ys)
    ↔ DefinedOutside name busy xs ∨ DefinedOutside name (trackAll busy xs) ys := by
  simp only [DefinedOutside, situated_append, List.mem_append, or_and_right, exists_or]

@[simp] theorem not_definedOutside_nil : ¬DefinedOutside name busy [] := by
  rintro ⟨p, hp, -⟩
  cases hp

theorem definedOutside_singleton {e : Event} :
    DefinedOutside name busy [e] ↔ e.defined? = some name ∧ name ∉ busy := by
  simp [DefinedOutside, situated]

theorem completions_append (name : String) (busy : List String) (xs ys : List Event) :
    completions name busy (xs ++ ys)
      = completions name busy xs + completions name (trackAll busy xs) ys := by
  rw [completions, situated_append, List.countP_append]
  rfl

theorem Nested.loud {quiet : Bool} (h : Nested quiet events) : Nested false events := by
  induction h with
  | nil => exact .nil false
  | warned _ w => exact .warned false w
  | registered name => exact .registered name
  | postponed name => exact .postponed name
  | build _ name ending h => exact .build false name ending h
  | append _ _ ihx ihy => exact .append ihx ihy

/-- What is being built before nested events is being built after them. -/
theorem Nested.trackAll_eq {quiet : Bool} (h : Nested quiet events) (busy : List String) :
    trackAll busy events = busy := by
  induction h generalizing busy with
  | nil => rfl
  | warned => rfl
  | registered => rfl
  | postponed => rfl
  | @build _ name inner ending h ih =>
    rw [trackAll_concat, trackAll, List.foldl_cons]
    exact congrArg List.tail (ih (name :: busy))
  | append _ _ ihx ihy => rw [trackAll_append, ihx, ihy]

/-- What is being built before nested events is being built all through them. -/
theorem Nested.suffix_of_mem_situated {quiet : Bool} (h : Nested quiet events)
    {p : List String × Event} (hp : p ∈ situated busy events) : busy <:+ p.1 := by
  induction h generalizing busy p with
  | nil => cases hp
  | warned | registered | postponed => exact List.mem_singleton.1 hp ▸ List.suffix_rfl
  | @build _ name inner ending h ih =>
    rw [situated_append, List.mem_append] at hp
    obtain hp | hp := hp
    · rcases List.mem_cons.1 hp with rfl | hp
      · exact List.suffix_rfl
      · exact (List.suffix_cons name busy).trans (ih hp)
    · rw [List.mem_singleton.1 hp, trackAll, List.foldl_cons]
      change busy <:+ trackAll (name :: busy) inner
      rw [h.trackAll_eq]
      exact List.suffix_cons name busy
  | append hx _ ihx ihy =>
    rw [situated_append, hx.trackAll_eq, List.mem_append] at hp
    exact hp.elim ihx ihy

theorem Nested.stay {quiet : Bool} (h : Nested quiet events) (busy : List String) :
    Stay busy events := by
  rintro front ⟨back, rfl⟩
  cases back with
  | nil =>
    rw [List.append_nil] at h
    exact (h.trackAll_eq busy).symm ▸ List.suffix_rfl
  | cons e rest =>
    have hmem : (trackAll busy front, e) ∈ situated busy (front ++ e :: rest) := by
      rw [situated_append]
      exact List.mem_append_right _ List.mem_cons_self
    exact h.suffix_of_mem_situated hmem

end Event

namespace Registry

open Event

/-- The names whose builds are under way, the innermost first. -/
def busy (r : Registry) : List String :=
  trackAll [] r.journal

/-- The same registry with one more event. -/
def note (r : Registry) (e : Event) : Registry :=
  { r with journal := r.journal ++ [e] }

/-- A validator is stored under a name. -/
def hold (r : Registry) (name : String) (e : Entry) : Registry :=
  { r with
    built := Table.insert name e r.built, pending := Table.erase name r.pending,
    journal := r.journal ++ [.registered name] }

/-- A name is made pending. -/
def defer (r : Registry) (name : String) (recipe : Recipe) : Registry :=
  { r with
    built := Table.erase name r.built, pending := Table.insert name recipe r.pending,
    journal := r.journal ++ [.postponed name] }

/-- The build of a pending name is started. -/
def enter (r : Registry) (name : String) : Registry :=
  { r with pending := Table.erase name r.pending, journal := r.journal ++ [.started name] }

/-- The build of a name has failed, and its recipe is put back. -/
def giveUp (r : Registry) (name : String) (recipe : Recipe) : Registry :=
  { r with
    pending := if Table.has name r.pending then r.pending else Table.insert name recipe r.pending,
    journal := r.journal ++ [.ended name .failed] }

/-- The build of a name has come to a fault. -/
def stop (r : Registry) (name : String) (recipe : Recipe) (fault : Fault) : Registry :=
  if fault.isSignal then r.note (.ended name .abandoned) else r.giveUp name recipe

/-- A step of a registry with the events it adds to the journal. Only a pending name that
has no validator is built, and only the innermost build ends, with a validator under the
name when it succeeds, and with its recipe put back when it fails. -/
inductive Step : Registry → List Event → Registry → Prop
  | warn (r : Registry) (w : Warning) : Step r [.warned w] (r.note (.warned w))
  | make (r : Registry) : Step r [] { r with made := r.made + 1 }
  | keep (r : Registry) (source : String) (e : Entry) :
    Step r [] { r with compiled := Table.insert source e r.compiled }
  | takeNote (r : Registry) (memory : Value) : Step r [] { r with host := { r.host with memory } }
  | store (r : Registry) (name : String) (e : Entry) :
    Step r [.registered name] (r.hold name e)
  | postpone (r : Registry) (name : String) (recipe : Recipe) :
    Step r [.postponed name] (r.defer name recipe)
  | start {r : Registry} {name : String} {recipe : Recipe}
    (absent : Table.lookup? name r.built = none)
    (waiting : Table.lookup? name r.pending = some recipe) :
    Step r [.started name] (r.enter name)
  | succeed {r : Registry} {name : String} {outer : List String} {e : Entry}
    (inside : r.busy = name :: outer) (present : Table.lookup? name r.built = some e) :
    Step r [.ended name .built] (r.note (.ended name .built))
  | fail {r : Registry} {name : String} {outer : List String}
    (inside : r.busy = name :: outer) (recipe : Recipe) :
    Step r [.ended name .failed] (r.giveUp name recipe)
  | abandon {r : Registry} {name : String} {outer : List String}
    (inside : r.busy = name :: outer) :
    Step r [.ended name .abandoned] (r.note (.ended name .abandoned))

/-- A sequence of steps. -/
inductive Course (q : Registry) : List Event → Registry → Prop
  | refl : Course q [] q
  | tail {xs es : List Event} {p p' : Registry} (h : Course q xs p) (hs : Step p es p') :
    Course q (xs ++ es) p'

/-- What was added to the journal since an earlier moment. -/
def since (p q : Registry) : List Event :=
  p.journal.drop q.journal.length

/-- Whether none of the names was being built at an earlier moment or has been defined since,
other than in the course of building it. -/
def Untouched (names : List String) (q p : Registry) : Prop :=
  ∀ name ∈ names, name ∉ q.busy ∧ ¬DefinedOutside name q.busy (p.since q)

instance (names : List String) (q p : Registry) : Decidable (Untouched names q p) :=
  inferInstanceAs (Decidable (∀ name ∈ names, name ∉ q.busy ∧ ¬DefinedOutside name q.busy (p.since q)))

/-- The names in an annotation, as far as it can be read. -/
def namesIn (source : String) : List String :=
  match Node.parse? source with
  | .ok n => n.leafNames
  | .error _ => []

/-- The validator of an annotation, compiled anew with the names as they now are. -/
def compileAfresh (depth : Nat) (source : String) : RegistryM Entry := do
  compileNode (resolveWithin depth) (← read source)

/-! ### Laws -/

variable {q r r' p p' : Registry} {xs ys es : List Event}

theorem Step.course (h : Step r es r') : Course r es r' := by
  have := Course.tail .refl h
  rwa [List.nil_append] at this

theorem Course.trans (hx : Course q xs r) (hy : Course r ys p) : Course q (xs ++ ys) p := by
  induction hy with
  | refl => rwa [List.append_nil]
  | tail _ hs ih =>
    rw [← List.append_assoc]
    exact ih.tail hs

theorem Step.events_eq (h : Step r es r') : es = [] ∨ ∃ e, es = [e] := by
  cases h with
  | make | keep | takeNote => exact .inl rfl
  | _ => exact .inr ⟨_, rfl⟩

theorem Step.journal_eq (h : Step r es r') : r'.journal = r.journal ++ es := by
  cases h with
  | make | keep | takeNote => exact (List.append_nil _).symm
  | _ => rfl

theorem Course.journal_eq (h : Course q xs p) : p.journal = q.journal ++ xs := by
  induction h with
  | refl => exact (List.append_nil _).symm
  | tail _ hs ih => rw [hs.journal_eq, ih, List.append_assoc]

theorem Course.since_eq (h : Course q xs p) : p.since q = xs := by
  rw [since, h.journal_eq]
  exact List.drop_left

/-- What is being built changes as the events tell. -/
theorem Course.busy_eq (h : Course q xs p) : p.busy = trackAll q.busy xs := by
  rw [busy, h.journal_eq, trackAll_append]
  rfl

theorem Step.busy_eq (h : Step r es r') : r'.busy = trackAll r.busy es :=
  h.course.busy_eq

/-- A course can be cut wherever its events can. -/
theorem Course.cut (h : Course q (xs ++ ys) p) : ∃ m, Course q xs m ∧ Course m ys p := by
  generalize hw : xs ++ ys = ws at h
  induction h generalizing ys with
  | refl =>
    obtain ⟨rfl, rfl⟩ := List.append_eq_nil_iff.1 hw
    exact ⟨q, .refl, .refl⟩
  | @tail front es m p h hs ih =>
    obtain rfl | ⟨e, rfl⟩ := hs.events_eq
    · obtain ⟨n, hx, hy⟩ := ih (hw.trans (List.append_nil front))
      have := hy.tail hs
      rw [List.append_nil] at this
      exact ⟨n, hx, this⟩
    · obtain rfl | ⟨init, last, rfl⟩ := ys.eq_nil_or_concat
      · rw [List.append_nil] at hw
        exact ⟨p, hw ▸ h.tail hs, .refl⟩
      · rw [List.concat_eq_append, ← List.append_assoc] at hw
        obtain ⟨hfront, hlast⟩ := List.append_inj' hw rfl
        obtain ⟨n, hx, hy⟩ := ih hfront
        rw [List.concat_eq_append, hlast]
        exact ⟨n, hx, hy.tail hs⟩

end Registry

end StructuralTypes

import StructuralTypes.Proofs.Courses

/-! Names are neither invented nor lost by a failure. Whether a name is registered is told by
the last event about it, so between operations the names are those that were ever defined,
except where the last thing about a name is a build that a signal to leave the program has
broken off; an operation that fails has defined nothing but what the recipes it ran define. -/

namespace StructuralTypes

namespace Event

variable {name : String} {quiet : Bool} {xs ys events : List Event}

/-- An event that defines a name leaves it registered. -/
theorem mem_leaves_of_mem_defined (h : name ∈ events.filterMap defined?) :
    true ∈ events.filterMap (leaves? name) := by
  obtain ⟨e, he, hdef⟩ := List.mem_filterMap.1 h
  refine List.mem_filterMap.2 ⟨e, he, ?_⟩
  cases e with
  | registered other | postponed other => exact if_pos (Option.some.inj hdef)
  | _ => cases hdef

end Event

namespace Registry

open Event

variable {q r r' p : Registry} {name : String} {es since : List Event}

/-! ### Names along a course -/

/-- Whether a name has a validator or is pending. -/
def Registered (r : Registry) (name : String) : Prop :=
  Table.has name r.built = true ∨ Table.has name r.pending = true

/-- What is given up is pending again. -/
theorem has_pending_giveUp (r : Registry) (other : String) (recipe : Recipe) :
    Table.has name (r.giveUp other recipe).pending = true
      ↔ name = other ∨ Table.has name r.pending = true := by
  unfold giveUp
  dsimp only
  split
  · rename_i hhas
    exact ⟨.inr, fun h => h.elim (fun hn => hn ▸ hhas) id⟩
  · exact Table.has_insert other name recipe r.pending

/-- After a step a name is registered as its event tells, or else as before. -/
theorem Step.registered_iff (h : Step r es r') : r'.Registered name
    ↔ (es.filterMap (leaves? name)).getLast?.elim (r.Registered name) (· = true) := by
  unfold Registered
  cases h with
  | warn | make | keep | takeNote | abandon => simp [note, leaves?]
  | store other e =>
    rw [hold, Table.has_insert, Table.has_erase]
    by_cases hn : name = other <;> simp [leaves?, hn, Ne.symm]
  | postpone other recipe =>
    rw [defer, Table.has_insert, Table.has_erase]
    by_cases hn : name = other <;> simp [leaves?, hn, Ne.symm]
  | @start other recipe absent waiting =>
    rw [enter, Table.has_erase]
    by_cases hn : name = other <;> simp [leaves?, hn, Ne.symm, Table.has, absent]
  | @succeed other outer e inside present =>
    by_cases hn : name = other <;> simp [note, leaves?, hn, Ne.symm, Table.has, present]
  | @fail other outer inside recipe =>
    rw [has_pending_giveUp]
    by_cases hn : name = other <;> simp [giveUp, leaves?, hn, Ne.symm]

/-- Whether a name is registered is told by the last event about it. -/
theorem Course.registered_iff (h : Course q since p) : p.Registered name
    ↔ (since.filterMap (leaves? name)).getLast?.elim (q.Registered name) (· = true) := by
  induction h with
  | refl => rfl
  | @tail xs es m p _ hs ih =>
    rw [hs.registered_iff, ih, List.filterMap_append, List.getLast?_append]
    cases (es.filterMap (leaves? name)).getLast? <;> rfl

/-- Whether a name is registered or being built. -/
def Carries (r : Registry) (name : String) : Prop :=
  r.Registered name ∨ name ∈ r.busy

/-- The names that a step brings are those it defines. -/
theorem Step.of_carries (h : Step r es r') (hc : r'.Carries name) :
    r.Carries name ∨ name ∈ es.filterMap defined? := by
  unfold Carries at *
  rw [h.registered_iff, h.busy_eq] at hc
  cases h with
  | warn | make | keep | takeNote => exact .inl hc
  | store other e | postpone other recipe =>
    by_cases hn : other = name <;> simp_all [leaves?, track, defined?]
  | @start other recipe absent waiting =>
    have hhas : r.Registered other := by simp [Registered, Table.has, waiting]
    by_cases hn : other = name <;> simp_all [leaves?, track, Ne.symm]
  | @succeed other outer e inside | @fail other outer inside | @abandon other outer inside =>
    rw [inside]
    by_cases hn : name = other
    · exact .inl (.inr (hn ▸ List.mem_cons_self))
    · refine .inl (hc.imp ?_ fun hbusy => ?_)
      · simp [leaves?, Ne.symm hn]
      · rw [trackAll_singleton, inside] at hbusy
        exact List.mem_cons_of_mem _ hbusy

/-- The names that come along a course are those that are defined. -/
theorem Course.of_carries (h : Course q since p) (hc : p.Carries name) :
    q.Carries name ∨ name ∈ since.filterMap defined? := by
  induction h with
  | refl => exact .inl hc
  | tail _ hs ih =>
    rw [List.filterMap_append, List.mem_append, ← or_assoc]
    exact (hs.of_carries hc).imp_left ih

/-! ### Names between operations -/

theorem mem_names_iff (r : Registry) :
    name ∈ r.names ↔ Table.has name r.built = true ∨ Table.has name r.pending = true := by
  rw [names, List.mem_mergeSort, List.mem_eraseDups, List.mem_append, Table.has_iff_mem_keys,
    Table.has_iff_mem_keys]

/-- Where nothing is being built, the names are from then on those that are there or are
defined later and are not lost. -/
theorem Course.mem_names_iff (h : Course q since p) (hbusy : q.busy = []) : name ∈ p.names
    ↔ (name ∈ q.names ∨ name ∈ since.filterMap defined?) ∧ ¬Lost name since := by
  have hlast := @Course.registered_iff _ _ name _ h
  have hcomes : p.Registered name → q.Registered name ∨ name ∈ since.filterMap defined? :=
    fun hp => (h.of_carries (.inl hp)).imp_left fun hc =>
      hc.resolve_right (hbusy ▸ List.not_mem_nil)
  rw [Registry.mem_names_iff, Registry.mem_names_iff, ← Registered, ← Registered, Lost]
  cases htold : (since.filterMap (leaves? name)).getLast? with
  | none =>
    rw [htold] at hlast
    refine ⟨fun hp => ⟨hcomes hp, nofun⟩, fun hq => hlast.2 (hq.1.resolve_right fun hdef => ?_)⟩
    have hmem := mem_leaves_of_mem_defined hdef
    rw [List.getLast?_eq_none_iff.1 htold] at hmem
    cases hmem
  | some known =>
    rw [htold] at hlast
    cases known with
    | true => exact ⟨fun hp => ⟨hcomes hp, nofun⟩, fun _ => hlast.2 rfl⟩
    | false => exact ⟨fun hp => absurd (hlast.1 hp) Bool.false_ne_true, fun hq => absurd rfl hq.2⟩

/-- The events of a course that leads somewhere are nested. -/
theorem Leads.nested {quiet : Bool} (h : Leads quiet q p) (hc : Course q since p) :
    Nested quiet since := by
  obtain ⟨events, hevents, hn⟩ := h.course
  rwa [← hc.since_eq, hevents.since_eq]

/-! ### Definitions of an operation -/

/-- A build that is abandoned loses its name. -/
example : let leave : Recipe :=
      .raise (.raised { kind := "KeyboardInterrupt", message := "", signal := true })
    let r := (empty false).afterAll [.postpone (.text "Tree") leave, .resolve "Tree"]
    Lost "Tree" r.journal ∧ r.names = [] := by
  decide +kernel

end Registry

end StructuralTypes

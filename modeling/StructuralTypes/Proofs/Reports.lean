import StructuralTypes.Failure.Shown
import StructuralTypes.Proofs.Locations

/-! Reports show failures. The entries of a report are stored under the labels of the children,
so they show all children just when no two of these have the same label. Numbers of alternatives
and positions are written differently, and a shape has one failure for each text, so labels can
only meet below an array, where the keys of a mapping come from the value. -/

namespace StructuralTypes

open Outcome

/-! ### Labels -/

namespace Value

/-- Different whole numbers have different labels. -/
theorem nodup_labels_zipIdx {α : Type} (items : List α) (start : Nat) :
    ((items.zipIdx start).map fun p => (Value.int p.2).label).Nodup := by
  have hlabel : Function.Injective fun i : Nat => (Value.int i).label :=
    fun i j h => Int.ofNat.inj (Int.repr_injective h)
  have hlabels : (items.zipIdx start).map (fun p => (Value.int p.2).label)
      = (List.range' start items.length).map fun i : Nat => (Value.int i).label := by
    rw [← List.zipIdx_map_snd, List.map_map]
    rfl
  rw [hlabels]
  exact List.Nodup.map hlabel List.nodup_range'

theorem nodup_labels_positions (items : List Value) :
    ((positions items).map fun p => p.1.label).Nodup := by
  rw [positions, List.map_map]
  exact nodup_labels_zipIdx items 0

/-- The items of a container in a well-labelled value have different labels. -/
theorem WellLabelled.nodup_labels {v : Value} (h : v.WellLabelled)
    {entries : List (Value × Value)} (he : v.entries? = some entries) :
    (entries.map fun p => p.1.label).Nodup := by
  obtain ⟨labels, -⟩ := h
  cases v with
  | list items | tuple items =>
    cases he
    exact nodup_labels_positions items
  | mapping entries =>
    cases he
    rw [List.map_map]
    exact labels entries rfl
  | _ => cases he

theorem WellLabelled.item {v : Value} (h : v.WellLabelled) {p : Value × Value}
    (hp : p ∈ v.observed) : p.2.WellLabelled := by
  obtain ⟨-, items⟩ := h
  exact items p hp

end Value

namespace Failure

variable {f : Failure} {v : Value}

/-- Failures of items have labels of the items, in order. -/
theorem labels_sublist {P : Value → Failure → Prop} {failures : List (Value × Failure)}
    {entries : List (Value × Value)}
    (h : List.SublistForall₂ (IsOfItem P) failures entries) :
    (failures.map fun p => p.1.label).Sublist (entries.map fun p => p.1.label) := by
  induction h with
  | nil => exact List.nil_sublist _
  | @cons p q failures entries hpq _ ih =>
    rw [List.map_cons, List.map_cons, hpq.1]
    exact ih.cons_cons q.1.label
  | @cons_right q failures entries _ ih => exact ih.cons q.1.label

/-- The labels of siblings differ, those of members of an array unless they may meet. -/
def LabelsDiffer (apart : Prop) (f : Failure) : Prop :=
  ∀ g ∈ f.walk, (g.kind? = some .inArrayMembers → apart) → g.labels.Nodup

theorem LabelsDiffer.imp {apart apart' : Prop} (h : f.LabelsDiffer apart)
    (himp : apart' → apart) : f.LabelsDiffer apart' :=
  fun g hg hapart => h g hg fun hk => himp (hapart hk)

/-- A composite failure of a value, from its labels and its children. -/
theorem labelsDiffer_composite {apart : Prop} {k : FailureKind}
    {children : List (Value × Failure)}
    (hlabels : (k = .inArrayMembers → apart) → (children.map fun p => p.1.label).Nodup)
    (h : ∀ p ∈ children, p.2.LabelsDiffer apart) : (composite v k children).LabelsDiffer apart :=
  forall_mem_walk_iff.2 ⟨fun hk => hlabels fun he => hk (congrArg some he), h⟩

theorem nodup_labels_numbered (failures : List Failure) :
    ((numbered failures).map fun p => p.1.label).Nodup := by
  rw [numbered, List.map_map]
  exact Value.nodup_labels_zipIdx failures 0

theorem labelsDiffer_numbered {apart : Prop} {failures : List Failure}
    (h : ∀ f ∈ failures, f.LabelsDiffer apart) :
    ∀ p ∈ numbered failures, p.2.LabelsDiffer apart := by
  intro p hp
  obtain ⟨q, hq, rfl⟩ := List.mem_map.1 hp
  exact h _ (List.fst_mem_of_mem_zipIdx hq)

theorem LabelsDiffer.of_item {p : Value × Value} (h : f.LabelsDiffer p.2.WellLabelled)
    (hp : p ∈ v.observed) : f.LabelsDiffer v.WellLabelled :=
  h.imp fun hv => hv.item hp

theorem labelsDiffer_items {entries : List (Value × Value)} {failures : List (Value × Failure)}
    (hv : v.observed = entries)
    (h : List.SublistForall₂ (IsOfItem fun v => LabelsDiffer v.WellLabelled) failures entries) :
    ∀ p ∈ failures, p.2.LabelsDiffer v.WellLabelled := by
  intro p hp
  obtain ⟨q, hq, -, hdiffer⟩ := exists_mem_of_sublistForall₂ h hp
  exact hdiffer.of_item (hv ▸ hq)

end Failure

/-- Labels of siblings differ in a failure when they do in those that it holds. -/
theorem Validator.passing_labelsDiffer :
    Passing (fun _ _ => True) (fun v => Failure.LabelsDiffer v.WellLabelled) where
  item _ _ := trivial
  key _ := trivial
  overlong _ := trivial
  composed {v f} h := by
    cases h with
    | childless _ h =>
      refine Failure.forall_mem_walk_iff.2 ⟨fun _ => ?_, fun p hp => ?_⟩
      · rw [Failure.labels, h]
        exact List.nodup_nil
      · exact absurd (h ▸ hp) List.not_mem_nil
    | alternatives _ h | requirements _ h =>
      exact Failure.labelsDiffer_composite (fun _ => Failure.nodup_labels_numbered _)
        (Failure.labelsDiffer_numbered h)
    | members he _ h =>
      exact Failure.labelsDiffer_composite
        (fun hapart => ((hapart rfl).nodup_labels he).sublist (Failure.labels_sublist h))
        (Failure.labelsDiffer_items (Node.observed_of_entries? he) h)
    | @positions items failures he _ h =>
      exact Failure.labelsDiffer_composite
        (fun _ => (Value.nodup_labels_positions items).sublist (Failure.labels_sublist h))
        (Failure.labelsDiffer_items (Node.observed_of_elements? he) h)
    | @properties exact failures _ hd h =>
      refine Failure.labelsDiffer_composite (fun _ => ?_) fun p hp => ?_
      · rw [Value.named, List.map_map]
        exact hd
      · obtain ⟨q, hq, rfl⟩ := List.mem_map.1 hp
        obtain hdiffer | ⟨item, hitem, hdiffer⟩ := h q hq
        · exact hdiffer
        · exact hdiffer.of_item hitem

/-! ### What is shown -/

namespace Summary

variable {children : List (Value × Failure)} {f : Failure}

theorem keys_ofChildren (children : List (Value × Failure)) :
    Table.keys (ofChildren children) = children.map fun p => p.1.label := by
  induction children with
  | nil => rfl
  | cons p rest ih => exact congrArg (p.1.label :: ·) ih

theorem showsAll_ofChildren_iff :
    ShowsAll (ofChildren children) children ↔ ∀ p ∈ children, (ofFailure p.2).Shows p.2 := by
  induction children with
  | nil => simp [ofChildren, ShowsAll]
  | cons p rest ih =>
    rw [ofChildren, ShowsAll, List.forall_mem_cons, ih]
    simp

/-- The plain data of a failure show all of it just when the labels of all siblings differ. -/
theorem shows_ofFailure_iff : (ofFailure f).Shows f ↔ ∀ g ∈ f.walk, g.labels.Nodup := by
  induction f using Failure.induction_children with
  | h f ih =>
    rw [Failure.forall_mem_walk_iff]
    obtain ⟨given, unexpected, reason, children⟩ := f
    have hchildren : (∀ p ∈ children, (ofFailure p.2).Shows p.2)
        ↔ ∀ p ∈ children, ∀ g ∈ p.2.walk, g.labels.Nodup := forall₂_congr ih
    have hshows : (ofFailure (.mk given unexpected reason children)).Shows
          (.mk given unexpected reason children)
        ↔ ShowsAll (Table.ofPairs (ofChildren children)) children := by
      simp [ofFailure, Shows]
    rw [hshows, Failure.labels, Failure.children, ← hchildren, ← showsAll_ofChildren_iff,
      ← keys_ofChildren]
    -- Under different labels the stored entries are the entries as they were made.
    constructor
    · intro h
      have hnodup : (Table.keys (ofChildren children)).Nodup := by
        rw [keys_ofChildren, ← h.keys_eq]
        exact Table.nodup_keys_ofPairs _
      exact ⟨hnodup, Table.ofPairs_eq_self hnodup ▸ h⟩
    · rintro ⟨hnodup, h⟩
      rwa [Table.ofPairs_eq_self hnodup]

end Summary

/-! ### What is written -/

namespace Failure

variable {children : List (Value × Failure)} {f : Failure}

theorem checkAllLabels_eq_ok_iff : checkAllLabels children = .ok ()
    ↔ ∀ p ∈ children, p.1.labelsOverlong = false ∧ p.2.checkLabels = .ok () := by
  induction children with
  | nil => simp [checkAllLabels, pure, Except.pure]
  | cons p rest ih =>
    obtain ⟨key, child⟩ := p
    rw [checkAllLabels, List.forall_mem_cons, ← ih]
    have hbind : (do checkLabels child; checkAllLabels rest) = .ok ()
        ↔ child.checkLabels = .ok () ∧ checkAllLabels rest = .ok () :=
      bind_eq_ok_iff.trans ⟨fun ⟨_, hchild, hrest⟩ => ⟨hchild, hrest⟩, fun h => ⟨(), h⟩⟩
    cases key.labelsOverlong with
    | true => simp [throw, throwThe, MonadExceptOf.throw, bind, Except.bind]
    | false => exact hbind.trans (by simp)

/-- Labels can be written just when no key has a number with too many digits. -/
theorem checkLabels_eq_ok_iff : f.checkLabels = .ok () ↔ ∀ g ∈ f.walk, g.HasShortKeys := by
  induction f using induction_children with
  | h f ih =>
    rw [forall_mem_walk_iff]
    obtain ⟨given, unexpected, reason, children⟩ := f
    rw [checkLabels, checkAllLabels_eq_ok_iff, forall₂_and]
    exact and_congr_right fun _ => forall₂_congr ih

theorem hasOverlongKey_eq_false (h : ∀ g ∈ f.walk, g.HasShortKeys) : f.hasOverlongKey = false := by
  induction f using induction_children with
  | h f ih =>
    obtain ⟨hkeys, hbelow⟩ := forall_mem_walk_iff.1 h
    obtain ⟨given, unexpected, reason, children⟩ := f
    exact anyOverlongKey_eq_false_iff.2 fun p hp => ⟨fun _ => hkeys p hp, ih p hp (hbelow p hp)⟩

/-- The messages of a well-formed failure can be checked, and are what it tells. -/
theorem WellFormed.checkTold_eq_ok (h : f.WellFormed) (hkeys : f.hasOverlongKey = false) :
    f.checkTold = .ok () := by
  rw [checkTold_eq hkeys "", flatten_eq_told h.hasCrowdedLeaf_eq_false]
  rfl

theorem WellFormed.messageList_eq (h : f.WellFormed) :
    f.messageList = .ok (f.told "").toList :=
  bind_of_ok (flatten_eq_told h.hasCrowdedLeaf_eq_false "") _

theorem length_toList_told (f : Failure) (path : String) :
    (f.told path).toList.length = f.points :=
  (forall₂_isToldBy f path).length_eq.symm.trans (length_tellers f)

end Failure

namespace Report

variable {f : Failure} {source : Option String} {r : Report}

/-- A report on a failure is written when its messages and its labels are. -/
theorem write_eq_ok_iff (hf : f.WellFormed) : write source (some f) = .ok r
    ↔ (∀ g ∈ f.walk, g.HasShortKeys)
      ∧ r = { source, messages := (f.told "").toList, failure := some (.ofFailure f) } := by
  have hbuild : build source (some f)
      = .ok { source, messages := (f.told "").toList, failure := some (.ofFailure f) } :=
    bind_of_ok hf.messageList_eq _
  constructor
  · intro h
    obtain ⟨_, -, h⟩ := ok_of_bind h
    obtain ⟨⟨⟩, hlabels, h⟩ := ok_of_bind h
    rw [hbuild] at h
    exact ⟨Failure.checkLabels_eq_ok_iff.1 hlabels, (Except.ok.inj h).symm⟩
  · rintro ⟨hkeys, rfl⟩
    have htold := hf.checkTold_eq_ok (Failure.hasOverlongKey_eq_false hkeys)
    refine (bind_of_ok htold _).trans ?_
    refine (bind_of_ok (Failure.checkLabels_eq_ok_iff.2 hkeys) _).trans ?_
    rw [hbuild]
    rfl

/-- A report that is written lists and counts the messages, and tells the failure if the labels
of all siblings differ. -/
theorem tells_iff (hf : f.WellFormed) (hr : write source (some f) = .ok r) :
    r.Tells f ↔ ∀ g ∈ f.walk, g.labels.Nodup := by
  obtain ⟨-, rfl⟩ := (write_eq_ok_iff hf).1 hr
  rw [← Summary.shows_ofFailure_iff]
  constructor
  · rintro ⟨⟨summary, hsummary, -, hshows⟩, -, -⟩
    cases hsummary
    exact hshows
  · intro hshows
    exact ⟨⟨_, rfl, by simp [members], hshows⟩, ⟨hf.messageList_eq, by simp [members]⟩,
      by simp [members], Failure.length_toList_told f ""⟩

end Report

namespace Node

open Validator

/-- The report on a refused value tells the whole failure just when no key holds a number with too
many digits and the members of each array have different labels. All other siblings always have,
and in a well-labelled value the members of arrays have, too. -/
theorem reported_iff {n : Node} {w : Validator} {v : Value} {f : Failure}
    (hn : plainValidator n = .ok w) (hv : w.guarded.evaluate v = .ok (.failed f))
    (source : Option String) :
    ((∃ r, Report.write source (some f) = .ok r ∧ r.Tells f)
      ↔ (∀ g ∈ f.walk, g.HasShortKeys)
        ∧ ∀ g ∈ f.walk, g.kind? = some .inArrayMembers → g.labels.Nodup)
    ∧ (v.WellLabelled → ∀ g ∈ f.walk, g.labels.Nodup) := by
  have hf : f.WellFormed := wellFormed_of_guarded hn hv
  have hdiffer : f.LabelsDiffer v.WellLabelled := failure_of_guarded passing_labelsDiffer hn hv
  refine ⟨⟨?_, ?_⟩, fun hlabels g hg => hdiffer g hg fun _ => hlabels⟩
  · rintro ⟨r, hr, htells⟩
    exact ⟨((Report.write_eq_ok_iff hf).1 hr).1,
      fun g hg _ => (Report.tells_iff hf hr).1 htells g hg⟩
  · rintro ⟨hkeys, hmembers⟩
    have hr := (@Report.write_eq_ok_iff f source _ hf).2 ⟨hkeys, rfl⟩
    refine ⟨_, hr, (Report.tells_iff hf hr).2 fun g hg => ?_⟩
    -- Only members of arrays lie under keys that come with the value as they are.
    by_cases hk : g.kind? = some .inArrayMembers
    · exact hmembers g hg hk
    · exact hdiffer g hg fun h => absurd h hk

/-- The type `(string | int)[][]`. -/
def nestedItems : Node :=
  .array (.array stringOrInt)

/-- The instance of a class that gives it a text of its own. -/
def namedRed : Value :=
  .object { display := some "<Colour.RED: 1>", label := some "Colour.RED" } [("_value_", .int 1)]

/-- A mapping under keys of several kinds, with lists in it. -/
def mixedKeys : Value :=
  .mapping [(namedRed, .list [.null, .text "a"]), (.null, .list [.text "b"]),
    (.text "one", .list [.bool true, .null])]

theorem wellLabelled_mixedKeys : mixedKeys.WellLabelled := by
  have hscalar : ∀ v : Value, v.observed = [] → v.WellLabelled := fun v hv => by
    refine .of (fun entries he => ?_) (by simp [hv])
    subst he
    rw [List.map_eq_nil_iff.1 hv]
    exact List.nodup_nil
  have hlist : ∀ items : List Value, (∀ item ∈ items, item.observed = []) →
      (Value.list items).WellLabelled := fun items hitems => by
    refine .of nofun fun p hp => ?_
    obtain ⟨q, hq, rfl⟩ := List.mem_map.1 hp
    exact hscalar q.1 (hitems q.1 (List.fst_mem_of_mem_zipIdx hq))
  refine .of ?_ ?_
  · rintro _ ⟨⟩
    decide +kernel
  · simp only [mixedKeys, Value.observed, List.map_cons, List.map_nil, List.forall_mem_cons]
    exact ⟨hlist _ (by simp [Value.observed]), hlist _ (by simp [Value.observed]),
      hlist _ (by simp [Value.observed]), by simp⟩

/-- What is wrong with the lists in it. -/
def mixedFailure : Failure :=
  let refused := fun v : Value => Failure.composite v .withUnion
    [(.int 0, .leaf v "incompatible with string"), (.int 1, .leaf v "incompatible with int")]
  .composite mixedKeys .inArrayMembers
    [(namedRed, .composite (.list [.null, .text "a"]) .inArrayMembers [(.int 0, refused .null)]),
     (.text "one", .composite (.list [.bool true, .null]) .inArrayMembers
       [(.int 0, refused (.bool true)), (.int 1, refused .null)])]

theorem mixedKeys_reported : ∃ w, plainValidator nestedItems = .ok w
    ∧ w.guarded.evaluate mixedKeys = .ok (.failed mixedFailure) ∧ mixedKeys.WellLabelled
    ∧ ∃ r, Report.write none (some mixedFailure) = .ok r ∧ r.Tells mixedFailure := by
  have hevaluate : ∀ w, plainValidator nestedItems = .ok w →
      w.guarded.evaluate mixedKeys = .ok (.failed mixedFailure) := by
    rintro _ ⟨⟩
    rfl
  have hshort : ∀ g ∈ mixedFailure.walk, g.HasShortKeys := by
    have hkeys : namedRed.labelsOverlong = false ∧ (Value.text "one").labelsOverlong = false
        ∧ (Value.int 0).labelsOverlong = false ∧ (Value.int 1).labelsOverlong = false := by
      decide +kernel
    simp only [mixedFailure, Failure.composite, Failure.described, Failure.leaf, Failure.walk,
      Failure.walkAll, Failure.HasShortKeys, Failure.children, List.cons_append, List.nil_append,
      List.append_nil, List.forall_mem_cons, hkeys, true_and]
    simp
  obtain ⟨hiff, hlabels⟩ := reported_iff (n := nestedItems) rfl (hevaluate _ rfl) none
  exact ⟨_, rfl, hevaluate _ rfl, wellLabelled_mixedKeys,
    hiff.2 ⟨hshort, fun g hg _ => hlabels wellLabelled_mixedKeys g hg⟩⟩

/-- The type `string[]`. -/
def textItems : Node :=
  .array (.leaf "string")

/-- A mapping with a number and the text of this number among its keys. -/
def meetingKeys : Value :=
  .mapping [(.int 1, .null), (.text "1", .bool true)]

def meetingFailure : Failure :=
  .composite meetingKeys .inArrayMembers
    [(.int 1, .leaf .null "incompatible with string"),
     (.text "1", .leaf (.bool true) "incompatible with string")]

/-- There are two messages, but the second failure has taken the place of the first one. -/
theorem meetingKeys_not_reported : ∃ w r, plainValidator textItems = .ok w
    ∧ w.guarded.evaluate meetingKeys = .ok (.failed meetingFailure)
    ∧ Report.write none (some meetingFailure) = .ok r ∧ r.messages.length = 2
    ∧ ¬r.Tells meetingFailure := by
  have hevaluate : ∀ w, plainValidator textItems = .ok w →
      w.guarded.evaluate meetingKeys = .ok (.failed meetingFailure) := by
    rintro _ ⟨⟩
    rfl
  have hf : meetingFailure.WellFormed :=
    wellFormed_of_guarded (n := textItems) rfl (hevaluate _ rfl)
  have hshort : ∀ g ∈ meetingFailure.walk, g.HasShortKeys := by
    have hkeys : (Value.int 1).labelsOverlong = false
        ∧ (Value.text "1").labelsOverlong = false := by decide +kernel
    simp only [meetingFailure, Failure.composite, Failure.described, Failure.leaf, Failure.walk,
      Failure.walkAll, Failure.HasShortKeys, Failure.children, List.cons_append, List.nil_append,
      List.forall_mem_cons, hkeys, true_and]
    simp
  have hr := (@Report.write_eq_ok_iff meetingFailure none _ hf).2 ⟨hshort, rfl⟩
  refine ⟨_, _, rfl, hevaluate _ rfl, hr, Failure.length_toList_told meetingFailure "", ?_⟩
  intro htells
  have hnodup : meetingFailure.labels.Nodup :=
    (Report.tells_iff hf hr).1 htells _ (Failure.self_mem_walk _)
  exact absurd hnodup (by decide +kernel)

end Node

end StructuralTypes

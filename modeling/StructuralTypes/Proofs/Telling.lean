import StructuralTypes.Proofs.Outcomes
import StructuralTypes.Validator.Answers

/-! Well-formed failures are told. Whether a failure is well formed is a condition on its
children, and where they all have messages at every path so does the failure itself. -/

namespace StructuralTypes.Failure

open Outcome

/-! ### Induction over failures -/

theorem sizeOf_lt_of_mem_children {f : Failure} {p : Value × Failure} (h : p ∈ f.children) :
    sizeOf p.2 < sizeOf f := by
  obtain ⟨given, unexpected, reason, children⟩ := f
  obtain ⟨key, child⟩ := p
  have hlt : sizeOf (key, child) < sizeOf children := List.sizeOf_lt_of_mem h
  simp only [Prod.mk.sizeOf_spec] at hlt
  simp only [mk.sizeOf_spec]
  omega

/-- What holds of a failure whenever it holds of its children holds of every failure. -/
@[elab_as_elim]
theorem induction_children {P : Failure → Prop}
    (h : ∀ f, (∀ p ∈ f.children, P p.2) → P f) (f : Failure) : P f :=
  h f fun p hp =>
    have := sizeOf_lt_of_mem_children hp
    induction_children h p.2
termination_by sizeOf f

/-! ### Conditions on all failures of a tree -/

theorem walkAll_eq_flatMap (children : List (Value × Failure)) :
    walkAll children = children.flatMap fun p => p.2.walk := by
  induction children with
  | nil => rfl
  | cons p rest ih => rw [walkAll, ih, List.flatMap_cons]

/-- What holds of every failure of a tree holds of the first one and in the trees below. -/
theorem forall_mem_walk_iff {Q : Failure → Prop} {f : Failure} :
    (∀ g ∈ f.walk, Q g) ↔ Q f ∧ ∀ p ∈ f.children, ∀ g ∈ p.2.walk, Q g := by
  obtain ⟨given, unexpected, reason, children⟩ := f
  simp only [walk, walkAll_eq_flatMap, List.forall_mem_cons, List.mem_flatMap]
  refine and_congr_right fun _ => ⟨fun h p hp g hg => h g ⟨p, hp, hg⟩, ?_⟩
  rintro h g ⟨p, hp, hg⟩
  exact h p hp g hg

theorem wellFormed_iff {f : Failure} :
    f.WellFormed ↔ f.hasFittingChildren = true ∧ ∀ p ∈ f.children, p.2.WellFormed :=
  forall_mem_walk_iff

theorem hasFittingChildren_kind {k : FailureKind} (hk : k ≠ .withUnion) (given reason : String)
    (children : List (Value × Failure)) :
    hasFittingChildren (mk given (.kind k) reason children) = (children.isEmpty == k.isWhole) := by
  cases k <;> first | rfl | exact absurd rfl hk

/-- A kind that does not speak of the value as a whole has children. -/
theorem children_ne_nil {k : FailureKind} {given reason : String}
    {children : List (Value × Failure)} (hk : k.isWhole = false)
    (h : hasFittingChildren (mk given (.kind k) reason children) = true) : children ≠ [] := by
  rintro rfl
  by_cases hunion : k = .withUnion
  · subst hunion
    cases h
  · rw [hasFittingChildren_kind hunion, hk] at h
    cases h

theorem anyOverlongKey_eq_false_iff {named : Bool} {children : List (Value × Failure)} :
    anyOverlongKey named children = false ↔ ∀ p ∈ children,
      (named = true → p.1.labelsOverlong = false) ∧ p.2.hasOverlongKey = false := by
  induction children with
  | nil => simp [anyOverlongKey]
  | cons p rest ih =>
    obtain ⟨key, child⟩ := p
    simp only [anyOverlongKey, Bool.or_eq_false_iff, ih, List.forall_mem_cons]
    cases named <;> simp [and_assoc]

/-! ### Messages -/

/-- A failure with messages at every path. -/
def IsVocal (f : Failure) : Prop :=
  ∀ path, ∃ messages, f.flatten path = .ok messages ∧ messages.toList ≠ []

theorem complete_ne_nil {messages : Messages} (h : messages.toList ≠ [])
    (finish : String → String) : messages.complete finish ≠ [] := by
  cases messages with
  | one text => exact List.cons_ne_nil _ _
  | many texts => exact h

/-- Children with messages at one path have some together. -/
theorem exists_flattenAll {children : List (Value × Failure)} (h : ∀ p ∈ children, p.2.IsVocal)
    (path : String) : ∃ parts, flattenAll path children = .ok parts
      ∧ (children ≠ [] → Messages.concat parts ≠ []) := by
  induction children with
  | nil => exact ⟨[], rfl, fun h => absurd rfl h⟩
  | cons p rest ih =>
    rw [List.forall_mem_cons] at h
    obtain ⟨messages, hm, hne⟩ := h.1 path
    obtain ⟨parts, hparts, -⟩ := ih h.2
    refine ⟨messages :: parts, ?_, fun _ => by simp [Messages.concat, hne]⟩
    exact (bind_of_ok hm _).trans (bind_of_ok hparts _)

/-- Children with messages at their own paths have some together. -/
theorem exists_flattenKeyed {children : List (Value × Failure)} (h : ∀ p ∈ children, p.2.IsVocal)
    (path : String) (finish : Value → String → String) :
    ∃ texts, flattenKeyed path finish children = .ok texts ∧ (children ≠ [] → texts ≠ []) := by
  induction children with
  | nil => exact ⟨[], rfl, fun h => absurd rfl h⟩
  | cons p rest ih =>
    obtain ⟨key, child⟩ := p
    rw [List.forall_mem_cons] at h
    obtain ⟨messages, hm, hne⟩ := h.1 (joinPath path key)
    obtain ⟨texts, htexts, -⟩ := ih h.2
    refine ⟨messages.complete (finish key) ++ texts, ?_,
      fun _ => by simp [complete_ne_nil hne (finish key)]⟩
    exact (bind_of_ok hm _).trans (bind_of_ok htexts _)

theorem WellFormed.isVocal {f : Failure} (h : f.WellFormed) : f.IsVocal := by
  induction f using induction_children with
  | h f ih =>
    obtain ⟨hfits, hchildren⟩ := wellFormed_iff.1 h
    have hvocal : ∀ p ∈ f.children, p.2.IsVocal := fun p hp => ih p hp (hchildren p hp)
    obtain ⟨given, unexpected, reason, children⟩ := f
    intro path
    obtain ⟨parts, hparts, hne⟩ := exists_flattenAll hvocal path
    have hkeyed := exists_flattenKeyed hvocal path
    cases unexpected with
    | reason text =>
      obtain rfl := List.isEmpty_iff.1 hfits
      exact ⟨_, rfl, List.cons_ne_nil _ _⟩
    | kind k =>
      cases k with
      | withUnion =>
        have hflat : flatten path (mk given (.kind .withUnion) reason children) = _ :=
          bind_of_ok hparts _
        rw [hflat]
        split
        · exact ⟨_, rfl, hne (children_ne_nil rfl hfits)⟩
        · exact ⟨_, rfl, List.cons_ne_nil _ _⟩
      | withIntersection => exact ⟨_, bind_of_ok hparts _, hne (children_ne_nil rfl hfits)⟩
      | inArrayMembers | inTupleMembers | inShapeProperties | inExactShapeProperties =>
        obtain ⟨texts, htexts, hne⟩ := hkeyed _
        exact ⟨_, bind_of_ok htexts _, hne (children_ne_nil rfl hfits)⟩
      | withShape | withExactShape | withArray | withTuple =>
        exact ⟨_, rfl, List.cons_ne_nil _ _⟩

/-- A well-formed failure can be told. -/
theorem WellFormed.isTold {f : Failure} (h : f.WellFormed) : f.IsTold := by
  refine ⟨h, fun path => ?_, ?_⟩
  · obtain ⟨messages, hm, -⟩ := h.isVocal path
    exact ⟨messages, hm⟩
  · obtain ⟨messages, hm, hne⟩ := h.isVocal ""
    exact ⟨messages.toList, bind_of_ok hm _, hne⟩

end StructuralTypes.Failure

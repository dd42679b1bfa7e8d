import StructuralTypes.Failure.Written
import StructuralTypes.Proofs.Calls
import StructuralTypes.Proofs.Flattening

/-! Unions in unions. Alternatives that are tests can be grouped in any way: the first test
that accepts a value decides, and if none does, the one message lists the reasons of all
tests from left to right. -/

namespace StructuralTypes

/-! ### Reasons of alternatives -/

/-- The reasons of all alternatives, as a message names them. -/
def eitherOf : List String → String
  | [reason] => reason
  | reasons => "either " ++ " or ".intercalate reasons

namespace Failure

/-- A failure of a value with a single message, which gives some reasons. -/
structure Says (v : Value) (reasons : List String) (f : Failure) : Prop where
  reasons_ne : reasons ≠ []
  atomic : f.isAtomic = true
  uncrowded : f.hasCrowdedLeaf = false
  shortKeys : f.hasOverlongKey = false
  alternative : f.alternative = " or ".intercalate reasons
  ownText : f.ownText = v.describe ++ " is " ++ eitherOf reasons

/-- Failures of one value that give some reasons one after the other. -/
inductive SaysAll (v : Value) : List String → List Failure → Prop
  | nil : SaysAll v [] []
  | cons {reasons more : List String} {f : Failure} {failures : List Failure}
    (hf : Says v reasons f) (h : SaysAll v more failures) :
    SaysAll v (reasons ++ more) (f :: failures)

section Says

variable {v : Value} {f : Failure} {failures : List Failure} {reasons : List String}

theorem snd_numbered (failures : List Failure) : (numbered failures).map Prod.snd = failures := by
  simp [numbered, Function.comp_def]

theorem alternatives_eq_map (children : List (Value × Failure)) :
    alternatives children = (children.map Prod.snd).map alternative := by
  induction children with
  | nil => rfl
  | cons p rest ih => rw [alternatives, ih, List.map_cons, List.map_cons]

theorem allAtomic_iff {children : List (Value × Failure)} :
    allAtomic children = true ↔ ∀ p ∈ children, p.2.isAtomic = true := by
  induction children with
  | nil => simp [allAtomic]
  | cons p rest ih => rw [allAtomic, Bool.and_eq_true, ih, List.forall_mem_cons]

theorem mem_of_mem_numbered {p : Value × Failure} (h : p ∈ numbered failures) :
    p.2 ∈ failures := by
  rw [← snd_numbered failures]
  exact List.mem_map_of_mem h

theorem says_leaf (v : Value) (reason : String) : Says v [reason] (leaf v reason) where
  reasons_ne := List.cons_ne_nil _ _
  atomic := rfl
  uncrowded := rfl
  shortKeys := rfl
  alternative := by rw [String.intercalate_singleton]; rfl
  ownText := rfl

theorem SaysAll.says (h : SaysAll v reasons failures) (hf : f ∈ failures) :
    ∃ own, Says v own f := by
  induction h with
  | nil => cases hf
  | cons hfirst _ ih =>
    obtain rfl | hf := List.mem_cons.1 hf
    · exact ⟨_, hfirst⟩
    · exact ih hf

theorem SaysAll.eq_nil (h : SaysAll v reasons []) : reasons = [] := by
  cases h
  rfl

/-- An only failure gives all reasons. -/
theorem SaysAll.says_only (h : SaysAll v reasons [f]) : Says v reasons f := by
  cases h with
  | cons hf h => rwa [h.eq_nil, List.append_nil]

theorem SaysAll.length_le (h : SaysAll v reasons failures) :
    failures.length ≤ reasons.length := by
  induction h with
  | nil => exact le_rfl
  | cons hf _ ih =>
    have := List.length_pos_iff.2 hf.reasons_ne
    rw [List.length_cons, List.length_append]
    omega

/-- The alternatives of a union name all reasons. -/
theorem SaysAll.intercalate_alternative (h : SaysAll v reasons failures) :
    " or ".intercalate (failures.map alternative) = " or ".intercalate reasons := by
  induction h with
  | nil => rfl
  | @cons reasons more f failures hf h ih =>
    rw [List.map_cons]
    by_cases hmore : failures = []
    · subst hmore
      cases h
      rw [List.map_nil, String.intercalate_singleton, List.append_nil, hf.alternative]
    · have hpos := List.length_pos_iff.2 hmore
      have hne : more ≠ [] := List.length_pos_iff.1 (hpos.trans_le h.length_le)
      rw [String.intercalate_cons_of_ne_nil (by simpa using hmore), hf.alternative, ih,
        String.intercalate_append_of_ne_nil hf.reasons_ne hne]

theorem eitherOf_of_two_le (h : 2 ≤ reasons.length) :
    eitherOf reasons = "either " ++ " or ".intercalate reasons := by
  match reasons, h with
  | _ :: _ :: _, _ => rfl

/-- A union refuses a value for the reasons of its alternatives. -/
theorem SaysAll.union (h : SaysAll v reasons failures) (hlen : 2 ≤ failures.length) :
    Says v reasons (composite v .withUnion (numbered failures)) where
  reasons_ne := List.length_pos_iff.1 (by have := h.length_le; omega)
  atomic := allAtomic_iff.2 fun p hp => by
    obtain ⟨_, hf⟩ := h.says (mem_of_mem_numbered hp)
    exact hf.atomic
  uncrowded := anyCrowded_eq_false_iff.2 fun p hp => by
    obtain ⟨_, hf⟩ := h.says (mem_of_mem_numbered hp)
    exact hf.uncrowded
  shortKeys := anyOverlongKey_eq_false_iff.2 fun p hp => by
    obtain ⟨_, hf⟩ := h.says (mem_of_mem_numbered hp)
    exact ⟨nofun, hf.shortKeys⟩
  alternative := by
    rw [← h.intercalate_alternative, composite, described, Failure.alternative,
      alternatives_eq_map, snd_numbered]
  ownText := by
    rw [eitherOf_of_two_le (hlen.trans h.length_le), ← h.intercalate_alternative, composite,
      described, Failure.ownText, alternatives_eq_map, snd_numbered]
    simp only [String.append_assoc]
    rfl

theorem Says.tell (h : Says v reasons f) (path : String) :
    f.tell path = .ok (.one (v.describe ++ " is " ++ eitherOf reasons)) := by
  rw [tell_eq_flatten h.shortKeys, flatten_eq_told h.uncrowded, told, if_pos h.atomic, h.ownText]
  rfl

end Says

end Failure

/-! ### Trying tests -/

namespace Validator

open Failure Outcome

/-- Alternatives that are tests, or unions of such alternatives, with the tests in order. -/
inductive Groups : List Validator → List Predicate → Prop
  | nil : Groups [] []
  | test (p : Predicate) {ws : List Validator} {ps : List Predicate} (h : Groups ws ps) :
    Groups (predicate p :: ws) (p :: ps)
  | union {inner ws : List Validator} {ps more : List Predicate} (hne : inner ≠ [])
    (hinner : Groups inner ps) (h : Groups ws more) :
    Groups (Validator.union inner :: ws) (ps ++ more)

/-- Some test accepts a value, or all refuse it and the failure gives their reasons. -/
def Judged (v : Value) (ps : List Predicate) : Option Failure → Prop
  | none => ∃ p ∈ ps, p.accepts v = true
  | some f => (∀ p ∈ ps, p.accepts v = false) ∧ Says v (ps.map Predicate.reason) f

/-- Some test accepts a value, or all refuse it and the failures give their reasons. -/
def Tried (v : Value) (ps : List Predicate) : Option (List Failure) → Prop
  | none => ∃ p ∈ ps, p.accepts v = true
  | some failures =>
    (∀ p ∈ ps, p.accepts v = false) ∧ SaysAll v (ps.map Predicate.reason) failures

section Trying

variable {v : Value} {w : Validator} {ws : List Validator} {p : Predicate}
  {ps more : List Predicate}

theorem evaluate_guard_of_false {cannotRefuse : Value → Bool} (h : cannotRefuse v = false) :
    (guard cannotRefuse w).evaluate v = w.evaluate v := by
  rw [guard, evaluate, h]
  simp only [Bool.and_false, Bool.false_eq_true, if_false]
  cases w.evaluate v <;> rfl

/-- A first alternative and the others, tried in turn. -/
theorem exists_tried_cons {r : Option Failure} {rs : Option (List Failure)}
    (hw : w.evaluate v = .ok (.of r)) (hr : Judged v ps r)
    (hws : refusedByAll ws v = .ok rs) (hrs : Tried v more rs) :
    ∃ all, refusedByAll (w :: ws) v = .ok all ∧ Tried v (ps ++ more) all := by
  cases r with
  | none =>
    obtain ⟨p, hp, ha⟩ := hr
    exact ⟨none, by rw [refusedByAll, hw]; rfl, p, List.mem_append_left _ hp, ha⟩
  | some f =>
    refine ⟨rs.map (f :: ·), by rw [refusedByAll, hw, hws]; rfl, ?_⟩
    cases rs with
    | none =>
      obtain ⟨p, hp, ha⟩ := hrs
      exact ⟨p, List.mem_append_right _ hp, ha⟩
    | some failures =>
      refine ⟨List.forall_mem_append.2 ⟨hr.1, hrs.1⟩, ?_⟩
      rw [List.map_append]
      exact .cons hr.2 hrs.2

/-- Alternatives that were tried make the verdict of a union of them. -/
theorem judged_union (hne : ps ≠ []) (hv : v.isOverlong = false)
    (h : ∃ rs, refusedByAll (guardedAll ws) v = .ok rs ∧ Tried v ps rs) :
    ∃ r, (guarded (.union ws)).evaluate v = .ok (.of r) ∧ Judged v ps r := by
  obtain ⟨rs, hrs, h⟩ := h
  rw [guarded, evaluate_guard_of_false hv, evaluate, hrs]
  rcases rs with _ | _ | ⟨f, _ | ⟨g, failures⟩⟩
  · exact ⟨none, rfl, h⟩
  · exact absurd (List.map_eq_nil_iff.1 h.2.eq_nil) hne
  · exact ⟨some f, rfl, h.1, h.2.says_only⟩
  · exact ⟨some _, rfl, h.1, h.2.union (by simp)⟩

theorem judged_test (hv : v.isOverlong = false) (p : Predicate) :
    ∃ r, (guarded (predicate p)).evaluate v = .ok (.of r) ∧ Judged v [p] r := by
  rw [guarded, evaluate_guard_of_false hv, evaluate]
  cases h : p.accepts v with
  | true => exact ⟨none, rfl, p, List.mem_cons_self, h⟩
  | false => exact ⟨some _, rfl, by simpa using h, says_leaf v p.reason⟩

theorem Groups.ne_nil (h : Groups ws ps) (hne : ws ≠ []) : ps ≠ [] := by
  induction h with
  | nil => exact absurd rfl hne
  | test p h ih => exact List.cons_ne_nil _ _
  | union hinner _ _ ih _ => exact List.append_ne_nil_of_left_ne_nil (ih hinner) _

/-- Unions of tests pass a value on to the tests. -/
theorem Groups.tried (h : Groups ws ps) (hv : v.isOverlong = false) :
    ∃ rs, refusedByAll (guardedAll ws) v = .ok rs ∧ Tried v ps rs := by
  induction h with
  | nil => exact ⟨some [], rfl, by simp, .nil⟩
  | test p h ih =>
    obtain ⟨r, hr, hj⟩ := judged_test hv p
    obtain ⟨rs, hrs, ht⟩ := ih
    exact exists_tried_cons hr hj hrs ht
  | union hne hinner h ihi ih =>
    obtain ⟨r, hr, hj⟩ := judged_union (hinner.ne_nil hne) hv ihi
    obtain ⟨rs, hrs, ht⟩ := ih
    exact exists_tried_cons hr hj hrs ht

theorem Groups.judged (h : Groups [w] ps) (hv : v.isOverlong = false) :
    ∃ r, w.guarded.evaluate v = .ok (.of r) ∧ Judged v ps r := by
  cases h with
  | test p h =>
    cases h
    exact judged_test hv p
  | union hne hinner h =>
    cases h
    rw [List.append_nil]
    exact judged_union (hinner.ne_nil hne) hv (hinner.tried hv)

/-! ### Numbers that cannot be described -/

/-- Such a number passes the first of some tests or none, since to try another one the refusal
of the first would have to be described. -/
def firstDecides (ps : List Predicate) (v : Value) : Except Fault Unit :=
  if ps.head?.any (·.accepts v) then .ok () else .error (.overlong .written)

theorem evaluate_test_overlong (hv : v.isOverlong = true) (p : Predicate) :
    (guarded (predicate p)).evaluate v = (firstDecides [p] v).map fun _ => .passed := by
  rw [guarded, guard, evaluate, evaluate, hv, firstDecides, List.head?_cons, Option.any_some]
  cases p.accepts v <;> rfl

theorem evaluate_union_overlong
    (h : refusedByAll (guardedAll ws) v = (firstDecides ps v).map fun _ => none) :
    (guarded (.union ws)).evaluate v = (firstDecides ps v).map fun _ => .passed := by
  rw [guarded, guard, evaluate, evaluate, h]
  cases firstDecides ps v <;> rfl

theorem refusedByAll_of_passed {x : Except Fault Unit}
    (h : w.evaluate v = x.map fun _ => .passed) (ws : List Validator) :
    refusedByAll (w :: ws) v = x.map fun _ => none := by
  rw [refusedByAll, h]
  cases x <;> rfl

theorem firstDecides_append (hne : ps ≠ []) (more : List Predicate) :
    firstDecides (ps ++ more) v = firstDecides ps v := by
  rw [firstDecides, List.head?_append_of_ne_nil _ hne, firstDecides]

theorem Groups.refusedByAll_overlong (h : Groups ws ps) (hne : ws ≠ [])
    (hv : v.isOverlong = true) :
    refusedByAll (guardedAll ws) v = (firstDecides ps v).map fun _ => none := by
  induction h with
  | nil => exact absurd rfl hne
  | @test p ws ps h ih =>
    rw [guardedAll, refusedByAll_of_passed (evaluate_test_overlong hv p)]
    rfl
  | @union inner ws ps more hinner hg h ihi ih =>
    rw [guardedAll, refusedByAll_of_passed (evaluate_union_overlong (ihi hinner)),
      firstDecides_append (hg.ne_nil hinner)]

theorem Groups.evaluate_overlong (h : Groups [w] ps) (hv : v.isOverlong = true) :
    w.guarded.evaluate v = (firstDecides ps v).map fun _ => .passed := by
  cases h with
  | test p h =>
    cases h
    exact evaluate_test_overlong hv p
  | union hne hinner h =>
    cases h
    rw [List.append_nil]
    exact evaluate_union_overlong (hinner.refusedByAll_overlong hne hv)

/-! ### Verdicts -/

/-- Whether some tests accept a value, where this can be told. -/
def decided (ps : List Predicate) (v : Value) : Except Fault Bool :=
  if v.isOverlong then (firstDecides ps v).map fun _ => true else .ok (ps.any (·.accepts v))

theorem Judged.decided {r : Option Failure} (h : Judged v ps r) :
    (Verdict.of r).ok = ps.any (·.accepts v) := by
  cases r with
  | none => exact (List.any_eq_true.2 h).symm
  | some f => exact (List.any_eq_false.2 fun p hp => by simp [h.1 p hp]).symm

theorem Groups.written_overlong (h : Groups [w] ps) (hv : v.isOverlong = true) :
    w.written v = (firstDecides ps v).map fun _ => .passed := by
  rw [Validator.written, h.evaluate_overlong hv]
  cases firstDecides ps v <;> rfl

theorem Groups.exists_written (h : Groups [w] ps) (hv : v.isOverlong = false) :
    ∃ r, w.written v = .ok (.of r) ∧ Judged v ps r := by
  obtain ⟨r, hr, hj⟩ := h.judged hv
  refine ⟨r, ?_, hj⟩
  rw [Validator.written, bind_of_ok hr, if_neg]
  · rfl
  · cases r with
    | none => exact Bool.false_ne_true
    | some f => simp [Verdict.of, Verdict.failed, hj.2.shortKeys]

/-- The verdict of grouped tests is that of the tests. -/
theorem Groups.ok_written (h : Groups [w] ps) (v : Value) :
    (w.written v).map Verdict.ok = decided ps v := by
  rw [decided]
  split
  · next hv =>
    rw [h.written_overlong hv]
    cases firstDecides ps v <;> rfl
  · next hv =>
    obtain ⟨r, hr, hj⟩ := h.exists_written (Bool.eq_false_iff.2 hv)
    rw [hr, ← hj.decided]
    rfl

/-- A refusal by grouped tests gives the reasons of the tests. -/
theorem Groups.says_written (h : Groups [w] ps) {verdict : Verdict}
    (hw : w.written v = .ok verdict) (hok : verdict.ok = false) :
    ∃ f, verdict.failure = some f ∧ Says v (ps.map Predicate.reason) f := by
  cases hv : v.isOverlong with
  | true =>
    rw [h.written_overlong hv] at hw
    obtain ⟨_, -, rfl⟩ := ok_of_map hw
    cases hok
  | false =>
    obtain ⟨r, hr, hj⟩ := h.exists_written hv
    cases hr.symm.trans hw
    cases r with
    | none => cases hok
    | some f => exact ⟨f, rfl, hj.2⟩

end Trying

end Validator

namespace Node

open Validator Outcome

/-! ### Groups of types -/

/-- A name, or a union of such groups. -/
inductive IsGrouping : Node → Prop
  | leaf (name : String) : IsGrouping (leaf name)
  | union {members : List Node} (hne : members ≠ []) (h : ∀ m ∈ members, IsGrouping m) :
    IsGrouping (union members)

section Grouping

variable {n n' : Node} {resolve : String → Except Fault Validator} {assign : String → Predicate}

theorem exists_compileAll_groups {members : List Node}
    (h : ∀ m ∈ members, ∃ w, m.compile resolve = .ok w ∧ ∀ {ws ps}, Groups ws ps →
      Groups (w :: ws) (m.leafNames.map assign ++ ps)) :
    ∃ ws, compileAll resolve members = .ok ws ∧ ws.length = members.length
      ∧ Groups ws ((members.flatMap leafNames).map assign) := by
  induction members with
  | nil => exact ⟨[], rfl, rfl, .nil⟩
  | cons m rest ih =>
    rw [List.forall_mem_cons] at h
    obtain ⟨w, hw, hg⟩ := h.1
    obtain ⟨ws, hws, hlen, hgs⟩ := ih h.2
    refine ⟨w :: ws, (bind_of_ok hw _).trans (bind_of_ok hws _), by simp [hlen], ?_⟩
    rw [List.flatMap_cons, List.map_append]
    exact hg hgs

/-- A group of names that stand for tests is compiled into a group of these tests. -/
theorem IsGrouping.exists_compile (hn : n.IsGrouping)
    (hr : ∀ name ∈ n.leafNames, resolve name = .ok (.predicate (assign name))) :
    ∃ w, n.compile resolve = .ok w ∧ ∀ {ws ps}, Groups ws ps →
      Groups (w :: ws) (n.leafNames.map assign ++ ps) := by
  induction hn with
  | leaf name => exact ⟨_, hr name List.mem_cons_self, fun h => .test _ h⟩
  | @union members hne h ih =>
    rw [leafNames_union] at hr
    obtain ⟨ws, hws, hlen, hg⟩ := exists_compileAll_groups fun m hm => ih m hm fun name hname =>
      hr name (List.mem_flatMap.2 ⟨m, hm, hname⟩)
    obtain ⟨first, rest, rfl⟩ := List.exists_cons_of_ne_nil hne
    have hws' : ws ≠ [] := by
      rintro rfl
      cases hlen
    refine ⟨.union ws, bind_of_ok hws _, fun h => ?_⟩
    rw [leafNames_union]
    exact .union hws' hg h

/-- How unions of names are nested does not matter where the names stand for tests. Every
nesting gives every value the same verdict, and all refusals have the same single message,
with the reason of every test in reading order. -/
theorem grouping_irrelevant (hn : n.IsGrouping) (hn' : n'.IsGrouping)
    (hnames : n'.leafNames = n.leafNames)
    (hresolve : ∀ name ∈ n.leafNames, resolve name = .ok (.predicate (assign name))) :
    ∃ w w', n.compile resolve = .ok w ∧ n'.compile resolve = .ok w' ∧ ∀ v,
      (w.written v).map Verdict.ok = (w'.written v).map Verdict.ok
      ∧ (v.isOverlong = false → (w.written v).map Verdict.ok
        = .ok (n.leafNames.any fun name => (assign name).accepts v))
      ∧ ∀ verdict, w.written v = .ok verdict ∨ w'.written v = .ok verdict → verdict.ok = false →
        ∃ f, verdict.failure = some f ∧ ∀ path, f.tell path = .ok (.one
          (v.describe ++ " is " ++ eitherOf (n.leafNames.map fun name => (assign name).reason))) := by
  obtain ⟨w, hw, hg⟩ := hn.exists_compile hresolve
  obtain ⟨w', hw', hg'⟩ := hn'.exists_compile (hnames ▸ hresolve)
  have hgroups := hg .nil
  have hgroups' := hg' .nil
  rw [List.append_nil] at hgroups hgroups'
  rw [hnames] at hgroups'
  refine ⟨w, w', hw, hw', fun v => ⟨?_, fun hv => ?_, fun verdict hverdict hok => ?_⟩⟩
  · rw [hgroups.ok_written, hgroups'.ok_written]
  · rw [hgroups.ok_written, decided, hv, List.any_map]
    rfl
  · obtain ⟨f, hf, hsays⟩ := hverdict.elim (fun h => hgroups.says_written h hok)
      fun h => hgroups'.says_written h hok
    rw [List.map_map] at hsays
    exact ⟨f, hf, hsays.tell⟩

/-- The type `int | (string | null)`. -/
def groupedRight : Node :=
  .union [.leaf "int", .union [.leaf "string", .leaf "null"]]

/-- The type `(int | string) | null`. -/
def groupedLeft : Node :=
  .union [.union [.leaf "int", .leaf "string"], .leaf "null"]

theorem grouping_irrelevant_keywords : groupedRight.IsGrouping ∧ groupedLeft.IsGrouping
    ∧ ∃ w w', plainValidator groupedRight = .ok w ∧ plainValidator groupedLeft = .ok w' ∧ ∀ v,
      (w.written v).map Verdict.ok = (w'.written v).map Verdict.ok
      ∧ (v.isOverlong = false → (w.written v).map Verdict.ok
        = .ok (groupedRight.leafNames.any fun name => (keywordPredicate name).accepts v))
      ∧ ∀ verdict, w.written v = .ok verdict ∨ w'.written v = .ok verdict → verdict.ok = false →
        ∃ f, verdict.failure = some f ∧ ∀ path, f.tell path = .ok (.one (v.describe ++ " is "
          ++ eitherOf (groupedRight.leafNames.map fun name => (keywordPredicate name).reason))) := by
  have hpair : ∀ a b, (union [leaf a, leaf b]).IsGrouping := fun a b =>
    .union (List.cons_ne_nil _ _) (by simp [IsGrouping.leaf])
  have hright : groupedRight.IsGrouping :=
    .union (List.cons_ne_nil _ _) (by simp [IsGrouping.leaf, hpair])
  have hleft : groupedLeft.IsGrouping :=
    .union (List.cons_ne_nil _ _) (by simp [IsGrouping.leaf, hpair])
  refine ⟨hright, hleft, grouping_irrelevant hright hleft rfl fun name hname => ?_⟩
  have hnames : groupedRight.leafNames = ["int", "string", "null"] := rfl
  simp only [hnames, List.mem_cons, List.not_mem_nil, or_false] at hname
  obtain rfl | rfl | rfl := hname <;> rfl

end Grouping

end Node

end StructuralTypes

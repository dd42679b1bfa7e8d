import StructuralTypes.Failure.Written
import StructuralTypes.Proofs.Answering

/-! The messages of a failure are what it tells. Messages of parts are put together in the
order of the parts, so that by induction over the tree no failure is lost and none is told
twice, and only a leaf that holds several failures keeps the messages from being made. -/

namespace StructuralTypes

open Outcome

/-! ### Completed messages -/

/-- The message of a part is completed behind its text. -/
theorem FailureKind.finish_eq_append {k : FailureKind} {given path : String}
    {finish : Value → String → String} (h : k.finish? given path = some finish)
    (key : Value) (text : String) : finish key text = text ++ finish key "" := by
  cases k <;> simp only [FailureKind.finish?, reduceCtorEq, Option.some.injEq] at h <;> subst h <;>
    simp only [Failure.atIndex, Failure.inProperty, String.append_assoc, String.empty_append]

theorem FailureKind.isWhole_of_finish {k : FailureKind} {given path : String}
    {finish : Value → String → String} (h : k.finish? given path = some finish) :
    k.isWhole = false := by
  cases k <;> first | rfl | cases h

namespace Failure

variable {children : List (Value × Failure)} {given reason path : String}

/-! ### What a failure tells -/

theorem tellings_of_isAtomic {f : Failure} (h : f.isAtomic = true) (path : String) :
    f.tellings path = [⟨f, ""⟩] := by
  cases f
  simp [tellings, h]

theorem tellers_of_isAtomic {f : Failure} (h : f.isAtomic = true) : f.tellers = [f] := by
  cases f
  simp [tellers, h]

theorem toList_told (f : Failure) (path : String) :
    (f.told path).toList = (f.tellings path).map Telling.text := by
  rw [told]
  split
  · next h => simp [tellings_of_isAtomic h, Messages.toList, Telling.text]
  · rfl

theorem isMany_told (f : Failure) (path : String) : (f.told path).isMany = !f.isAtomic := by
  rw [told]
  cases f.isAtomic <;> rfl

theorem tellingsAll_eq_flatMap (path : String) (children : List (Value × Failure)) :
    tellingsAll path children = children.flatMap fun p => p.2.tellings path := by
  induction children with
  | nil => rfl
  | cons p rest ih => rw [tellingsAll, ih, List.flatMap_cons]

theorem length_tellersAll (h : ∀ p ∈ children, p.2.tellers.length = p.2.points) :
    (tellersAll children).length = pointsAll children := by
  induction children with
  | nil => rfl
  | cons p rest ih =>
    rw [List.forall_mem_cons] at h
    rw [tellersAll, pointsAll, List.length_append, h.1, ih h.2]

/-- There are as many failures with a message as a failure has points. -/
theorem length_tellers (f : Failure) : f.tellers.length = f.points := by
  induction f using induction_children with
  | h f ih =>
    obtain ⟨given, unexpected, reason, children⟩ := f
    have hall : (tellersAll children).length = pointsAll children := length_tellersAll ih
    cases unexpected with
    | reason text =>
      rw [tellers, points]
      split
      · rfl
      · simp only [List.length_cons, hall, Nat.add_comm]
    | kind k =>
      rw [tellers, points]
      split
      · rfl
      · exact hall

theorem teller_tellingsKeyed {place : Value → String}
    (h : ∀ p ∈ children, ∀ path, (p.2.tellings path).map Telling.teller = p.2.tellers) :
    (tellingsKeyed path place children).map Telling.teller = tellersAll children := by
  induction children with
  | nil => rfl
  | cons p rest ih =>
    rw [List.forall_mem_cons] at h
    rw [tellingsKeyed, tellersAll, List.map_append, ih h.2]
    split
    · next ha => rw [tellers_of_isAtomic ha]; rfl
    · rw [h.1]

theorem teller_tellingsAll
    (h : ∀ p ∈ children, ∀ path, (p.2.tellings path).map Telling.teller = p.2.tellers) :
    (tellingsAll path children).map Telling.teller = tellersAll children := by
  induction children with
  | nil => rfl
  | cons p rest ih =>
    rw [List.forall_mem_cons] at h
    rw [tellingsAll, tellersAll, List.map_append, h.1, ih h.2]

/-- At every path the same failures are told. -/
theorem teller_tellings (f : Failure) (path : String) :
    (f.tellings path).map Telling.teller = f.tellers := by
  induction f using induction_children generalizing path with
  | h f ih =>
    obtain ⟨given, unexpected, reason, children⟩ := f
    cases unexpected with
    | reason text =>
      rw [tellings, tellers]
      split
      · rfl
      · exact congrArg _ (teller_tellingsAll ih)
    | kind k =>
      rw [tellings, tellers]
      split
      · rfl
      · split
        · exact teller_tellingsKeyed ih
        · exact teller_tellingsAll ih

/-- Each message of a failure is told by a failure of it, in order. -/
theorem forall₂_isToldBy (f : Failure) (path : String) :
    List.Forall₂ IsToldBy f.tellers (f.told path).toList := by
  rw [toList_told, ← teller_tellings f path, List.forall₂_map_left_iff,
    List.forall₂_map_right_iff]
  exact List.forall₂_same.2 fun t _ => ⟨t.place, rfl⟩

/-! ### Crowded leaves -/

theorem anyCrowded_eq_false_iff :
    anyCrowded children = false ↔ ∀ p ∈ children, p.2.hasCrowdedLeaf = false := by
  induction children with
  | nil => simp [anyCrowded]
  | cons p rest ih => rw [anyCrowded, Bool.or_eq_false_iff, ih, List.forall_mem_cons]

/-! ### Flattening -/

/-- Children whose messages are what they tell. -/
def AreTold (children : List (Value × Failure)) : Prop :=
  ∀ p ∈ children, ∀ path, p.2.flatten path = .ok (p.2.told path)

theorem AreTold.flattenAll (h : AreTold children) (path : String) :
    flattenAll path children = .ok (children.map fun p => p.2.told path) := by
  induction children with
  | nil => rfl
  | cons p rest ih =>
    rw [AreTold, List.forall_mem_cons] at h
    exact (bind_of_ok (h.1 path) _).trans (bind_of_ok (ih h.2) _)

theorem complete_told {finish : String → String}
    (hfinish : ∀ text, finish text = text ++ finish "") (f : Failure) (path : String) :
    (f.told path).complete finish
      = (if f.isAtomic then [⟨f, finish ""⟩] else f.tellings path).map Telling.text := by
  rw [told]
  split
  · simp [Messages.complete, Telling.text, hfinish f.ownText]
  · rfl

theorem AreTold.flattenKeyed (h : AreTold children) (path : String)
    {finish : Value → String → String}
    (hfinish : ∀ key text, finish key text = text ++ finish key "") :
    flattenKeyed path finish children
      = .ok ((tellingsKeyed path (fun key => finish key "") children).map Telling.text) := by
  induction children with
  | nil => rfl
  | cons p rest ih =>
    obtain ⟨key, child⟩ := p
    rw [AreTold, List.forall_mem_cons] at h
    rw [tellingsKeyed, List.map_append, ← complete_told (hfinish key)]
    exact (bind_of_ok (h.1 _) _).trans (bind_of_ok (ih h.2) _)

theorem concat_told (path : String) (children : List (Value × Failure)) :
    Messages.concat (children.map fun p => p.2.told path)
      = (tellingsAll path children).map Telling.text := by
  simp [Messages.concat, tellingsAll_eq_flatMap, List.flatMap_map, List.map_flatMap, toList_told]

theorem any_isMany_told (path : String) (children : List (Value × Failure)) :
    (children.map fun p => p.2.told path).any Messages.isMany = !allAtomic children := by
  induction children with
  | nil => rfl
  | cons p rest ih => rw [List.map_cons, List.any_cons, ih, isMany_told, allAtomic, Bool.not_and]

/-- The messages of a kind that names its parts are the completed messages of the parts. -/
theorem flatten_of_finish {k : FailureKind} {finish : Value → String → String}
    (h : k.finish? given path = some finish) :
    flatten path (mk given (.kind k) reason children)
      = (do return .many (← flattenKeyed path finish children)) := by
  cases k <;> simp only [FailureKind.finish?, reduceCtorEq, Option.some.injEq] at h <;>
    subst h <;> rfl

theorem isAtomic_of_finish {k : FailureKind} {finish : Value → String → String}
    (h : k.finish? given path = some finish) :
    isAtomic (mk given (.kind k) reason children) = false := by
  cases k <;> first | rfl | cases h

theorem told_of_finish {k : FailureKind} {finish : Value → String → String}
    (h : k.finish? given path = some finish) :
    told path (mk given (.kind k) reason children)
      = .many ((tellingsKeyed path (fun key => finish key "") children).map Telling.text) := by
  simp [told, tellings, isAtomic_of_finish h, h]

/-- Without a crowded leaf the messages of a failure are what it tells. -/
theorem flatten_eq_told {f : Failure} (h : f.hasCrowdedLeaf = false) (path : String) :
    f.flatten path = .ok (f.told path) := by
  induction f using induction_children generalizing path with
  | h f ih =>
    obtain ⟨given, unexpected, reason, children⟩ := f
    have htold (hc : anyCrowded children = false) : AreTold children :=
      fun p hp path => ih p hp (anyCrowded_eq_false_iff.1 hc p hp) path
    cases unexpected with
    | reason text =>
      simp only [hasCrowdedLeaf, Bool.or_eq_false_iff, decide_eq_false_iff_not] at h
      match children, h with
      | [], _ => rfl
      | [(key, child)], h =>
        have hchild := htold h.2 _ List.mem_cons_self path
        refine (bind_of_ok hchild _).trans ?_
        rw [toList_told, told, if_neg (by simp [isAtomic]), tellings, if_neg (by simp [isAtomic]),
          tellingsAll, tellingsAll, List.append_nil, List.map_cons, Telling.text,
          String.append_empty]
        rfl
      | _ :: _ :: _, h => exact absurd h.1 (by simp)
    | kind k =>
      cases hk : k.finish? given path with
      | some finish =>
        have hc : anyCrowded children = false := by
          simpa [hasCrowdedLeaf, FailureKind.isWhole_of_finish hk] using h
        rw [flatten_of_finish hk, told_of_finish hk]
        exact bind_of_ok ((htold hc).flattenKeyed path (FailureKind.finish_eq_append hk)) _
      | none =>
        cases k with
        | inArrayMembers | inTupleMembers | inShapeProperties | inExactShapeProperties => cases hk
        | withShape | withExactShape | withArray | withTuple => rfl
        | withUnion =>
          have hall := (htold h).flattenAll path
          refine (bind_of_ok hall _).trans ?_
          simp only [any_isMany_told, concat_told]
          cases ha : allAtomic children <;> simp [told, isAtomic, ha, tellings, hk] <;> rfl
        | withIntersection =>
          have hall := (htold h).flattenAll path
          refine (bind_of_ok hall _).trans ?_
          simp only [concat_told]
          rfl

/-! ### Writing -/

/-- Making messages without keeping them. -/
def isMade {α : Type} (e : Except TypeFault α) : Except Fault Unit :=
  (e.mapError .type).map fun _ => ()

theorem isMade_bind {α β : Type} (e : Except TypeFault α) {f : α → Except TypeFault β}
    (h : ∀ a, ∃ b, f a = .ok b) : isMade (e >>= f) = isMade e := by
  cases e with
  | error fault => rfl
  | ok a =>
    obtain ⟨b, hb⟩ := h a
    rw [bind_of_ok rfl, hb]
    rfl

theorem isMade_bind_bind {α β γ : Type} (e : Except TypeFault α) (e' : Except TypeFault β)
    (f : α → β → γ) :
    isMade (do let a ← e; let b ← e'; return f a b) = (do isMade e; isMade e') := by
  cases e <;> [rfl; (cases e' <;> rfl)]

theorem checkAllTold_eq_flattenAll {named : Bool} (path : String)
    (hkeys : anyOverlongKey named children = false)
    (h : ∀ p ∈ children, ∀ path, p.2.checkTold = isMade (p.2.flatten path)) :
    checkAllTold named children = isMade (flattenAll path children) := by
  induction children with
  | nil => rfl
  | cons p rest ih =>
    rw [List.forall_mem_cons] at h
    simp only [anyOverlongKey, Bool.or_eq_false_iff] at hkeys
    rw [checkAllTold, flattenAll, isMade_bind_bind, h.1 path, ih hkeys.2 h.2, hkeys.1.1]
    rfl

theorem checkAllTold_eq_flattenKeyed {named : Bool} (path : String)
    (finish : Value → String → String) (hkeys : anyOverlongKey named children = false)
    (h : ∀ p ∈ children, ∀ path, p.2.checkTold = isMade (p.2.flatten path)) :
    checkAllTold named children = isMade (flattenKeyed path finish children) := by
  induction children with
  | nil => rfl
  | cons p rest ih =>
    rw [List.forall_mem_cons] at h
    simp only [anyOverlongKey, Bool.or_eq_false_iff] at hkeys
    rw [checkAllTold, flattenKeyed, isMade_bind_bind, h.1 (joinPath path p.1), ih hkeys.2 h.2,
      hkeys.1.1]
    rfl

/-- Where no overlong key is named, checking is making the messages. -/
theorem checkTold_eq {f : Failure} (h : f.hasOverlongKey = false) (path : String) :
    f.checkTold = isMade (f.flatten path) := by
  induction f using induction_children generalizing path with
  | h f ih =>
    obtain ⟨given, unexpected, reason, children⟩ := f
    have hchildren : ∀ p ∈ children, ∀ path, p.2.checkTold = isMade (p.2.flatten path) :=
      fun p hp => ih p hp (anyOverlongKey_eq_false_iff.1 h p hp).2
    cases unexpected with
    | reason text =>
      have hall := checkAllTold_eq_flattenAll path h hchildren
      match children with
      | [] => rfl
      | [(key, child)] =>
        refine hall.trans ((isMade_bind _ fun _ => ⟨_, rfl⟩).trans ?_)
        exact (isMade_bind _ fun _ => ⟨_, rfl⟩).symm
      | _ :: _ :: _ => rfl
    | kind k =>
      cases hk : k.finish? given path with
      | some finish =>
        have hall := checkAllTold_eq_flattenKeyed path finish h hchildren
        rw [flatten_of_finish hk, checkTold, FailureKind.isWhole_of_finish hk]
        exact hall.trans (isMade_bind _ fun _ => ⟨_, rfl⟩).symm
      | none =>
        have hall := checkAllTold_eq_flattenAll path h hchildren
        cases k with
        | inArrayMembers | inTupleMembers | inShapeProperties | inExactShapeProperties => cases hk
        | withShape | withExactShape | withArray | withTuple => rfl
        | withIntersection => exact hall.trans (isMade_bind _ fun _ => ⟨_, rfl⟩).symm
        | withUnion =>
          refine hall.trans (isMade_bind _ fun parts => ?_).symm
          split <;> exact ⟨_, rfl⟩

/-- Where no overlong key is named, all messages can be written. -/
theorem tell_eq_flatten {f : Failure} (h : f.hasOverlongKey = false) (path : String) :
    f.tell path = (f.flatten path).mapError .type := by
  rw [tell, checkTold_eq h path]
  cases f.flatten path <;> rfl

/-- Writing is kept up by an overlong key or by a crowded leaf. -/
def IsStopped (overlong crowded : Prop) (e : Fault) : Prop :=
  e = .overlong .written ∧ overlong
    ∨ (∃ text count, e = .ofCause (.leafWithChildren text count)) ∧ crowded

theorem ends_checkAllTold (named : Bool) (h : ∀ p ∈ children,
      Ends (IsStopped (p.2.hasOverlongKey = true) (p.2.hasCrowdedLeaf = true))
        (fun _ => p.2.hasCrowdedLeaf = false) p.2.checkTold) :
    Ends (IsStopped (anyOverlongKey named children = true) (anyCrowded children = true))
      (fun _ => anyCrowded children = false) (checkAllTold named children) := by
  induction children with
  | nil => rfl
  | cons p rest ih =>
    obtain ⟨key, child⟩ := p
    rw [List.forall_mem_cons] at h
    simp only [checkAllTold, anyOverlongKey, anyCrowded]
    cases hkey : named && key.labelsOverlong with
    | true => exact .inl ⟨rfl, rfl⟩
    | false =>
      refine Ends.bind (h.1.imp (fun e he => ?_) fun _ => id) fun _ hchild => ?_
      · exact he.imp (fun he => ⟨he.1, by simp [he.2]⟩) fun he => ⟨he.1, by simp [he.2]⟩
      · refine (ih h.2).imp (fun e he => ?_) fun _ hrest => by simp [hchild, hrest]
        exact he.imp (fun he => ⟨he.1, by simp [he.2]⟩) fun he => ⟨he.1, by simp [he.2]⟩

/-- Checking ends at an overlong key that is named, or at a crowded leaf, or goes through and
there is no such leaf. -/
theorem ends_checkTold (f : Failure) :
    Ends (IsStopped (f.hasOverlongKey = true) (f.hasCrowdedLeaf = true))
      (fun _ => f.hasCrowdedLeaf = false) f.checkTold := by
  induction f using induction_children with
  | h f ih =>
    obtain ⟨given, unexpected, reason, children⟩ := f
    rw [Failure.children] at ih
    cases unexpected with
    | reason text =>
      have hall := ends_checkAllTold false ih
      rw [checkTold]
      split
      · next hlt => exact .inr ⟨⟨_, _, rfl⟩, by simp [hasCrowdedLeaf, hlt]⟩
      · next hlt => simpa [hasCrowdedLeaf, hlt, hasOverlongKey, Unexpected.kind?] using hall
    | kind k =>
      have hall := ends_checkAllTold k.namesKeys ih
      rw [checkTold]
      split
      · next hk => simp [hasCrowdedLeaf, hk, Ends, pure, Except.pure]
      · next hk => simpa [hasCrowdedLeaf, hk, hasOverlongKey, Unexpected.kind?] using hall

/-! ### What is promised -/

/-- The ways in which telling a failure can end. -/
theorem tell_cases (f : Failure) (path : String) :
    (f.tell path = .error (.overlong .written) ∧ f.hasOverlongKey = true)
      ∨ (∃ text count, f.tell path = .error (.ofCause (.leafWithChildren text count)))
        ∧ f.hasCrowdedLeaf = true
      ∨ f.tell path = .ok (f.told path) ∧ f.hasCrowdedLeaf = false := by
  have hends := ends_checkTold f
  cases hcheck : f.checkTold with
  | ok a =>
    rw [hcheck] at hends
    refine .inr (.inr ⟨?_, hends⟩)
    rw [tell, bind_of_ok hcheck, flatten_eq_told hends]
    rfl
  | error e =>
    rw [hcheck] at hends
    have htell : f.tell path = .error e := bind_of_error hcheck _
    obtain ⟨rfl, ho⟩ | ⟨⟨text, count, rfl⟩, hc⟩ := hends
    · exact .inl ⟨htell, ho⟩
    · exact .inr (.inl ⟨⟨text, count, htell⟩, hc⟩)

theorem flattens_of_crowded {f : Failure} (hc : f.hasCrowdedLeaf = true) {text : String}
    {count : ℕ} (h : f.tell path = .error (.ofCause (.leafWithChildren text count))) :
    f.Flattens path where
  fails := ⟨fun _ => hc, fun _ => ⟨_, rfl, h⟩⟩
  single hf := by rw [hc] at hf; cases hf
  several hf := by rw [hc] at hf; cases hf

theorem flattens_of_told {f : Failure} (hc : f.hasCrowdedLeaf = false)
    (h : f.tell path = .ok (f.told path)) : f.Flattens path where
  fails := by simp [h, hc]
  single _ := by
    rw [h, told]
    cases f.isAtomic <;> simp
  several _ ha := by
    have hall := forall₂_isToldBy f path
    refine ⟨(f.told path).toList, ?_, hall.length_eq.symm.trans (length_tellers f), hall⟩
    rw [h, toList_told, told, ha]
    rfl

/-- Promised messages are written. -/
theorem Flattens.tell_ne {f : Failure} (h : f.Flattens path) :
    f.tell path ≠ .error (.overlong .written) := by
  intro herror
  cases hc : f.hasCrowdedLeaf with
  | true =>
    obtain ⟨cause, -, hcause⟩ := h.fails.2 hc
    rw [herror] at hcause
    cases hcause
  | false =>
    cases ha : f.isAtomic with
    | true =>
      obtain ⟨text, htext⟩ := (h.single hc).2 ha
      rw [herror] at htext
      cases htext
    | false =>
      obtain ⟨texts, htexts, -⟩ := h.several hc ha
      rw [herror] at htexts
      cases htexts

/-- The messages of a failure are as promised just where their making does not end at an overlong
key. In particular they are when no such key is named. -/
theorem flattens_iff (f : Failure) (path : String) :
    (f.Flattens path ↔ f.tell path ≠ .error (.overlong .written))
      ∧ (f.hasOverlongKey = false → f.Flattens path) := by
  have hcases := tell_cases f path
  refine ⟨⟨Flattens.tell_ne, fun hne => ?_⟩, fun hkeys => ?_⟩
  · obtain ⟨herror, -⟩ | ⟨⟨_, _, h⟩, hc⟩ | ⟨h, hc⟩ := hcases
    · exact absurd herror hne
    · exact flattens_of_crowded hc h
    · exact flattens_of_told hc h
  · obtain ⟨-, ho⟩ | ⟨⟨_, _, h⟩, hc⟩ | ⟨h, hc⟩ := hcases
    · rw [hkeys] at ho
      cases ho
    · exact flattens_of_crowded hc h
    · exact flattens_of_told hc h

/-- An array with an item that no alternative takes, and another one with a wrong property. -/
def mixedItems : Failure :=
  mk "array `T[]`" (.kind .inArrayMembers) "incompatible in array members"
    [(.int 0, mk "int literal 1" (.kind .withUnion) "incompatible with union"
      [(.int 0, leaf (.int 1) "incompatible with string"),
       (.int 1, leaf (.int 1) "incompatible with null")]),
     (.int 2, mk "shape" (.kind .withUnion) "incompatible with union"
      [(.int 0, leaf (.int 1) "incompatible with string"),
       (.int 1, mk "shape" (.kind .inShapeProperties) "incompatible in shape properties"
        [(.text "id", leaf .null "incompatible with int")])])]

theorem flattens_mixedItems : mixedItems.hasOverlongKey = false ∧ mixedItems.Flattens "" :=
  ⟨by decide +kernel, (flattens_iff mixedItems "").2 (by decide +kernel)⟩

/-- A mapping whose only key cannot be written, refused where texts are expected. -/
def overlongItem : Failure :=
  composite (.mapping [(Node.overlongValue, .int 1)]) .inArrayMembers
    [(Node.overlongValue, leaf (.int 1) "incompatible with string")]

/-- There is no message for the item, nor is a leaf crowded. -/
theorem overlongItem_not_flattens : ¬overlongItem.Flattens "" := by
  have hkey : Node.overlongValue.labelsOverlong = true := by decide +kernel
  have htell : overlongItem.tell "" = .error (.overlong .written) := by
    rw [tell, overlongItem, composite, described, checkTold]
    simp only [checkAllTold, hkey]
    rfl
  exact fun h => h.tell_ne htell

end Failure

end StructuralTypes

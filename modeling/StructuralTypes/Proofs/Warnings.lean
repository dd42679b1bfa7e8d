import Mathlib.Algebra.Ring.Nat
import StructuralTypes.Level.Listener
import StructuralTypes.Proofs.Outcomes
import StructuralTypes.Proofs.Passes
import StructuralTypes.Proofs.Walk

/-! Remarks on a type. Reading goes the same way whether someone listens or not, and there is
one remark for each exact shape with an indexer in the type that is read: every shape that a
pass makes gets into the type, once. -/

namespace StructuralTypes

/-! ### Readings with and without a listener -/

namespace Reading

variable {m : Type → Type} [Monad m] {α β : Type} {listener : Listener m}

/-- A reading with a listener that ends like the one that collects its remarks, and all that it
does is to tell the listener of these. -/
def Follows (listener : Listener m) (told : ExceptT Fault m α) (r : Reading α) : Prop :=
  ∃ result added, (∀ warnings, r.run warnings = (result, warnings ++ added))
    ∧ told.run = do added.forM listener.tell; return result

variable [LawfulMonad m]

theorem follows_ofExcept (e : Except Fault α) :
    Follows listener (ExceptT.mk (pure e)) (Reading.ofExcept e) :=
  ⟨e, [], fun warnings => by rw [List.append_nil]; rfl, by simp⟩

theorem follows_pure (a : α) : Follows listener (pure a) (pure a) :=
  follows_ofExcept (.ok a)

theorem follows_throw (fault : Fault) :
    Follows listener (throw fault : ExceptT Fault m α) (throw fault) :=
  follows_ofExcept (.error fault)

theorem follows_warn (w : Warning) :
    Follows listener (ExceptT.lift (listener.tell w)) (Reading.warn w) :=
  ⟨.ok (), [w], fun _ => rfl, by simp⟩

theorem Follows.bind {told : ExceptT Fault m α} {r : Reading α} {next' : α → ExceptT Fault m β}
    {next : α → Reading β} (h : Follows listener told r)
    (hn : ∀ a, Follows listener (next' a) (next a)) :
    Follows listener (told >>= next') (r >>= next) := by
  obtain ⟨result, added, hr, htold⟩ := h
  cases result with
  | error fault =>
    refine ⟨.error fault, added, fun warnings => by rw [run_bind, hr], ?_⟩
    rw [ExceptT.run_bind, htold]
    simp
  | ok a =>
    obtain ⟨result, more, hr', htold'⟩ := hn a
    refine ⟨result, added ++ more, fun warnings => ?_, ?_⟩
    · rw [run_bind, hr]
      simp only [hr', List.append_assoc]
    · rw [ExceptT.run_bind, htold]
      simp [htold', List.forM_append]

end Reading

namespace Listener

open Item Reading

variable {m : Type → Type} [Monad m] [LawfulMonad m] {listener : Listener m}

theorem follows_readShape (exact : Bool) (item : Item) :
    Follows listener (listener.readShape exact item) (Item.readShape exact item) := by
  refine (follows_ofExcept _).bind fun n => ?_
  match n with
  | .shape true ps (some ix) => exact (follows_warn _).bind fun _ => follows_pure _
  | .shape true ps none | .shape false ps ix => exact follows_pure _
  | .leaf _ | .union _ | .intersection _ | .array _ | .tuple _ | .stray _ => exact follows_pure _

omit [LawfulMonad m] in
theorem resolvePrefixBy_cons {kind : TokenKind} {read : Item → ExceptT Fault m Node} {item : Item}
    (h : item.isKind kind = false) (rest : List Item) :
    resolvePrefixBy kind read (item :: rest)
      = (do return item :: (← resolvePrefixBy kind read rest)) := by
  cases item with
  | token t =>
    have ht : t.kind ≠ kind := by simpa [isKind] using h
    rw [resolvePrefixBy.eq_def]
    simp only [if_neg ht]
  | _ => rfl

theorem follows_resolvePrefix {kind : TokenKind} {told : Item → ExceptT Fault m Node}
    {read : Item → Reading Node} (h : ∀ operand, Follows listener (told operand) (read operand)) :
    ∀ items, Follows listener (resolvePrefixBy kind told items) (resolvePrefix kind read items)
  | [] => follows_pure []
  | item :: rest => by
    by_cases hk : item.isKind kind = true
    · cases item with
      | token t =>
        have ht : t.kind = kind := by simpa [isKind] using hk
        rw [resolvePrefixBy.eq_def, resolvePrefix.eq_def]
        simp only [if_pos ht]
        cases rest with
        | nil => exact follows_throw (.ofCause (.markerWithoutType t.surface))
        | cons operand rest =>
          by_cases hno : operand.isNoOperand = true
          · simp only [hno, if_true]
            exact follows_throw (.ofCause (.markerWithoutType t.surface))
          · simp only [hno, Bool.false_eq_true, if_false]
            exact (h operand).bind fun n => (follows_resolvePrefix h rest).bind fun out =>
              follows_pure _
      | _ => simp [isKind] at hk
    · have hk : item.isKind kind = false := by simpa using hk
      rw [resolvePrefixBy_cons hk, resolvePrefix_cons hk]
      exact (follows_resolvePrefix h rest).bind fun out => follows_pure _

theorem follows_resolve (items : List Item) :
    Follows listener (listener.resolve items) (Item.resolve items) := by
  refine (follows_resolvePrefix (follows_readShape true) items).bind fun items => ?_
  refine (follows_resolvePrefix (follows_readShape false) items).bind fun items => ?_
  refine (follows_resolvePrefix (fun item => (follows_ofExcept _).bind fun n => follows_pure _)
    items).bind fun items => ?_
  refine (follows_resolvePrefix (fun item => (follows_ofExcept _).bind fun ns => follows_pure _)
    items).bind fun items => ?_
  refine (follows_ofExcept _).bind fun items => ?_
  refine (follows_resolvePrefix (fun item => (follows_ofExcept _).bind fun n => follows_pure _)
    items).bind fun items => ?_
  exact (follows_ofExcept _).bind fun items => (follows_ofExcept _).bind fun items =>
    follows_ofExcept _

mutual

theorem follows_ofTree :
    ∀ tree, Follows listener (listener.ofTree tree) (Item.ofTree tree)
  | .token _ => follows_pure _
  | .group trees => (follows_ofTrees trees).bind follows_resolve
  | .stray _ => follows_pure _

theorem follows_ofTrees :
    ∀ trees, Follows listener (listener.ofTrees trees) (Item.ofTrees trees)
  | [] => follows_pure []
  | tree :: rest => (follows_ofTree tree).bind fun _ => (follows_ofTrees rest).bind fun _ =>
    follows_pure _

end

theorem follows_typeOf (trees : List TokenTree) :
    Follows listener (listener.typeOf trees) (Node.ofTree trees) := by
  refine (follows_ofTree (.group trees)).bind fun item => ?_
  match item with
  | .group [] => exact follows_throw (.ofCause .emptyTree)
  | .group (_ :: _) | .token _ | .node _ | .body .. | .stray _ => exact follows_ofExcept _

end Listener

/-! ### Counting exact shapes with an indexer -/

namespace Node

theorem exactIndexers_eq_sum {n : Node} (h : n.isStray = false)
    (hn : ∀ ps i, n ≠ .shape true ps (some i)) :
    n.exactIndexers = (n.parts.map exactIndexers).sum := by
  rw [exactIndexers, walk_eq_cons h, List.countP_cons_of_neg, List.countP_flatMap]
  · rfl
  · split
    · exact absurd rfl (hn _ _)
    · decide

theorem exactIndexers_shape (ps : List Property) (i : Indexer) :
    (shape true ps (some i)).exactIndexers = (shape false ps (some i)).exactIndexers + 1 := by
  rw [exactIndexers, walk_eq_cons rfl, List.countP_cons_of_pos rfl,
    exactIndexers_eq_sum rfl (by simp), List.countP_flatMap]
  rfl

@[simp] theorem exactIndexers_leaf (name : String) : (leaf name).exactIndexers = 0 :=
  exactIndexers_eq_sum rfl (by simp)

@[simp] theorem exactIndexers_array (element : Node) :
    (array element).exactIndexers = element.exactIndexers := by
  rw [exactIndexers_eq_sum rfl (by simp)]
  simp [parts]

@[simp] theorem exactIndexers_union (members : List Node) :
    (union members).exactIndexers = (members.map exactIndexers).sum :=
  exactIndexers_eq_sum rfl (by simp)

@[simp] theorem exactIndexers_intersection (members : List Node) :
    (intersection members).exactIndexers = (members.map exactIndexers).sum :=
  exactIndexers_eq_sum rfl (by simp)

@[simp] theorem exactIndexers_tuple (elements : List Node) :
    (tuple elements).exactIndexers = (elements.map exactIndexers).sum :=
  exactIndexers_eq_sum rfl (by simp)

end Node

namespace Item

mutual

/-- The exact shapes with an indexer in the types that an item is made of so far. -/
def exactIndexers : Item → Nat
  | token _ | stray _ => 0
  | node n => n.exactIndexers
  | group items => exactIndexersAll items
  | body properties indexer => (Node.shape false properties indexer).exactIndexers

def exactIndexersAll : List Item → Nat
  | [] => 0
  | item :: rest => item.exactIndexers + exactIndexersAll rest

end

@[simp] theorem exactIndexersAll_append (items rest : List Item) :
    exactIndexersAll (items ++ rest) = exactIndexersAll items + exactIndexersAll rest := by
  induction items with
  | nil => simp [exactIndexersAll]
  | cons item items ih => simp [exactIndexersAll, ih, Nat.add_assoc]

theorem exactIndexers_of_isKind {item : Item} {kind : TokenKind} (h : item.isKind kind = true) :
    item.exactIndexers = 0 := by
  cases item with
  | token t => rw [exactIndexers]
  | _ => simp [isKind] at h

theorem exactIndexers_body_property (ps : List Property) (ix : Option Indexer) (p : Property) :
    (body (ps ++ [p]) ix).exactIndexers = (body ps ix).exactIndexers + p.value.exactIndexers := by
  simp only [exactIndexers]
  rw [Node.exactIndexers_eq_sum rfl (by simp), Node.exactIndexers_eq_sum rfl (by simp)]
  simp only [Node.parts, List.map_append, List.map_cons, List.map_nil, List.sum_append,
    List.sum_cons, List.sum_nil]
  omega

theorem exactIndexers_body_indexer (ps : List Property) (name : String) (value : Node) :
    (body ps (some (.mk (.leaf name) value))).exactIndexers
      = (body ps none).exactIndexers + value.exactIndexers := by
  simp only [exactIndexers]
  rw [Node.exactIndexers_eq_sum rfl (by simp), Node.exactIndexers_eq_sum rfl (by simp)]
  simp [Node.parts, Indexer.key, Indexer.value]

/-! ### Items as types -/

mutual

theorem exactIndexers_asType : ∀ {item : Item} {n : Node}, item.asType = .ok n →
    n.exactIndexers = item.exactIndexers
  | .node _, _, h => by
    cases h
    rw [exactIndexers]
  | .group [item], n, h => by
    rw [exactIndexers, exactIndexersAll, exactIndexersAll, Nat.add_zero]
    exact exactIndexers_asType h
  | .group (first :: second :: rest), _, h => by
    obtain ⟨ns, hns, h⟩ := Outcome.ok_of_bind h
    cases h
    rw [Node.exactIndexers_union, exactIndexers_asTypes hns, exactIndexers]

theorem exactIndexers_asTypes : ∀ {items : List Item} {ns : List Node}, asTypes items = .ok ns →
    (ns.map Node.exactIndexers).sum = exactIndexersAll items
  | [], _, h => by
    cases h
    rfl
  | item :: rest, _, h => by
    obtain ⟨n, hn, h⟩ := Outcome.ok_of_bind h
    obtain ⟨ns, hns, h⟩ := Outcome.ok_of_bind h
    cases h
    rw [List.map_cons, List.sum_cons, exactIndexers_asType hn, exactIndexers_asTypes hns,
      exactIndexersAll]

end

theorem exactIndexers_asElements {item : Item} {ns : List Node} (h : item.asElements = .ok ns) :
    (ns.map Node.exactIndexers).sum = item.exactIndexers := by
  have hone : (do return [← item.asType]) = Except.ok ns →
      (ns.map Node.exactIndexers).sum = item.exactIndexers := by
    intro h
    obtain ⟨n, hn, h⟩ := Outcome.ok_of_bind h
    cases h
    simpa using exactIndexers_asType hn
  cases item with
  | group items =>
    cases items with
    | nil => cases h
    | cons first rest =>
      rw [exactIndexers]
      exact exactIndexers_asTypes h
  | _ => exact hone h

theorem exactIndexers_entryType {name : String} {items : List Item} {n : Node}
    (h : entryType name items = .ok n) : n.exactIndexers = exactIndexersAll items := by
  match items with
  | [item] =>
    rw [exactIndexersAll, exactIndexersAll, Nat.add_zero]
    exact exactIndexers_asType h
  | first :: second :: rest =>
    obtain ⟨ns, hns, h⟩ := Outcome.ok_of_bind h
    cases h
    rw [Node.exactIndexers_union, exactIndexers_asTypes hns]

/-! ### Passes that make no remarks -/

/-- The type of an item with a suffix behind it takes the place of both. -/
theorem exactIndexersAll_resolveSuffixes {items out : List Item} {last : Option Item}
    (h : resolveSuffixes last items = .ok out) :
    exactIndexersAll out = exactIndexersAll (last.toList ++ items) := by
  induction items generalizing last out with
  | nil =>
    cases h
    rw [List.append_nil]
  | cons item rest ih =>
    obtain ⟨-, more, hmore, rfl⟩ | ⟨t, previous, rfl, -, rfl, -, hwrap⟩ := resolveSuffixes_cases h
    · rw [exactIndexersAll_append, ih hmore]
      simp [exactIndexersAll]
    · obtain ⟨rfl, more, hmore, rfl⟩ | ⟨n, hn, h⟩ := hwrap
      · rw [exactIndexersAll, ih hmore]
        simp [exactIndexersAll, exactIndexers]
      · rw [ih h]
        simp [exactIndexersAll, exactIndexers, exactIndexers_asType hn]

section Fold

variable {kind : TokenKind} {make : List Node → Node}
  (hmake : ∀ members, (make members).exactIndexers = (members.map Node.exactIndexers).sum)

include hmake

theorem exactIndexers_members {pending : Pending} {operator : String} {members : List Node}
    (h : pending.members operator = .ok members) :
    (members.map Node.exactIndexers).sum = exactIndexersAll (pending.flush make) := by
  have hone : ∀ {item : Item}, (do return [← item.asType]) = Except.ok members →
      (members.map Node.exactIndexers).sum = exactIndexersAll [item] := by
    intro item h
    obtain ⟨n, hn, h⟩ := Outcome.ok_of_bind h
    cases h
    simpa [exactIndexersAll] using exactIndexers_asType hn
  cases pending with
  | nothing => cases h
  | item i =>
    cases i with
    | token t => cases h
    | _ => exact hone h
  | chain ms =>
    cases h
    simp [Pending.flush, exactIndexersAll, exactIndexers, hmake]

/-- A chain of operands takes the place of all of them. -/
theorem exactIndexersAll_foldOperator : ∀ {items : List Item} {pending : Pending} {out : List Item},
    foldOperator kind make pending items = .ok out →
    exactIndexersAll out = exactIndexersAll (pending.flush make ++ items)
  | [], _, _, h => by
    cases h
    rw [List.append_nil]
  | item :: rest, pending, out, h => by
    obtain ⟨-, more, hmore, rfl⟩ | ⟨t, operand, behind, members, n, rfl, -, rfl, -, hm, hn, h⟩ :=
      foldOperator_cases h
    · rw [exactIndexersAll_append, exactIndexersAll_foldOperator hmore]
      simp [Pending.flush, exactIndexersAll]
    · rw [exactIndexersAll_foldOperator h, exactIndexersAll_append, exactIndexersAll_append,
        ← exactIndexers_members hmake hm]
      simp [Pending.flush, exactIndexersAll, exactIndexers, hmake, exactIndexers_asType hn,
        Nat.add_assoc]

end Fold

/-- The exact shapes with an indexer among the items of entries. -/
def exactIndexersOf (entries : List (String × List Item)) : Nat :=
  (entries.map fun entry => exactIndexersAll entry.2).sum

theorem exactIndexersOf_entries {items : List Item} {current : Option (String × List Item)}
    {es : List (String × List Item)} (h : entries current items = .ok es) :
    exactIndexersOf es = exactIndexersOf current.toList + exactIndexersAll items := by
  induction items generalizing current es with
  | nil =>
    cases h
    rw [exactIndexersAll, Nat.add_zero]
  | cons item rest ih =>
    rw [entries.eq_def] at h
    rw [exactIndexersAll]
    by_cases hk : item.isKind .colon = true
    · simp only [hk, if_true] at h
      rw [ih h, exactIndexers_of_isKind hk, Nat.zero_add]
    · simp only [hk, Bool.false_eq_true, if_false] at h
      by_cases hn : (rest.head?.map (isKind .colon)).getD false = true
      · simp only [hn, if_true] at h
        split at h
        · obtain ⟨more, hmore, h⟩ := Outcome.ok_of_bind h
          cases h
          rw [exactIndexersOf, List.map_append, List.sum_append]
          change exactIndexersOf _ + exactIndexersOf more = _
          rw [ih hmore]
          simp [exactIndexersOf, exactIndexersAll, exactIndexers]
        · cases h
      · simp only [hn, Bool.false_eq_true, if_false] at h
        rcases current with _ | ⟨name, values⟩
        · cases h
        · rw [ih h]
          simp [exactIndexersOf, exactIndexersAll, Nat.add_assoc]

theorem exactIndexers_addEntries {es : List (String × List Item)} {ps : List Property}
    {ix : Option Indexer} {item : Item} (h : addEntries ps ix es = .ok item) :
    item.exactIndexers = (body ps ix).exactIndexers + exactIndexersOf es := by
  induction es generalizing ps ix with
  | nil =>
    cases h
    rfl
  | cons entry rest ih =>
    obtain ⟨name, items⟩ := entry
    have hsum : exactIndexersOf ((name, items) :: rest)
        = exactIndexersAll items + exactIndexersOf rest := rfl
    obtain ⟨value, hvalue, h⟩ := Outcome.ok_of_bind h
    rw [hsum, ← exactIndexers_entryType hvalue, ← Nat.add_assoc]
    by_cases hq : (Escapes.quoted? name.toList).isSome = true
    · simp only [hq, if_true] at h
      by_cases hd : ps.any (·.key == keyText name) = true
      · simp only [hd, if_true] at h
        cases h
      · simp only [hd, Bool.false_eq_true, if_false] at h
        rw [ih h, exactIndexers_body_property]
        rfl
    · simp only [hq, Bool.false_eq_true, if_false] at h
      cases ix with
      | some indexer => cases h
      | none => rw [ih h, exactIndexers_body_indexer]

theorem exactIndexers_close {items : List Item} {item : Item} (h : close items = .ok item) :
    item.exactIndexers = exactIndexersAll items := by
  rw [close.eq_def] at h
  split at h
  · obtain ⟨es, hes, h⟩ := Outcome.ok_of_bind h
    rw [exactIndexers_addEntries h, exactIndexersOf_entries hes, exactIndexers,
      Node.exactIndexers_eq_sum rfl (by simp)]
    simp [Node.parts, exactIndexersOf]
  · split at h
    · cases h
      rw [exactIndexersAll, exactIndexersAll, Nat.add_zero]
    · cases h
      rw [exactIndexers]

theorem exactIndexersAll_filter_comma (items : List Item) :
    exactIndexersAll (items.filter (!·.isKind .comma)) = exactIndexersAll items := by
  induction items with
  | nil => rfl
  | cons item rest ih =>
    rw [exactIndexersAll]
    by_cases hk : item.isKind .comma = true
    · rw [List.filter_cons_of_neg (by simp [hk]), ih, exactIndexers_of_isKind hk, Nat.zero_add]
    · rw [List.filter_cons_of_pos (by simpa using hk), exactIndexersAll, ih]

end Item

/-! ### Counting remarks -/

namespace Reading

/-- Whatever a reading results in goes with the number of remarks that were made meanwhile. -/
def Tallies {α : Type} (r : Reading α) (P : α → Nat → Prop) : Prop :=
  ∀ warnings a after, r.run warnings = (.ok a, after) →
    ∃ calls, after.length = warnings.length + calls ∧ P a calls

variable {α β : Type} {P : α → Nat → Prop} {Q : β → Nat → Prop}

theorem tallies_ofExcept {e : Except Fault α} (h : ∀ a, e = .ok a → P a 0) :
    Tallies (Reading.ofExcept e) P := by
  intro warnings a after hrun
  obtain ⟨rfl, rfl⟩ := Prod.mk.inj hrun
  exact ⟨0, rfl, h a rfl⟩

theorem tallies_pure {a : α} (h : P a 0) : Tallies (pure a) P :=
  tallies_ofExcept (e := .ok a) fun _ hb => Except.ok.inj hb ▸ h

theorem tallies_throw {fault : Fault} : Tallies (throw fault) P := nofun

theorem tallies_warn {w : Warning} {P : Unit → Nat → Prop} (h : P () 1) :
    Tallies (Reading.warn w) P := by
  rintro warnings _ _ ⟨⟩
  exact ⟨1, List.length_append, h⟩

theorem Tallies.imp {r : Reading α} {P' : α → Nat → Prop} (h : Tallies r P)
    (hP : ∀ a calls, P a calls → P' a calls) : Tallies r P' := by
  intro warnings a after hrun
  obtain ⟨calls, hcalls, ha⟩ := h warnings a after hrun
  exact ⟨calls, hcalls, hP a calls ha⟩

theorem Tallies.bind {r : Reading α} {f : α → Reading β} (h : Tallies r P)
    (hf : ∀ a calls, P a calls → Tallies (f a) fun b more => Q b (calls + more)) :
    Tallies (r >>= f) Q := by
  intro warnings b after hrun
  rw [run_bind] at hrun
  rcases hr : r.run warnings with ⟨fault | a, middle⟩ <;> rw [hr] at hrun
  · cases hrun
  · obtain ⟨calls, hcalls, ha⟩ := h warnings a middle hr
    obtain ⟨more, hmore, hb⟩ := hf a calls ha middle b after hrun
    exact ⟨calls + more, by omega, hb⟩

end Reading

namespace Item

open Reading

/-- A way to read an operand that makes a remark for each exact shape with an indexer that it
adds to those of the operand. -/
def TalliesOperand (read : Item → Reading Node) : Prop :=
  ∀ item, Tallies (read item) fun n calls => n.exactIndexers = item.exactIndexers + calls

theorem talliesOperand_ofExcept {α : Type} {parts : Item → Except Fault α} {make : α → Node}
    (h : ∀ item a, parts item = .ok a → (make a).exactIndexers = item.exactIndexers) :
    TalliesOperand fun item => do return make (← Reading.ofExcept (parts item)) := by
  intro item
  refine (tallies_ofExcept (P := fun a calls => parts item = .ok a ∧ calls = 0)
    fun a ha => ⟨ha, rfl⟩).bind ?_
  rintro a _ ⟨ha, rfl⟩
  exact tallies_pure (h item a ha)

theorem talliesOperand_readArray : TalliesOperand readArray :=
  talliesOperand_ofExcept fun item n hn => by
    rw [Node.exactIndexers_array, exactIndexers_asType hn]

theorem talliesOperand_readTuple : TalliesOperand readTuple :=
  talliesOperand_ofExcept fun item ns hns => by
    rw [Node.exactIndexers_tuple, exactIndexers_asElements hns]

theorem talliesOperand_readOptional : TalliesOperand readOptional :=
  talliesOperand_ofExcept fun item n hn => by
    simp [exactIndexers_asType hn]

theorem exactIndexers_asShape {exact : Bool} {item : Item} {n : Node}
    (h : item.asShape exact = .ok n) :
    ∃ ps ix, n = .shape exact ps ix ∧ (body ps ix).exactIndexers = item.exactIndexers := by
  cases item with
  | group items =>
    cases items with
    | nil =>
      cases h
      refine ⟨[], none, rfl, ?_⟩
      rw [exactIndexers, exactIndexers]
      exact Node.exactIndexers_eq_sum rfl (by simp)
    | cons first rest => cases h
  | body ps ix =>
    cases h
    exact ⟨ps, ix, rfl, rfl⟩
  | _ => cases h

theorem talliesOperand_readShape (exact : Bool) : TalliesOperand (readShape exact) := by
  intro item
  refine (tallies_ofExcept (P := fun n calls => item.asShape exact = .ok n ∧ calls = 0)
    fun n hn => ⟨hn, rfl⟩).bind ?_
  rintro n _ ⟨hn, rfl⟩
  obtain ⟨ps, ix, rfl, hbody⟩ := exactIndexers_asShape hn
  rw [exactIndexers] at hbody
  match exact, ix with
  | true, some i =>
    refine (tallies_warn (P := fun _ calls => calls = 1) rfl).bind ?_
    rintro _ _ rfl
    exact tallies_pure (by rw [Node.exactIndexers_shape, hbody])
  | true, none => exact tallies_pure hbody
  | false, ix => exact tallies_pure hbody

/-- A pass that makes a remark for each exact shape with an indexer that it adds to a level. -/
def TalliesLevel (pass : List Item → Reading (List Item)) : Prop :=
  ∀ items, Tallies (pass items) fun out calls =>
    exactIndexersAll out = exactIndexersAll items + calls

theorem talliesLevel_resolvePrefix {kind : TokenKind} {read : Item → Reading Node}
    (h : TalliesOperand read) : TalliesLevel (resolvePrefix kind read) := by
  refine resolvePrefix_induction (motive := fun items r => Tallies r fun out calls =>
      exactIndexersAll out = exactIndexersAll items + calls)
    (tallies_pure rfl) tallies_throw (fun {item rest r} _ ih => ?_)
    fun {t operand rest r} _ _ ih => ?_
  · refine ih.bind fun out calls hout => tallies_pure ?_
    rw [exactIndexersAll, exactIndexersAll, hout]
    omega
  · refine (h operand).bind fun n calls hn => ih.bind fun out more hout => tallies_pure ?_
    simp only [exactIndexersAll, exactIndexers, hout, hn]
    omega

theorem talliesLevel_ofExcept {pass : List Item → Except Fault (List Item)}
    (h : ∀ items out, pass items = .ok out → exactIndexersAll out = exactIndexersAll items) :
    TalliesLevel fun items => Reading.ofExcept (pass items) :=
  fun items => tallies_ofExcept (h items)

theorem talliesLevel_foldPass (kind : TokenKind) {make : List Node → Node}
    (hmake : ∀ members, (make members).exactIndexers = (members.map Node.exactIndexers).sum) :
    TalliesLevel (foldPass kind make).run :=
  talliesLevel_ofExcept fun _ _ hout => exactIndexersAll_foldOperator hmake hout

theorem talliesLevel_passes : ∀ p ∈ passes, TalliesLevel p.run := by
  simp only [passes, List.forall_mem_cons, List.not_mem_nil, false_imp_iff, implies_true, and_true]
  exact ⟨talliesLevel_resolvePrefix (talliesOperand_readShape true),
    talliesLevel_resolvePrefix (talliesOperand_readShape false),
    talliesLevel_resolvePrefix talliesOperand_readArray,
    talliesLevel_resolvePrefix talliesOperand_readTuple,
    talliesLevel_ofExcept fun _ _ hout => exactIndexersAll_resolveSuffixes hout,
    talliesLevel_resolvePrefix talliesOperand_readOptional,
    talliesLevel_foldPass .intersection Node.exactIndexers_intersection,
    talliesLevel_foldPass .union Node.exactIndexers_union⟩

/-- Passes that are run one after the other. -/
theorem tallies_foldlM {ps : List Pass} (h : ∀ p ∈ ps, TalliesLevel p.run) (items : List Item) :
    Tallies (ps.foldlM (fun items p => p.run items) items) fun out calls =>
      exactIndexersAll out = exactIndexersAll items + calls := by
  induction ps generalizing items with
  | nil => exact tallies_pure rfl
  | cons p rest ih =>
    rw [List.forall_mem_cons] at h
    rw [List.foldlM_cons]
    refine (h.1 items).bind fun middle calls hmiddle => (ih h.2 middle).imp fun out more hout => ?_
    rw [hout, hmiddle, Nat.add_assoc]

theorem tallies_resolve (items : List Item) :
    Tallies (resolve items) fun item calls =>
      item.exactIndexers = exactIndexersAll items + calls := by
  rw [resolve_eq]
  refine (tallies_foldlM talliesLevel_passes items).bind fun out calls hout =>
    tallies_ofExcept fun item hitem => ?_
  rw [exactIndexers_close hitem, exactIndexersAll_filter_comma, hout, Nat.add_zero]

mutual

theorem tallies_ofTree : ∀ tree, Tallies (ofTree tree) fun item calls => item.exactIndexers = calls
  | .token t => tallies_pure (by split <;> simp [exactIndexers])
  | .group trees => (tallies_ofTrees trees).bind fun items calls hitems =>
    (tallies_resolve items).imp fun item more hitem => by rw [hitem, hitems]
  | .stray v => tallies_pure (by rw [exactIndexers])

theorem tallies_ofTrees :
    ∀ trees, Tallies (ofTrees trees) fun items calls => exactIndexersAll items = calls
  | [] => tallies_pure rfl
  | tree :: rest => (tallies_ofTree tree).bind fun item calls hitem =>
    (tallies_ofTrees rest).bind fun items more hitems =>
      tallies_pure (by rw [exactIndexersAll, hitem, hitems, Nat.add_zero])

end

end Item

/-- Reading a type makes one remark for each exact shape with an indexer in it. -/
theorem Node.tallies_ofTree (trees : List TokenTree) :
    Reading.Tallies (Node.ofTree trees) fun n calls => n.exactIndexers = calls := by
  refine (Item.tallies_ofTree (.group trees)).bind fun item calls hitem => ?_
  match item with
  | .group [] => exact Reading.tallies_throw
  | .group (_ :: _) | .token _ | .node _ | .body .. | .stray _ =>
    exact Reading.tallies_ofExcept fun n hn => (Item.exactIndexers_asType hn).trans hitem

namespace Listener

open Reading

theorem eq_replicate_exactShapeIndexer (ws : List Warning) :
    ws = List.replicate ws.length .exactShapeIndexer :=
  List.eq_replicate_iff.2 ⟨rfl, fun w _ => by cases w; rfl⟩

/-- A type is read in the same way with someone to tell as without, down to the fault if there is
one: all that is added are the calls. Where a type is read there are as many calls as exact shapes
with an indexer in it, and as many remarks are collected where these are collected. -/
theorem typeOf_eq_calls {m : Type → Type} [Monad m] [LawfulMonad m]
    (call : Warning → m Unit) (trees : List TokenTree) :
    ∃ result calls,
      (typeOf (m := Id) none trees).run = result
      ∧ (typeOf (some call) trees).run
          = (do (List.replicate calls Warning.exactShapeIndexer).forM call; return result)
      ∧ (∀ warnings, (Node.ofTree trees).run warnings
          = (result, warnings ++ List.replicate calls .exactShapeIndexer))
      ∧ ∀ n, result = .ok n → calls = n.exactIndexers := by
  have hcalling : Follows (some call) (typeOf (some call) trees) (Node.ofTree trees) :=
    follows_typeOf trees
  have hquiet : Follows none (typeOf (m := Id) none trees) (Node.ofTree trees) :=
    follows_typeOf trees
  obtain ⟨result, added, hrun, htold⟩ := hcalling
  obtain ⟨result', added', hrun', hsilent⟩ := hquiet
  obtain ⟨rfl, -⟩ := Prod.mk.inj ((hrun []).symm.trans (hrun' []))
  have hadded := eq_replicate_exactShapeIndexer added
  refine ⟨result, added.length, hsilent, ?_, fun warnings => ?_, ?_⟩
  · rw [← hadded]
    exact htold
  · rw [← hadded]
    exact hrun warnings
  · rintro n rfl
    obtain ⟨calls, hcalls, hn⟩ := Node.tallies_ofTree trees [] n _ (hrun [])
    rw [hn]
    simpa using hcalls

/-- The tokens of `{|"a": {|string: int|}[], string: *|}`, nested. -/
def nestedTrees : List TokenTree :=
  [.token ⟨.exactShape, "#"⟩, .group
    [.token ⟨.name, "\"a\""⟩, .token ⟨.colon, ":"⟩, .token ⟨.exactShape, "#"⟩, .group
        [.token ⟨.name, "string"⟩, .token ⟨.colon, ":"⟩, .token ⟨.name, "int"⟩],
      .token ⟨.arraySuffix, "$"⟩, .token ⟨.comma, ","⟩,
      .token ⟨.name, "string"⟩, .token ⟨.colon, ":"⟩, .token ⟨.name, "*"⟩]]

/-- Counts the calls. -/
def count (_ : Warning) : StateM Nat Unit :=
  modify (· + 1)

theorem nestedTrees_two_calls : LawfulMonad (StateM Nat)
    ∧ ∃ n, (typeOf (m := Id) none nestedTrees).run = .ok n ∧ n.exactIndexers = 2
      ∧ (typeOf (some count) nestedTrees).run.run 0 = (.ok n, 2) := by
  have hread : (typeOf (m := Id) none nestedTrees).run.toOption.map Node.exactIndexers
      = some 2 := by
    decide +kernel
  refine ⟨inferInstance, ?_⟩
  obtain ⟨result, calls, hsilent, htold, -, hcalls⟩ := typeOf_eq_calls count nestedTrees
  rw [hsilent] at hread
  obtain ⟨n, hn, htwo⟩ := Option.map_eq_some_iff.1 hread
  obtain rfl := Outcome.ok_of_toOption hn
  refine ⟨n, hsilent, htwo, ?_⟩
  rw [htold, hcalls n rfl, htwo]
  rfl

end Listener

end StructuralTypes

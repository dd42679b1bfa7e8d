import Mathlib.Data.List.Basic
import Mathlib.Data.String.Basic
import StructuralTypes.Node.Integrity
import StructuralTypes.Proofs.JsonText
import StructuralTypes.Proofs.Tables

/-! Objects as finite maps. Where no name occurs twice, sorting the members forgets their
order and nothing else, so that two objects are the same up to order, or have the same
content, just when they agree on every name. Values that are read from a text name every
member once. -/

namespace StructuralTypes

namespace Json

open Outcome

/-! ### Sorted members -/

/-- Pairs in the order of their names. -/
def sorted (t : Table Json) : Table Json :=
  t.mergeSort fun a b => a.1 ≤ b.1

theorem sorted_perm (t : Table Json) : (sorted t).Perm t :=
  List.mergeSort_perm t _

theorem pairwise_sorted (t : Table Json) : (sorted t).Pairwise fun a b => a.1 ≤ b.1 := by
  have h := @List.pairwise_mergeSort _ (fun a b : String × Json => decide (a.1 ≤ b.1))
    (fun a b c hab hbc => by
      simpa using String.le_trans (of_decide_eq_true hab) (of_decide_eq_true hbc))
    (fun a b => by simpa using String.le_total a.1 b.1) t
  exact h.imp of_decide_eq_true

theorem sorted_eq_iff {t u : Table Json} (ht : (Table.keys t).Nodup) (hu : (Table.keys u).Nodup) :
    sorted t = sorted u ↔ ∀ key, Table.lookup? key t = Table.lookup? key u := by
  rw [← Table.perm_iff_lookup? ht hu]
  constructor
  · intro h
    exact (sorted_perm t).symm.trans (h ▸ sorted_perm u)
  · intro h
    refine List.Perm.eq_of_pairwise ?_ (pairwise_sorted t) (pairwise_sorted u)
      (((sorted_perm t).trans h).trans (sorted_perm u).symm)
    -- two pairs of one name are one pair, since the names are distinct
    rintro ⟨key, x⟩ ⟨other, y⟩ hx hy hle hge
    obtain rfl : key = other := String.le_antisymm hle hge
    have hx := Table.lookup?_of_mem ht ((sorted_perm t).mem_iff.1 hx)
    have hy := Table.lookup?_of_mem hu ((sorted_perm u).mem_iff.1 hy)
    rw [Table.lookup?_perm ht h key, hy] at hx
    rw [Option.some.inj hx]

theorem sortItems_eq_map (items : List Json) : sortItems items = items.map sortMembers := by
  induction items with
  | nil => rfl
  | cons item rest ih => rw [sortItems, ih, List.map_cons]

theorem sortAll_eq_map (members : List (String × Json)) :
    sortAll members = members.map fun p => (p.1, sortMembers p.2) := by
  induction members with
  | nil => rfl
  | cons p rest ih => rw [sortAll, ih, List.map_cons]

theorem eraseItems_eq_map (name : String) (items : List Json) :
    eraseItems name items = items.map (erase name) := by
  induction items with
  | nil => rfl
  | cons item rest ih => rw [eraseItems, ih, List.map_cons]

theorem eraseMembers_eq_map (name : String) (members : List (String × Json)) :
    eraseMembers name members = (Table.erase name members).map fun p => (p.1, erase name p.2) := by
  induction members with
  | nil => rfl
  | cons p rest ih =>
    rw [eraseMembers, ih, Table.erase, Table.erase, List.filter_cons]
    by_cases h : p.1 = name <;> simp [h]

theorem sortMembers_array (items : List Json) :
    sortMembers (.array items) = .array (items.map sortMembers) := by
  rw [sortMembers, sortItems_eq_map]

theorem sortMembers_object (members : List (String × Json)) :
    sortMembers (.object members)
      = .object (sorted (members.map fun p => (p.1, sortMembers p.2))) := by
  rw [sortMembers, sortAll_eq_map]
  rfl

theorem content_array (items : List Json) :
    content (.array items) = .array (items.map content) := by
  rw [content, erase, sortMembers_array, eraseItems_eq_map, List.map_map]
  rfl

theorem content_object (members : List (String × Json)) :
    content (.object members) = .object (sorted
      ((Table.erase identifierName members).map fun p => (p.1, content p.2))) := by
  rw [content, erase, sortMembers_object, eraseMembers_eq_map, List.map_map]
  rfl

/-- Whether a value has no parts. -/
def isAtom : Json → Bool
  | array _ | object _ => false
  | _ => true

theorem eq_of_sortMembers_atom {j e : Json} (h : j.sortMembers = e) (he : e.isAtom = true) :
    j = e := by
  cases j with
  | array items => rw [← h, sortMembers_array] at he; cases he
  | object members => rw [← h, sortMembers_object] at he; cases he
  | _ => exact h

theorem eq_of_content_atom {j e : Json} (h : j.content = e) (he : e.isAtom = true) : j = e := by
  cases j with
  | array items => rw [← h, content_array] at he; cases he
  | object members => rw [← h, content_object] at he; cases he
  | _ => exact h

/-! ### Agreement by name -/

/-- Objects are the same up to order when their members are, name by name. -/
theorem sameButOrder_object_iff {ms es : List (String × Json)} (hm : (Table.keys ms).Nodup)
    (he : (Table.keys es).Nodup) : SameButOrder (.object ms) (.object es) ↔
      ∀ key, (Table.lookup? key ms).map sortMembers = (Table.lookup? key es).map sortMembers := by
  rw [SameButOrder, sortMembers_object, sortMembers_object, object.injEq,
    sorted_eq_iff (by rwa [Table.keys_map]) (by rwa [Table.keys_map])]
  simp only [Table.lookup?_map]

/-- Objects have the same content when their members have, name by name, the identifiers
left out. -/
theorem content_object_eq_iff {ms es : List (String × Json)} (hm : (Table.keys ms).Nodup)
    (he : (Table.keys es).Nodup) : content (.object ms) = content (.object es) ↔
      ∀ key, key ≠ identifierName →
        (Table.lookup? key ms).map content = (Table.lookup? key es).map content := by
  have hnodup : ∀ {t : Table Json}, (Table.keys t).Nodup → (Table.keys
      ((Table.erase identifierName t).map fun p => (p.1, content p.2))).Nodup := fun h => by
    rw [Table.keys_map]
    exact Table.nodup_keys_erase h _
  rw [content_object, content_object, object.injEq, sorted_eq_iff (hnodup hm) (hnodup he)]
  refine forall_congr' fun key => ?_
  rw [Table.lookup?_map, Table.lookup?_map, Table.lookup?_erase, Table.lookup?_erase]
  by_cases h : key = identifierName <;> simp [h]

/-! ### Values of distinct names -/

mutual

/-- No object in the value names a member twice. -/
def Distinct : Json → Prop
  | array items => AllDistinct items
  | object members => (Table.keys members).Nodup ∧ MembersDistinct members
  | _ => True

def AllDistinct : List Json → Prop
  | [] => True
  | item :: rest => Distinct item ∧ AllDistinct rest

def MembersDistinct : List (String × Json) → Prop
  | [] => True
  | (_, value) :: rest => Distinct value ∧ MembersDistinct rest

end

theorem allDistinct_iff {items : List Json} : AllDistinct items ↔ ∀ j ∈ items, j.Distinct := by
  induction items with
  | nil => simp [AllDistinct]
  | cons j rest ih => rw [AllDistinct, ih, List.forall_mem_cons]

theorem membersDistinct_iff {members : List (String × Json)} :
    MembersDistinct members ↔ ∀ p ∈ members, p.2.Distinct := by
  induction members with
  | nil => simp [MembersDistinct]
  | cons p rest ih => rw [MembersDistinct, ih, List.forall_mem_cons]

theorem Distinct.of_mem {items : List Json} (h : (array items).Distinct) {j : Json}
    (hj : j ∈ items) : j.Distinct :=
  allDistinct_iff.1 h j hj

theorem Distinct.of_lookup? {members : List (String × Json)} (h : (object members).Distinct)
    {key : String} {j : Json} (hj : Table.lookup? key members = some j) : j.Distinct :=
  membersDistinct_iff.1 h.2 _ (Table.mem_of_lookup? hj)

theorem empty_distinct : (object []).Distinct :=
  ⟨List.Pairwise.nil, trivial⟩

theorem distinct_insert {members : List (String × Json)} (h : (object members).Distinct)
    {value : Json} (hv : value.Distinct) (name : String) :
    (object (Table.insert name value members)).Distinct := by
  refine ⟨Table.nodup_keys_insert h.1 _ _, membersDistinct_iff.2 fun p hp => ?_⟩
  rcases Table.mem_insert hp with rfl | hp
  · exact hv
  · exact membersDistinct_iff.1 h.2 p hp

mutual

theorem Numberless.distinct : ∀ {j : Json}, j.Numberless → j.Distinct
  | .null, _ | .bool _, _ | .string _, _ => trivial
  | .int _, h | .float _, h => h.elim
  | .array _, h => AllNumberless.distinct h
  | .object _, h => ⟨h.1, MembersNumberless.distinct h.2⟩

theorem AllNumberless.distinct : ∀ {items : List Json}, AllNumberless items → AllDistinct items
  | [], _ => trivial
  | _ :: _, h => ⟨h.1.distinct, AllNumberless.distinct h.2⟩

theorem MembersNumberless.distinct :
    ∀ {members : List (String × Json)}, MembersNumberless members → MembersDistinct members
  | [], _ => trivial
  | (_, _) :: _, h => ⟨h.1.distinct, MembersNumberless.distinct h.2⟩

end

/-! ### The same values have the same content -/

mutual

/-- Values that are the same up to order have the same content. -/
theorem content_eq_of_sameButOrder : ∀ {d e : Json}, d.Distinct → e.Distinct →
    SameButOrder d e → d.content = e.content
  | .array xs, .array es, hd, he, h => by
    rw [SameButOrder, sortMembers_array, sortMembers_array, array.injEq] at h
    rw [content_array, content_array, contents_eq_of_sameButOrder hd (allDistinct_iff.1 he) h]
  | .object ms, .object es, hd, he, h => by
    rw [sameButOrder_object_iff hd.1 he.1] at h
    refine (content_object_eq_iff hd.1 he.1).2 fun key _ => ?_
    have hkey := h key
    cases hm : Table.lookup? key ms with
    | none =>
      rw [hm, Option.map_none, eq_comm, Option.map_eq_none_iff] at hkey
      rw [hkey]
    | some j =>
      rw [hm, eq_comm] at hkey
      obtain ⟨k, hk, hs⟩ := Option.map_eq_some_iff.1 hkey
      rw [hk]
      exact congrArg some (memberContents_eq_of_sameButOrder hd.2 _ (Table.mem_of_lookup? hm)
        (he.of_lookup? hk) hs.symm)
  | .array xs, .object es, _, _, h | .object es, .array xs, _, _, h => by
    rw [SameButOrder, sortMembers_array, sortMembers_object] at h
    cases h
  | .null, e, _, _, h | .bool _, e, _, _, h | .int _, e, _, _, h | .float _, e, _, _, h
  | .string _, e, _, _, h => by
    rw [eq_of_sortMembers_atom (j := e) h.symm rfl]
    rfl

theorem contents_eq_of_sameButOrder : ∀ {xs es : List Json}, AllDistinct xs →
    (∀ e ∈ es, e.Distinct) → xs.map sortMembers = es.map sortMembers →
    xs.map content = es.map content
  | [], [], _, _, _ => rfl
  | x :: xs, e :: es, hd, he, h => by
    rw [List.map_cons, List.map_cons, List.cons.injEq] at h ⊢
    rw [List.forall_mem_cons] at he
    exact ⟨content_eq_of_sameButOrder hd.1 he.1 h.1, contents_eq_of_sameButOrder hd.2 he.2 h.2⟩
  | [], _ :: _, _, _, h | _ :: _, [], _, _, h => by cases h

theorem memberContents_eq_of_sameButOrder : ∀ {ms : List (String × Json)}, MembersDistinct ms →
    ∀ p ∈ ms, ∀ {e : Json}, e.Distinct → SameButOrder p.2 e → p.2.content = e.content
  | [], _, _, hp, _, _, _ => (List.not_mem_nil hp).elim
  | (_, _) :: _, hd, p, hp, e, he, h => by
    rcases List.mem_cons.1 hp with rfl | hp
    · exact content_eq_of_sameButOrder hd.1 he h
    · exact memberContents_eq_of_sameButOrder hd.2 p hp he h

end

/-! ### Values that were read -/

variable {standIn : Option Char}

theorem distinct_of_readNumber {negative : Bool} {s rest : List Char} {j : Json}
    (h : readNumber negative s = .ok (j, rest)) : j.Distinct := by
  obtain ⟨⟨whole, after⟩, -, h⟩ := ok_of_bind h
  dsimp only at h
  split at h
  · split at h
    · cases h
    · cases h
      trivial
  · cases h
    trivial

theorem distinct_of_readScalar {s rest : List Char} {j : Json}
    (h : readScalar s = .ok (j, rest)) : j.Distinct := by
  rw [readScalar.eq_def] at h
  split at h
  next r hr =>
    cases h
    obtain ⟨⟨word, value⟩, hp, hr⟩ := List.exists_of_findSome?_eq_some hr
    obtain ⟨after, -, hr⟩ := Option.map_eq_some_iff.1 hr
    cases hr
    have hall : ∀ p ∈ words, p.2.Distinct := by simp [words, Distinct]
    exact hall _ hp
  next =>
    split at h <;> exact distinct_of_readNumber h

mutual

/-- What is read from a text names every member once: a member is stored in the place of an
earlier one of its name. -/
theorem distinct_of_readValue : ∀ (count : Nat) {s rest : List Char} {j : Json},
    readValue standIn count s = .ok (j, rest) → j.Distinct
  | 0, _, _, _, h => by cases h
  | count + 1, s, rest, j, h => by
    rw [readValue.eq_def] at h
    dsimp only at h
    split at h
    · obtain ⟨p, -, h⟩ := ok_of_map h
      cases h
      trivial
    · split at h
      · cases h
        trivial
      · obtain ⟨p, hp, h⟩ := ok_of_map h
        cases h
        exact allDistinct_of_readItems count hp
    · split at h
      · cases h
        exact empty_distinct
      · obtain ⟨p, hp, h⟩ := ok_of_map h
        cases h
        exact distinct_of_readMembers count empty_distinct hp
    · exact distinct_of_readScalar h

theorem allDistinct_of_readItems : ∀ (count : Nat) {s rest : List Char} {items : List Json},
    readItems standIn count s = .ok (items, rest) → AllDistinct items
  | 0, _, _, _, h => by cases h
  | count + 1, s, rest, items, h => by
    rw [readItems] at h
    obtain ⟨⟨item, after⟩, hitem, h⟩ := ok_of_bind h
    have hd := distinct_of_readValue count hitem
    dsimp only at h
    split at h
    · cases h
      exact ⟨hd, trivial⟩
    · obtain ⟨⟨more, after⟩, hmore, h⟩ := ok_of_bind h
      cases h
      exact ⟨hd, allDistinct_of_readItems count hmore⟩
    · cases h

theorem distinct_of_readMembers : ∀ (count : Nat) {s rest : List Char}
    {before members : List (String × Json)}, (object before).Distinct →
    readMembers standIn count before s = .ok (members, rest) → (object members).Distinct
  | 0, _, _, _, _, _, h => by cases h
  | count + 1, s, rest, before, members, hb, h => by
    rw [readMembers] at h
    obtain ⟨⟨name, after⟩, -, h⟩ := ok_of_bind h
    obtain ⟨after, -, h⟩ := ok_of_bind h
    obtain ⟨⟨value, after⟩, hvalue, h⟩ := ok_of_bind h
    have hd := distinct_insert hb (distinct_of_readValue count hvalue) name
    dsimp only at h
    split at h
    · cases h
      exact hd
    · exact distinct_of_readMembers count hd h
    · cases h

end

theorem distinct_of_parse {text : String} {j : Json} (h : parse standIn text = .ok j) :
    j.Distinct := by
  obtain ⟨⟨value, rest⟩, hread, h⟩ := ok_of_bind h
  dsimp only at h
  split at h
  · cases h
    exact distinct_of_readValue _ hread
  · cases h

theorem distinct_of_ofText? {text : String} {j : Json} (h : ofText? text = some j) :
    j.Distinct := by
  have hparse : ∀ {standIn : Option Char} {k : Json},
      (parse standIn text).toOption = some k → k.Distinct := fun {standIn k} hk => by
    cases hp : parse standIn text with
    | error fault => rw [hp] at hk; cases hk
    | ok value =>
      rw [hp] at hk
      cases hk
      exact distinct_of_parse hp
  rw [ofText?] at h
  split at h
  next k hk =>
    cases h
    exact hparse hk
  next =>
    obtain ⟨k, hk, h⟩ := Option.bind_eq_some_iff.1 h
    obtain ⟨_, -, h⟩ := Option.bind_eq_some_iff.1 h
    split at h
    · cases h
      exact hparse hk
    · cases h

end Json

end StructuralTypes

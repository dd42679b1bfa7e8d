import Mathlib.Data.List.Nodup
import StructuralTypes.Table

/-! Tables with distinct keys. Such a table is what its look-ups tell, but for the order of its
pairs, and storing and dropping items keep the keys distinct. Storing a whole table in another
is associative, also in the order that the keys get. -/

namespace StructuralTypes.Table

variable {α β : Type}

theorem keys_map (f : α → β) (t : Table α) : keys (t.map fun p => (p.1, f p.2)) = keys t := by
  simp [keys, Function.comp_def]

theorem lookup?_map (f : α → β) (key : String) (t : Table α) :
    lookup? key (t.map fun p => (p.1, f p.2)) = (lookup? key t).map f := by
  induction t with
  | nil => rfl
  | cons p rest ih =>
    rw [List.map_cons, lookup?, lookup?, ih]
    split <;> rfl

theorem nodup_keys_erase {t : Table α} (h : (keys t).Nodup) (key : String) :
    (keys (erase key t)).Nodup :=
  h.sublist (List.filter_sublist.map _)

theorem nodup_keys_insert {t : Table α} (h : (keys t).Nodup) (key : String) (item : α) :
    (keys (insert key item t)).Nodup := by
  by_cases hk : key ∈ keys t
  · rwa [keys_insert_of_mem hk]
  · rw [keys_insert_of_not_mem hk, ← List.concat_eq_append]
    exact h.concat hk

/-- Tables of distinct keys with the same look-ups hold the same pairs. -/
theorem perm_iff_lookup? {t u : Table α} (ht : (keys t).Nodup) (hu : (keys u).Nodup) :
    t.Perm u ↔ ∀ key, lookup? key t = lookup? key u := by
  refine ⟨lookup?_perm ht, fun h => ?_⟩
  refine (List.perm_ext_iff_of_nodup (List.Nodup.of_map _ ht) (List.Nodup.of_map _ hu)).2 ?_
  rintro ⟨key, item⟩
  constructor <;> intro hm
  · exact mem_of_lookup? (h key ▸ lookup?_of_mem ht hm)
  · exact mem_of_lookup? (h key ▸ lookup?_of_mem hu hm)

/-! ### One table stored in another -/

/-- A table with the items of another one stored in it, one after the other. -/
def updated (t u : Table α) : Table α :=
  u.foldl (fun t p => insert p.1 p.2 t) t

theorem updated_cons (t : Table α) (p : String × α) (u : Table α) :
    t.updated (p :: u) = (insert p.1 p.2 t).updated u := rfl

variable {t u : Table α}

theorem nodup_keys_cons {p : String × α} (h : (keys (p :: t)).Nodup) :
    p.1 ∉ keys t ∧ (keys t).Nodup :=
  List.nodup_cons.1 h

theorem lookup?_updated (hu : (keys u).Nodup) (key : String) :
    lookup? key (t.updated u) = (lookup? key u).or (lookup? key t) := by
  induction u generalizing t with
  | nil => rfl
  | cons p rest ih =>
    obtain ⟨hp, hrest⟩ := nodup_keys_cons hu
    rw [updated_cons, ih hrest, lookup?]
    by_cases h : p.1 = key
    · subst h
      rw [if_pos rfl, lookup?_eq_none_iff.2 hp, lookup?_insert_self]
      rfl
    · rw [if_neg h, lookup?_insert_of_ne (Ne.symm h)]

theorem keys_updated (hu : (keys u).Nodup) :
    keys (t.updated u) = keys t ++ (keys u).filter (· ∉ keys t) := by
  induction u generalizing t with
  | nil => simp [keys, updated]
  | cons p rest ih =>
    obtain ⟨hp, hrest⟩ := nodup_keys_cons hu
    have hkeys : keys (p :: rest) = p.1 :: keys rest := rfl
    rw [updated_cons, ih hrest, hkeys]
    by_cases h : p.1 ∈ keys t
    · rw [keys_insert_of_mem h, List.filter_cons_of_neg (by simpa using h)]
    · rw [keys_insert_of_not_mem h, List.filter_cons_of_pos (by simpa using h), List.append_assoc,
        List.singleton_append]
      congr 2
      refine List.filter_congr fun key hkey => ?_
      have hne : key ≠ p.1 := fun e => hp (e ▸ hkey)
      simp [hne]

theorem nodup_keys_updated (ht : (keys t).Nodup) (u : Table α) : (keys (t.updated u)).Nodup := by
  induction u generalizing t with
  | nil => exact ht
  | cons p rest ih => exact ih (nodup_keys_insert ht p.1 p.2)

/-- Tables with the same distinct keys in the same order are told apart by their look-ups. -/
theorem ext_lookup? (hk : keys t = keys u) (ht : (keys t).Nodup)
    (h : ∀ key, lookup? key t = lookup? key u) : t = u := by
  induction t generalizing u with
  | nil => exact (List.map_eq_nil_iff.1 hk.symm).symm
  | cons p rest ih =>
    cases u with
    | nil => cases hk
    | cons q more =>
      obtain ⟨hp, hrest⟩ := nodup_keys_cons ht
      obtain ⟨hfirst, hkeys⟩ : p.1 = q.1 ∧ keys rest = keys more := List.cons.inj hk
      have hitem : p.2 = q.2 := by simpa [lookup?, hfirst] using h p.1
      rw [Prod.ext hfirst hitem, ih hkeys hrest fun key => ?_]
      by_cases hkey : p.1 = key
      · subst hkey
        rw [lookup?_eq_none_iff.2 hp, lookup?_eq_none_iff.2 (hkeys ▸ hp)]
      · have hlookup := h key
        rwa [lookup?, lookup?, if_neg hkey, if_neg (hfirst ▸ hkey)] at hlookup

/-- Storing one table in another and then a third one stores the third one in the second first. -/
theorem updated_updated {v : Table α} (ht : (keys t).Nodup) (hu : (keys u).Nodup)
    (hv : (keys v).Nodup) : (t.updated u).updated v = t.updated (u.updated v) := by
  have huv := nodup_keys_updated hu v
  refine ext_lookup? ?_ (nodup_keys_updated (nodup_keys_updated ht u) v) fun key => ?_
  · rw [keys_updated hv, keys_updated hu, keys_updated huv, keys_updated hv, List.filter_append,
      List.append_assoc, List.filter_filter]
    congr 2
    refine List.filter_congr fun key _ => ?_
    by_cases hkey : key ∈ keys t <;> simp [hkey]
  · rw [lookup?_updated hv, lookup?_updated hu, lookup?_updated huv, lookup?_updated hv,
      Option.or_assoc]

theorem updated_self (ht : (keys t).Nodup) : t.updated t = t := by
  refine ext_lookup? ?_ (nodup_keys_updated ht t) fun key => ?_
  · rw [keys_updated ht, List.filter_eq_nil_iff.2 (by simp), List.append_nil]
  · rw [lookup?_updated ht, Option.or_self]

theorem nil_updated (hu : (keys u).Nodup) : updated [] u = u := by
  refine ext_lookup? ?_ (nodup_keys_updated (t := []) List.nodup_nil u) fun key => ?_
  · rw [keys_updated hu]
    simp [keys]
  · rw [lookup?_updated hu]
    simp [lookup?]

/-- Pairs stored one after another in an empty table have distinct keys. -/
theorem nodup_keys_ofPairs (pairs : List (String × α)) : (keys (ofPairs pairs)).Nodup :=
  nodup_keys_updated (t := []) List.nodup_nil pairs

theorem ofPairs_eq_self (hu : (keys u).Nodup) : ofPairs u = u :=
  nil_updated hu

theorem map_insert (f : α → β) (key : String) (item : α) (t : Table α) :
    (insert key item t).map (fun p => (p.1, f p.2))
      = insert key (f item) (t.map fun p => (p.1, f p.2)) := by
  induction t with
  | nil => rfl
  | cons p rest ih =>
    rw [insert, List.map_cons, insert]
    split
    · rfl
    · rw [List.map_cons, ih]

theorem map_updated (f : α → β) (t u : Table α) :
    (t.updated u).map (fun p => (p.1, f p.2))
      = updated (t.map fun p => (p.1, f p.2)) (u.map fun p => (p.1, f p.2)) := by
  induction u generalizing t with
  | nil => rfl
  | cons p rest ih => rw [updated_cons, ih, map_insert, List.map_cons, updated_cons]

end StructuralTypes.Table

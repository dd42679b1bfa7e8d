/-! Tables keyed by text, in the order in which their keys were first stored. Storing
under a known key replaces its item in place. -/

namespace StructuralTypes

/-- Items under distinct keys, in order. -/
abbrev Table (α : Type) := List (String × α)

namespace Table

variable {α β : Type}

/-- The item stored under a key. -/
def lookup? (key : String) : Table α → Option α
  | [] => none
  | p :: rest => if p.1 = key then some p.2 else lookup? key rest

def has (key : String) (t : Table α) : Bool :=
  (lookup? key t).isSome

/-- Stores an item: in place when the key is known, else at the end. -/
def insert (key : String) (item : α) : Table α → Table α
  | [] => [(key, item)]
  | p :: rest => if p.1 = key then (key, item) :: rest else p :: insert key item rest

/-- Drops a key. -/
def erase (key : String) (t : Table α) : Table α :=
  t.filter (·.1 != key)

def keys (t : Table α) : List String :=
  t.map (·.1)

/-- Stores pairs one after another. -/
def ofPairs (pairs : List (String × α)) : Table α :=
  pairs.foldl (fun t p => insert p.1 p.2 t) []

/-! ### Laws -/

@[simp] theorem lookup?_insert_self (key : String) (item : α) (t : Table α) :
    lookup? key (insert key item t) = some item := by
  induction t with
  | nil => simp [insert, lookup?]
  | cons p rest ih => by_cases h : p.1 = key <;> simp [insert, lookup?, h, ih]

theorem lookup?_insert_of_ne {key other : String} (h : other ≠ key) (item : α) (t : Table α) :
    lookup? other (insert key item t) = lookup? other t := by
  induction t with
  | nil => simp [insert, lookup?, h.symm]
  | cons p rest ih =>
    by_cases hp : p.1 = key
    · have hk : p.1 ≠ other := fun e => h (e.symm.trans hp)
      simp [insert, lookup?, hp, h.symm]
    · by_cases ho : p.1 = other <;> simp_all [insert, lookup?]

/-- What is found after storing an item is that item or was found before. -/
theorem lookup?_insert_cases {key other : String} {item found : α} {t : Table α}
    (h : lookup? other (insert key item t) = some found) :
    other = key ∧ found = item ∨ lookup? other t = some found := by
  by_cases hn : other = key
  · rw [hn, lookup?_insert_self] at h
    exact .inl ⟨hn, (Option.some.inj h).symm⟩
  · exact .inr ((lookup?_insert_of_ne hn item t).symm.trans h)

theorem keys_insert_of_mem {key : String} {t : Table α} (h : key ∈ keys t) (item : α) :
    keys (insert key item t) = keys t := by
  induction t with
  | nil => simp [keys] at h
  | cons p rest ih =>
    by_cases hp : p.1 = key
    · simp [keys, insert, hp]
    · have hr : key ∈ keys rest := by
        simp only [keys, List.map_cons, List.mem_cons] at h ⊢
        exact h.resolve_left fun e => hp e.symm
      have := ih hr
      simp only [keys] at this
      simp [keys, insert, hp, this]

theorem keys_insert_of_not_mem {key : String} {t : Table α} (h : key ∉ keys t) (item : α) :
    keys (insert key item t) = keys t ++ [key] := by
  induction t with
  | nil => simp [keys, insert]
  | cons p rest ih =>
    simp only [keys, List.map_cons, List.mem_cons, not_or] at h
    have hp : p.1 ≠ key := fun e => h.1 e.symm
    have := ih h.2
    simp only [keys] at this
    simp [keys, insert, hp, this]

theorem keys_concat (t : Table α) (key : String) (item : α) :
    keys (t ++ [(key, item)]) = keys t ++ [key] := by
  simp [keys]

theorem insert_of_not_mem {key : String} {t : Table α} (h : key ∉ keys t) (item : α) :
    insert key item t = t ++ [(key, item)] := by
  induction t with
  | nil => rfl
  | cons p rest ih =>
    rw [keys, List.map_cons, List.mem_cons, not_or] at h
    rw [insert, if_neg fun e => h.1 e.symm, ih h.2, List.cons_append]

theorem lookup?_eq_none_iff {key : String} {t : Table α} : lookup? key t = none ↔ key ∉ keys t := by
  induction t with
  | nil => simp [keys, lookup?]
  | cons p rest ih =>
    simp only [keys] at ih
    by_cases hp : p.1 = key
    · simp [keys, lookup?, hp]
    · have : ¬key = p.1 := fun e => hp e.symm
      simp [keys, lookup?, hp, ih, this]

theorem lookup?_append {key : String} {t u : Table α} (h : key ∉ keys t) :
    lookup? key (t ++ u) = lookup? key u := by
  induction t with
  | nil => rfl
  | cons p rest ih =>
    rw [keys, List.map_cons, List.mem_cons, not_or] at h
    rw [List.cons_append, lookup?, if_neg fun e => h.1 e.symm, ih h.2]

theorem lookup?_filter (keep : String → Bool) (key : String) (t : Table α) :
    lookup? key (t.filter fun p => keep p.1) = if keep key then lookup? key t else none := by
  induction t with
  | nil => simp [lookup?]
  | cons p rest ih =>
    by_cases hp : p.1 = key
    · by_cases hk : keep key = true
      · simp [hp, hk, lookup?]
      · simp [hp, hk, ih]
    · by_cases hk : keep p.1 = true
      · simp [hp, hk, lookup?, ih]
      · simp [hp, hk, lookup?, ih]

theorem lookup?_erase (key other : String) (t : Table α) :
    lookup? other (erase key t) = if other = key then none else lookup? other t := by
  rw [erase, lookup?_filter (· != key)]
  by_cases h : other = key <;> simp [h]

theorem lookup?_erase_self (key : String) (t : Table α) : lookup? key (erase key t) = none := by
  simp [lookup?_erase]

theorem has_iff_mem_keys {key : String} {t : Table α} : has key t = true ↔ key ∈ keys t := by
  rw [has, Option.isSome_iff_ne_none, ne_eq, lookup?_eq_none_iff, Decidable.not_not]

theorem has_insert (key other : String) (item : α) (t : Table α) :
    has other (insert key item t) = true ↔ other = key ∨ has other t = true := by
  by_cases h : other = key
  · simp [has, h]
  · simp [has, h, lookup?_insert_of_ne h]

theorem has_erase (key other : String) (t : Table α) :
    has other (erase key t) = true ↔ other ≠ key ∧ has other t = true := by
  by_cases h : other = key <;> simp [has, lookup?_erase, h]

theorem mem_of_lookup? {key : String} {item : α} {t : Table α} (h : lookup? key t = some item) :
    (key, item) ∈ t := by
  induction t with
  | nil => simp [lookup?] at h
  | cons p rest ih =>
    by_cases hp : p.1 = key
    · simp only [lookup?, hp, if_true, Option.some.injEq] at h
      simp [← hp, ← h]
    · simp only [lookup?, hp, if_false] at h
      exact List.mem_cons_of_mem _ (ih h)

/-- Dropping a known key makes a table shorter. -/
theorem length_erase_lt {key : String} {item : α} {t : Table α} (h : lookup? key t = some item) :
    (erase key t).length < t.length :=
  List.length_filter_lt_length_iff_exists.2 ⟨_, mem_of_lookup? h, by simp⟩

theorem length_insert_le (key : String) (item : α) (t : Table α) :
    (insert key item t).length ≤ t.length + 1 := by
  induction t with
  | nil => simp [insert]
  | cons p rest ih =>
    rw [insert]
    split
    · simp
    · simpa using ih

theorem mem_insert {key : String} {item : α} {t : Table α} {p : String × α}
    (h : p ∈ insert key item t) : p = (key, item) ∨ p ∈ t := by
  induction t with
  | nil => exact .inl (List.mem_singleton.1 h)
  | cons q rest ih =>
    rw [insert] at h
    split at h <;> rcases List.mem_cons.1 h with rfl | h
    · exact .inl rfl
    · exact .inr (List.mem_cons_of_mem _ h)
    · exact .inr List.mem_cons_self
    · exact (ih h).imp_right (List.mem_cons_of_mem _)

theorem lookup?_of_mem {key : String} {item : α} {t : Table α} (hd : (keys t).Nodup)
    (h : (key, item) ∈ t) : lookup? key t = some item := by
  induction t with
  | nil => simp at h
  | cons p rest ih =>
    simp only [keys, List.map_cons, List.nodup_cons] at hd
    rcases List.mem_cons.1 h with rfl | h
    · simp [lookup?]
    · have hp : p.1 ≠ key := by
        intro e
        exact hd.1 (e ▸ List.mem_map_of_mem (f := (·.1)) h)
      simp only [lookup?, hp, if_false]
      exact ih hd.2 h

theorem lookup?_perm {t u : Table α} (hd : (keys t).Nodup) (h : t.Perm u) (key : String) :
    lookup? key t = lookup? key u := by
  have hkeys : (keys t).Perm (keys u) := h.map _
  cases hl : lookup? key t with
  | some item =>
    exact (lookup?_of_mem (hkeys.nodup_iff.1 hd) (h.mem_iff.1 (mem_of_lookup? hl))).symm
  | none =>
    rw [eq_comm, lookup?_eq_none_iff]
    rw [lookup?_eq_none_iff] at hl
    exact fun hk => hl (hkeys.mem_iff.2 hk)

/-- Whatever a table holds is held by another. -/
def Within (t u : Table α) : Prop :=
  ∀ key item, lookup? key t = some item → lookup? key u = some item

theorem erase_within {key : String} {t : Table α} : Within (erase key t) t := by
  intro other item hl
  rw [lookup?_erase] at hl
  split at hl
  · cases hl
  · exact hl

theorem Within.erase {t u : Table α} (h : Within t u) (key : String) :
    Within (erase key t) (erase key u) := by
  intro other item hl
  rw [lookup?_erase] at hl ⊢
  split at hl
  · cases hl
  · rename_i hne
    rw [if_neg hne]
    exact h other item hl

end Table

end StructuralTypes

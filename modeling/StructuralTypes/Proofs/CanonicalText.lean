import Mathlib.Data.List.Basic
import StructuralTypes.Proofs.JsonContent

/-! Canonical texts tell contents apart. On one line without blanks the text of a value is
prefix-free against the text of a value without numbers: the first character fixes the kind,
a string ends at its quote, a list at its bracket. So two contents, one of them without
numbers, have the same canonical text only if they are equal. -/

namespace StructuralTypes

/-! ### The text of a number -/

namespace Shortest

theorem isDigit_of_mem_trimZeros {ds : List Char} (h : ∀ c ∈ ds, c.isDigit = true) :
    ∀ c ∈ trimZeros ds, c.isDigit = true := by
  intro c hc
  rw [trimZeros, List.mem_reverse] at hc
  exact h c (List.mem_reverse.1 ((List.dropWhile_sublist _).mem hc))

theorem isDigit_of_mem_digits (d : Double) : ∀ c ∈ (digits d).digits, c.isDigit = true := by
  rw [digits]
  split
  · simp
  · rw [search]
    split
    · exact isDigit_of_mem_trimZeros fun c hc =>
        Nat.isDigit_of_mem_toDigits (by decide) (by decide) hc
    · simp

end Shortest

namespace Json

/-- What values other than numbers begin with, and how lists end. -/
def marks : List Char := ['n', 't', 'f', '"', '[', '\x7b', ']']

theorem not_mem_marks_of_isDigit {c : Char} (h : c.isDigit = true) : c ∉ marks := by
  intro hm
  simp only [marks, List.mem_cons, List.not_mem_nil, or_false] at hm
  rcases hm with rfl | rfl | rfl | rfl | rfl | rfl | rfl <;> exact absurd h (by decide)

/-- A text that begins as a number may. -/
def BeginsNumber (s : List Char) : Prop :=
  ∃ c t, s = c :: t ∧ c ∉ marks

theorem beginsNumber_cons {c : Char} (s : List Char) (h : c ∉ marks) :
    BeginsNumber (c :: s) :=
  ⟨c, s, rfl, h⟩

theorem beginsNumber_toDigits (n : Nat) : BeginsNumber (Nat.toDigits 10 n) := by
  cases h : Nat.toDigits 10 n with
  | nil => exact absurd h Nat.toDigits_ne_nil
  | cons c s =>
    have hc : c ∈ Nat.toDigits 10 n := h ▸ List.mem_cons_self
    exact ⟨c, s, rfl, not_mem_marks_of_isDigit
      (Nat.isDigit_of_mem_toDigits (by decide) (by decide) hc)⟩

theorem beginsNumber_intText (i : Int) : BeginsNumber (toString i).toList := by
  cases i with
  | ofNat n =>
    show BeginsNumber (Nat.repr n).toList
    rw [Nat.toList_repr]
    exact beginsNumber_toDigits n
  | negSucc n =>
    show BeginsNumber ("-" ++ Nat.repr (n + 1)).toList
    rw [String.toList_append]
    exact beginsNumber_cons _ (by decide)

theorem beginsNumber_positional {ds : List Char} (h : ∀ c ∈ ds, c.isDigit = true)
    (leading : Int) : BeginsNumber (Shortest.positional ds leading) := by
  cases leading with
  | ofNat p =>
    cases ds with
    | nil => exact beginsNumber_cons _ (by decide)
    | cons c ds => exact beginsNumber_cons _ (not_mem_marks_of_isDigit (h c List.mem_cons_self))
  | negSucc p => exact beginsNumber_cons _ (by decide)

theorem beginsNumber_scientific {ds : List Char} (h : ∀ c ∈ ds, c.isDigit = true)
    (width : Nat) (leading : Int) : BeginsNumber (Shortest.scientific width ds leading) := by
  cases ds with
  | nil => exact beginsNumber_cons _ (by decide)
  | cons c ds => exact beginsNumber_cons _ (not_mem_marks_of_isDigit (h c List.mem_cons_self))

theorem beginsNumber_floatText (d : Double) : BeginsNumber (renderFloat d).toList := by
  have hsign : ∀ s : String, BeginsNumber s.toList →
      BeginsNumber ((if d.negative then "-" else "") ++ s).toList := fun s hs => by
    rw [String.toList_append]
    split
    · exact beginsNumber_cons _ (by decide)
    · exact hs
  have hdigits := Shortest.isDigit_of_mem_digits d
  rw [renderFloat, Shortest.render]
  split
  · exact beginsNumber_cons _ (by decide)
  dsimp only
  split
  · exact hsign _ (beginsNumber_cons _ (by decide))
  refine hsign _ ?_
  rw [String.toList_ofList]
  split
  · exact beginsNumber_positional hdigits _
  · exact beginsNumber_scientific hdigits _ _

/-! ### Values on one line -/

variable {asciiOnly : Bool}

/-- A quoted string ends where it ends, whatever follows. -/
theorem quote_append_inj {s t : String} {r u : List Char}
    (h : quote asciiOnly s ++ r = quote asciiOnly t ++ u) : s = t ∧ r = u := by
  rw [quote, quote, List.cons_append, List.cons_append, List.append_assoc, List.append_assoc] at h
  have hs := @readString?_quote asciiOnly none s r
  rw [← List.singleton_append, (List.cons.inj h).2, List.singleton_append, readString?_quote] at hs
  cases hs
  exact ⟨rfl, rfl⟩

/-- The text of items up to the closing bracket. -/
def itemsText (asciiOnly : Bool) (depth : Nat) (items : List Json) : List Char :=
  lines (compact asciiOnly) depth (itemChars (compact asciiOnly) depth items) ++ [']']

/-- The text of members up to the closing brace. -/
def membersText (asciiOnly : Bool) (depth : Nat) (members : List (String × Json)) : List Char :=
  lines (compact asciiOnly) depth (memberChars (compact asciiOnly) depth members) ++ ['\x7d']

theorem chars_array (depth : Nat) (items : List Json) :
    chars (compact asciiOnly) depth (.array items)
      = '[' :: itemsText asciiOnly (depth + 1) items := by
  rw [chars, itemsText]
  cases items with
  | nil => rfl
  | cons item items =>
    rw [itemChars, enclose_cons]
    rfl

theorem chars_object (depth : Nat) (members : List (String × Json)) :
    chars (compact asciiOnly) depth (.object members)
      = '\x7b' :: membersText asciiOnly (depth + 1) members := by
  rw [chars, membersText]
  cases members with
  | nil => rfl
  | cons member members =>
    rw [memberChars, enclose_cons]
    rfl

theorem itemsText_singleton (depth : Nat) (item : Json) :
    itemsText asciiOnly depth [item] = chars (compact asciiOnly) depth item ++ [']'] := by
  rw [itemsText, itemChars, itemChars, lines_singleton]

theorem itemsText_cons_cons (depth : Nat) (item second : Json) (items : List Json) :
    itemsText asciiOnly depth (item :: second :: items)
      = chars (compact asciiOnly) depth item
        ++ ',' :: itemsText asciiOnly depth (second :: items) := by
  rw [itemsText, itemChars, itemChars, lines_cons_cons, List.append_assoc]
  rfl

theorem memberText_append (depth : Nat) (name : String) (value : Json) (s : List Char) :
    memberText (compact asciiOnly) depth name value ++ s
      = quote asciiOnly name ++ ':' :: (chars (compact asciiOnly) depth value ++ s) := by
  simp [memberText, nameEnd, compact]

theorem membersText_singleton (depth : Nat) (name : String) (value : Json) :
    membersText asciiOnly depth [(name, value)]
      = memberText (compact asciiOnly) depth name value ++ ['\x7d'] := by
  rw [membersText, memberChars, memberChars, lines_singleton]
  rfl

theorem membersText_cons_cons (depth : Nat) (name : String) (value : Json)
    (second : String × Json) (members : List (String × Json)) :
    membersText asciiOnly depth ((name, value) :: second :: members)
      = memberText (compact asciiOnly) depth name value
        ++ ',' :: membersText asciiOnly depth (second :: members) := by
  rw [membersText, memberChars, memberChars, lines_cons_cons, List.append_assoc]
  rfl

/-! ### Prefix-freeness -/

/-- The first character of a value other than a number. -/
def opening? : Json → Option Char
  | null => some 'n'
  | bool b => some (if b then 't' else 'f')
  | string _ => some '"'
  | array _ => some '['
  | object _ => some '\x7b'
  | int _ | float _ => none

theorem opening?_of_numberless {j : Json} (h : j.Numberless) :
    ∃ c ∈ marks, j.opening? = some c := by
  cases j with
  | bool b => cases b <;> exact ⟨_, by decide, rfl⟩
  | int i => exact h.elim
  | float d => exact h.elim
  | _ => exact ⟨_, by decide, rfl⟩

theorem chars_of_opening? {depth : Nat} {j : Json} {c : Char} (h : j.opening? = some c) :
    ∃ s, chars (compact asciiOnly) depth j = c :: s := by
  cases j with
  | null => cases h; exact ⟨_, rfl⟩
  | bool b => cases b <;> cases h <;> exact ⟨_, rfl⟩
  | string s => cases h; exact ⟨_, rfl⟩
  | array items => cases h; exact ⟨_, chars_array _ _⟩
  | object members => cases h; exact ⟨_, chars_object _ _⟩
  | int i => cases h
  | float d => cases h

theorem chars_of_opening?_none {depth : Nat} {j : Json} (h : j.opening? = none) :
    BeginsNumber (chars (compact asciiOnly) depth j) := by
  cases j with
  | int i => exact beginsNumber_intText i
  | float d => exact beginsNumber_floatText d
  | _ => cases h

/-- Texts that begin alike are texts of values of one kind. -/
theorem opening?_eq_of_chars {depth outer : Nat} {d e : Json} {r s : List Char}
    (he : e.Numberless)
    (h : chars (compact asciiOnly) depth d ++ r = chars (compact asciiOnly) outer e ++ s) :
    d.opening? = e.opening? := by
  obtain ⟨c, hc, hopen⟩ := opening?_of_numberless he
  obtain ⟨t, ht⟩ := @chars_of_opening? asciiOnly outer e c hopen
  rw [ht] at h
  cases hd : d.opening? with
  | none =>
    obtain ⟨c', u, hu, hnot⟩ := @chars_of_opening?_none asciiOnly depth d hd
    rw [hu] at h
    exact absurd ((List.cons.inj h).1 ▸ hc) hnot
  | some c' =>
    obtain ⟨u, hu⟩ := @chars_of_opening? asciiOnly depth d c' hd
    rw [hu] at h
    rw [hopen, (List.cons.inj h).1]

/-- A first item does not begin as the end of a list. -/
theorem chars_ne_bracket {depth : Nat} {j : Json} {r s : List Char} :
    chars (compact asciiOnly) depth j ++ r ≠ ']' :: s := by
  intro h
  cases hj : j.opening? with
  | none =>
    obtain ⟨c, t, ht, hc⟩ := @chars_of_opening?_none asciiOnly depth j hj
    rw [ht] at h
    exact hc ((List.cons.inj h).1 ▸ by decide)
  | some c =>
    obtain ⟨t, ht⟩ := @chars_of_opening? asciiOnly depth j c hj
    rw [ht] at h
    rw [(List.cons.inj h).1] at hj
    cases j with
    | bool b => cases b <;> cases hj
    | _ => cases hj

theorem itemsText_cons (depth : Nat) (item : Json) (items : List Json) : ∃ t,
    itemsText asciiOnly depth (item :: items) = chars (compact asciiOnly) depth item ++ t := by
  cases items with
  | nil => exact ⟨_, itemsText_singleton depth item⟩
  | cons second items => exact ⟨_, itemsText_cons_cons depth item second items⟩

theorem membersText_cons (depth : Nat) (member : String × Json)
    (members : List (String × Json)) :
    ∃ t, membersText asciiOnly depth (member :: members) = '"' :: t := by
  obtain ⟨s, hs⟩ := @exists_memberLines_eq_cons (compact asciiOnly) depth member members
  exact ⟨s ++ ['\x7d'], by rw [membersText, hs, List.cons_append]⟩

mutual

/-- A text is the text of one value only, and ends where it ends, if one of two values has no
numbers in it. -/
theorem chars_append_inj : ∀ (e d : Json) {depth outer : Nat} {r s : List Char}, e.Numberless →
    chars (compact asciiOnly) depth d ++ r = chars (compact asciiOnly) outer e ++ s →
    d = e ∧ r = s
  | .null, d, _, _, _, _, he, h => by
    have ho := opening?_eq_of_chars he h
    cases d with
    | null => exact ⟨rfl, List.append_cancel_left h⟩
    | bool b => cases b <;> cases ho
    | _ => cases ho
  | .bool b, d, _, _, _, _, he, h => by
    have ho := opening?_eq_of_chars he h
    cases d with
    | bool c =>
      obtain rfl : c = b := by cases b <;> cases c <;> first | rfl | cases ho
      exact ⟨rfl, List.append_cancel_left h⟩
    | _ => cases b <;> cases ho
  | .string t, d, _, _, _, _, he, h => by
    have ho := opening?_eq_of_chars he h
    cases d with
    | string u =>
      obtain ⟨rfl, hr⟩ := quote_append_inj h
      exact ⟨rfl, hr⟩
    | bool b => cases b <;> cases ho
    | _ => cases ho
  | .int _, _, _, _, _, _, he, _ | .float _, _, _, _, _, _, he, _ => he.elim
  | .array es, d, _, _, _, _, he, h => by
    have ho := opening?_eq_of_chars he h
    cases d with
    | array ds =>
      rw [chars_array, chars_array, List.cons_append, List.cons_append] at h
      obtain ⟨rfl, hr⟩ := itemsText_append_inj es ds he (List.cons.inj h).2
      exact ⟨rfl, hr⟩
    | bool b => cases b <;> cases ho
    | _ => cases ho
  | .object es, d, _, _, _, _, he, h => by
    have ho := opening?_eq_of_chars he h
    cases d with
    | object ds =>
      rw [chars_object, chars_object, List.cons_append, List.cons_append] at h
      obtain ⟨rfl, hr⟩ := membersText_append_inj es ds he.2 (List.cons.inj h).2
      exact ⟨rfl, hr⟩
    | bool b => cases b <;> cases ho
    | _ => cases ho
termination_by structural e => e

theorem itemsText_append_inj : ∀ (es ds : List Json) {depth outer : Nat} {r s : List Char},
    AllNumberless es → itemsText asciiOnly depth ds ++ r = itemsText asciiOnly outer es ++ s →
    ds = es ∧ r = s
  | [], [], _, _, _, _, _, h => ⟨rfl, List.append_cancel_left h⟩
  | [], d :: ds, depth, _, _, _, _, h => by
    obtain ⟨t, ht⟩ := @itemsText_cons asciiOnly depth d ds
    rw [ht, List.append_assoc] at h
    exact absurd h chars_ne_bracket
  | e :: es, [], _, outer, _, _, _, h => by
    obtain ⟨t, ht⟩ := @itemsText_cons asciiOnly outer e es
    rw [ht, List.append_assoc] at h
    exact absurd h.symm chars_ne_bracket
  | [e], [d], _, _, _, _, he, h => by
    rw [itemsText_singleton, itemsText_singleton, List.append_assoc, List.append_assoc] at h
    obtain ⟨rfl, hr⟩ := chars_append_inj e d he.1 h
    exact ⟨rfl, (List.cons.inj hr).2⟩
  | [e], d :: next :: ds, _, _, _, _, he, h => by
    rw [itemsText_singleton, itemsText_cons_cons, List.append_assoc, List.append_assoc] at h
    cases (chars_append_inj e d he.1 h).2
  | e :: second :: es, [d], _, _, _, _, he, h => by
    rw [itemsText_singleton, itemsText_cons_cons, List.append_assoc, List.append_assoc] at h
    cases (chars_append_inj e d he.1 h).2
  | e :: second :: es, d :: next :: ds, _, _, _, _, he, h => by
    rw [itemsText_cons_cons, itemsText_cons_cons, List.append_assoc, List.append_assoc] at h
    obtain ⟨rfl, hr⟩ := chars_append_inj e d he.1 h
    obtain ⟨hds, hr⟩ := itemsText_append_inj (second :: es) (next :: ds) he.2 (List.cons.inj hr).2
    exact ⟨by rw [hds], hr⟩
termination_by structural es => es

theorem memberText_append_inj : ∀ (p q : String × Json) {depth outer : Nat} {r s : List Char},
    p.2.Numberless → memberText (compact asciiOnly) depth q.1 q.2 ++ r
      = memberText (compact asciiOnly) outer p.1 p.2 ++ s → q = p ∧ r = s
  | (name, e), (other, d), _, _, _, _, he, h => by
    rw [memberText_append, memberText_append] at h
    obtain ⟨rfl, h⟩ := quote_append_inj h
    obtain ⟨rfl, hr⟩ := chars_append_inj e d he (List.cons.inj h).2
    exact ⟨rfl, hr⟩
termination_by structural p => p

theorem membersText_append_inj : ∀ (es ds : List (String × Json)) {depth outer : Nat}
    {r s : List Char}, MembersNumberless es →
    membersText asciiOnly depth ds ++ r = membersText asciiOnly outer es ++ s → ds = es ∧ r = s
  | [], [], _, _, _, _, _, h => ⟨rfl, List.append_cancel_left h⟩
  | [], d :: ds, depth, _, _, _, _, h => by
    obtain ⟨t, ht⟩ := @membersText_cons asciiOnly depth d ds
    rw [ht] at h
    cases h
  | e :: es, [], _, outer, _, _, _, h => by
    obtain ⟨t, ht⟩ := @membersText_cons asciiOnly outer e es
    rw [ht] at h
    cases h
  | [e], [d], _, _, _, _, he, h => by
    rw [membersText_singleton, membersText_singleton, List.append_assoc, List.append_assoc] at h
    obtain ⟨rfl, hr⟩ := memberText_append_inj e d he.1 h
    exact ⟨rfl, (List.cons.inj hr).2⟩
  | [e], d :: next :: ds, _, _, _, _, he, h => by
    rw [membersText_singleton, membersText_cons_cons, List.append_assoc, List.append_assoc] at h
    cases (memberText_append_inj e d he.1 h).2
  | e :: second :: es, [d], _, _, _, _, he, h => by
    rw [membersText_singleton, membersText_cons_cons, List.append_assoc, List.append_assoc] at h
    cases (memberText_append_inj e d he.1 h).2
  | e :: second :: es, d :: next :: ds, _, _, _, _, he, h => by
    rw [membersText_cons_cons, membersText_cons_cons, List.append_assoc, List.append_assoc] at h
    obtain ⟨rfl, hr⟩ := memberText_append_inj e d he.1 h
    obtain ⟨hds, hr⟩ := membersText_append_inj (second :: es) (next :: ds) he.2
      (List.cons.inj hr).2
    exact ⟨by rw [hds], hr⟩
termination_by structural es => es

end

/-! ### Contents -/

theorem allNumberless_iff {items : List Json} :
    AllNumberless items ↔ ∀ j ∈ items, j.Numberless := by
  induction items with
  | nil => simp [AllNumberless]
  | cons j rest ih => rw [AllNumberless, ih, List.forall_mem_cons]

theorem membersNumberless_iff {members : List (String × Json)} :
    MembersNumberless members ↔ ∀ p ∈ members, p.2.Numberless := by
  induction members with
  | nil => simp [MembersNumberless]
  | cons p rest ih => rw [MembersNumberless, ih, List.forall_mem_cons]

mutual

theorem numberless_content : ∀ {j : Json}, j.Numberless → (content j).Numberless
  | .null, _ | .bool _, _ | .string _, _ => trivial
  | .int _, h | .float _, h => h.elim
  | .array items, h => by
    rw [content_array]
    exact allNumberless_iff.2 (List.forall_mem_map.2 (numberless_contents h))
  | .object members, h => by
    have hcontents := numberless_memberContents h.2
    rw [content_object]
    refine ⟨?_, membersNumberless_iff.2 fun p hp => ?_⟩
    · refine ((sorted_perm _).map _).nodup_iff.2 ?_
      show (Table.keys ((Table.erase identifierName members).map fun p => (p.1, content p.2))).Nodup
      rw [Table.keys_map]
      exact Table.nodup_keys_erase h.1 _
    · obtain ⟨q, hq, rfl⟩ := List.mem_map.1 ((sorted_perm _).mem_iff.1 hp)
      exact hcontents q (List.mem_filter.1 hq).1

theorem numberless_contents : ∀ {items : List Json}, AllNumberless items →
    ∀ j ∈ items, (content j).Numberless
  | [], _ => fun _ hj => (List.not_mem_nil hj).elim
  | _ :: _, h => List.forall_mem_cons.2 ⟨numberless_content h.1, numberless_contents h.2⟩

theorem numberless_memberContents : ∀ {members : List (String × Json)},
    MembersNumberless members → ∀ p ∈ members, (content p.2).Numberless
  | [], _ => fun _ hp => (List.not_mem_nil hp).elim
  | (_, _) :: _, h => List.forall_mem_cons.2 ⟨numberless_content h.1, numberless_memberContents h.2⟩

end

/-- Contents have one canonical text only if they are equal. -/
theorem content_eq_of_canonicalText {d e : Json} (he : e.Numberless)
    (h : d.canonicalText = e.canonicalText) : d.content = e.content := by
  have hchars : chars (compact false) 0 d.content ++ []
      = chars (compact false) 0 e.content ++ [] := by
    rw [List.append_nil, List.append_nil]
    exact String.ofList_injective h
  exact (chars_append_inj _ _ (numberless_content he) hchars).1

end Json

end StructuralTypes

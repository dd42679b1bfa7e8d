import StructuralTypes.Proofs.Masking

/-! Keys in a text with placeholders. A placeholder is read where one was written:
between two of them nothing is read, although the mark that ends the one and the mark that
begins the other may have digits between. -/

namespace StructuralTypes

/-! ### Numbers -/

namespace NumberText

open CharClass

theorem digitsToNat_concat (cs : List Char) (c : Char) :
    digitsToNat (cs ++ [c]) = 10 * digitsToNat cs + (digitValue? c).getD 0 := by
  simp [digitsToNat]

theorem digitsToNat_toDigits (n : Nat) : digitsToNat (Nat.toDigits 10 n) = n := by
  have hdigit : ∀ d < 10, (digitValue? (Nat.digitChar d)).getD 0 = d := by decide
  induction n using Nat.strongRecOn with
  | ind n ih =>
    by_cases hn : n < 10
    · rw [Nat.toDigits_of_lt_base hn]
      simpa [digitsToNat] using hdigit n hn
    · rw [Nat.toDigits_of_base_le (by decide) (by omega), digitsToNat_concat,
        ih (n / 10) (by omega), hdigit (n % 10) (by omega)]
      omega

/-- Digits are split off up to the first character that is none. -/
theorem spanDigits_digits {cs : List Char} (h : ∀ c ∈ cs, isDigit c = true) {d : Char}
    (hd : isDigit d = false) (rest : List Char) :
    spanDigits (cs ++ d :: rest) = (cs, d :: rest) := by
  have hstop : ¬ isDigit d = true := by simp [hd]
  rw [spanDigits, List.takeWhile_append_of_pos h, List.dropWhile_append_of_pos h,
    List.takeWhile_cons_of_neg hstop, List.dropWhile_cons_of_neg hstop, List.append_nil]

end NumberText

namespace Placeholder

open Glyph MarkerForm

theorem isDigit_of_isDigit {c : Char} (h : c.isDigit = true) : CharClass.isDigit c = true := by
  have hrange : 0x30 ≤ c.toNat ∧ c.toNat ≤ 0x30 + 9 := by
    simpa [Char.isDigit, UInt32.le_iff_toNat_le] using h
  rw [CharClass.isDigit, CharClass.digitValue?, CharClass.digitZeros, CharClass.digitAmong?,
    if_neg (Nat.not_lt.2 hrange.1), if_pos hrange.2]
  rfl

theorem isWord_of_isDigit {c : Char} (h : c.isDigit = true) : CharClass.isWord c = true := by
  simp [CharClass.isWord, Char.isAlphanum, h]

/-! ### Placeholders read back -/

theorem read?_write (k : Nat) (rest : List Char) : read? (write k ++ rest) = some (k, rest) := by
  have hspan : NumberText.spanDigits (Nat.toDigits 10 k ++ mark :: rest)
      = (Nat.toDigits 10 k, mark :: rest) :=
    NumberText.spanDigits_digits (fun c hc => isDigit_of_isDigit (isDigit_toDigits hc))
      (by decide) rest
  obtain ⟨d, ds, hdigits⟩ := List.exists_cons_of_ne_nil (@Nat.toDigits_ne_nil k 10)
  rw [write_append, read?, if_pos rfl, hspan, hdigits]
  dsimp only
  rw [if_pos rfl, ← hdigits, NumberText.digitsToNat_toDigits]

theorem read?_of_ne {c : Char} (h : c ≠ mark) (rest : List Char) : read? (c :: rest) = none := by
  rw [read?, if_neg h]

/-- In a text of placeholders a mark that no other comes before begins one. -/
theorem exists_write_of_textOf {gs : List Glyph} (h : Masked gs) {front back : List Char}
    (hfront : mark ∉ front) (hgs : textOf gs = front ++ mark :: back) :
    ∃ k rest, back = Nat.toDigits 10 k ++ mark :: textOf rest := by
  induction gs generalizing front with
  | nil => simp [textOf] at hgs
  | cons g gs ih =>
    cases g with
    | char c =>
      cases front with
      | nil => exact absurd (List.cons.inj hgs).1 (h.char c List.mem_cons_self)
      | cons d front =>
        exact ih h.tail (fun hm => hfront (List.mem_cons_of_mem _ hm)) (List.cons.inj hgs).2
    | literal t =>
      obtain ⟨k, rfl⟩ := h.literal t List.mem_cons_self
      cases front with
      | nil =>
        refine ⟨k, gs, ?_⟩
        rw [textOf_literal, write_append] at hgs
        exact (List.cons.inj hgs).2.symm
      | cons d front =>
        rw [← (List.cons.inj hgs).1] at hfront
        exact absurd List.mem_cons_self hfront

/-- No key begins at the mark that ends a placeholder: what would be its number is followed by
the number of the next placeholder. -/
theorem readKey?_mark {gs : List Glyph} (h : Masked gs) : readKey? (mark :: textOf gs) = none := by
  unfold readKey?
  cases hr : read? (mark :: textOf gs) with
  | none => rfl
  | some p =>
    obtain ⟨n, after⟩ := p
    obtain ⟨digits, hgs, hdigits⟩ := read?_eq_some hr
    have hfront : mark ∉ digits := fun hm => absurd (hdigits mark hm) (by decide)
    obtain ⟨k, rest, rfl⟩ := exists_write_of_textOf h hfront (List.cons.inj hgs).2
    obtain ⟨d, ds, hk⟩ := List.exists_cons_of_ne_nil (@Nat.toDigits_ne_nil k 10)
    have hd : d.isDigit = true := isDigit_toDigits (hk ▸ List.mem_cons_self)
    rw [hk, List.cons_append]
    split
    · rename_i he
      simp only [Option.some.injEq, Prod.mk.injEq, List.cons.injEq] at he
      rw [he.2.1] at hd
      exact absurd hd (by decide)
    · rename_i he
      simp only [Option.some.injEq, Prod.mk.injEq, List.cons.injEq] at he
      rw [if_neg]
      rintro rfl
      rw [he.2.1] at hd
      exact absurd hd (by decide)
    · rfl

theorem readKey?_of_ne {c : Char} (h : c ≠ mark) (rest : List Char) :
    readKey? (c :: rest) = none := by
  rw [readKey?, read?_of_ne h]

/-! ### Keys set aside -/

/-- The literal of a placeholder. -/
def look (table : List (List Char)) (t : List Char) : List Char :=
  ((read? t).bind fun p => table[p.1]?).getD []

theorem look_write (table : List (List Char)) (k : Nat) :
    look table (write k) = table[k]?.getD [] := by
  have hread := read?_write k []
  rw [List.append_nil] at hread
  rw [look, hread]
  rfl

variable {table : List (List Char)}

theorem respellKeys?_pass {c : Char} {s : List Char} (h : readKey? (c :: s) = none) :
    respellKeys? table (c :: s) = (respellKeys? table s).map fun p => (c :: p.1, p.2) := by
  rw [respellKeys?]
  split
  · rename_i hr
    rw [h] at hr
    cases hr
  · cases respellKeys? table s <;> rfl

theorem respellKeys?_char {c : Char} (h : c ≠ mark) (s : List Char) :
    respellKeys? table (c :: s) = (respellKeys? table s).map fun p => (c :: p.1, p.2) :=
  respellKeys?_pass (readKey?_of_ne h s)

theorem respellKeys?_key {k : Nat} {isOptional : Bool} {s after : List Char}
    (h : readKey? (write k ++ s) = some (k, isOptional, after)) {text : List Char}
    (hk : table[k]? = some text) :
    respellKeys? table (write k ++ s)
      = (respellKeys? (table.set k (keyOfLiteral text isOptional)) (':' :: after)).map
        fun p => (write k ++ p.1, p.2) := by
  rw [respellKeys?_char (by decide)]
  rw [write_append] at h ⊢
  rw [respellKeys?]
  split
  · rename_i hr
    rw [h] at hr
    cases hr
    rw [hk]
    cases hrest : respellKeys? (table.set k (keyOfLiteral text isOptional)) after with
    | none => simp [hrest]
    | some p => simp [hrest]
  · rename_i hr
    rw [h] at hr
    cases hr

/-- Characters where no key begins are passed over. -/
theorem respellKeys?_run {cs : List Char} (h : mark ∉ cs) (s : List Char) :
    respellKeys? table (cs ++ s) = (respellKeys? table s).map fun p => (cs ++ p.1, p.2) := by
  induction cs with
  | nil => simp
  | cons c cs ih =>
    rw [List.mem_cons, not_or] at h
    rw [List.cons_append, respellKeys?_char (Ne.symm h.1), ih h.2, Option.map_map]
    rfl

theorem respellKeys?_other {k : Nat} {gs : List Glyph} (hgs : Masked gs)
    (h : readKey? (write k ++ textOf gs) = none) :
    respellKeys? table (write k ++ textOf gs)
      = (respellKeys? table (textOf gs)).map fun p => (write k ++ p.1, p.2) := by
  have hdigits : mark ∉ Nat.toDigits 10 k := fun hm => absurd (isDigit_toDigits hm) (by decide)
  rw [write_append] at h ⊢
  rw [respellKeys?_pass h, respellKeys?_run hdigits, respellKeys?_pass (readKey?_mark hgs),
    Option.map_map, Option.map_map]
  cases respellKeys? table (textOf gs) <;> simp [write]

/-! The same literals are respelled whether a key is seen by its placeholder or as a glyph. -/

theorem readKey?_colon (k : Nat) (s : List Char) :
    readKey? (write k ++ ':' :: s) = some (k, false, s) := by
  rw [readKey?, read?_write]
  rfl

theorem readKey?_optional (k : Nat) (s : List Char) :
    readKey? (write k ++ optionalMark :: ':' :: s) = some (k, true, s) := by
  rw [readKey?, read?_write]
  rfl

theorem readKey?_none (k : Nat) {s : List Char} (hcolon : s.head? ≠ some ':')
    (hmark : ¬ (s.head? = some optionalMark ∧ s.tail.head? = some ':')) :
    readKey? (write k ++ s) = none := by
  unfold readKey?
  rw [read?_write]
  split
  · rename_i he
    cases he
    exact absurd rfl hcolon
  · rename_i he
    cases he
    rw [if_neg]
    rintro rfl
    exact hmark ⟨rfl, rfl⟩
  · rfl

theorem exists_of_mem_literals {gs : List Glyph} (h : Masked gs) {t : List Char}
    (ht : t ∈ literals gs) : ∃ k, t = write k :=
  h.literal t (mem_literals.1 ht)

/-- What the respelling of keys leaves of a text and of its literals: placeholders stay, and a
literal changes where the one at its placeholder is respelled. -/
structure Respelled (table : List (List Char)) (gs form : List Glyph)
    (table' : List (List Char)) : Prop where
  masked : Masked form
  literals : literals form = literals gs
  length : table'.length = table.length
  entries : ∀ (k : Nat) (t : List Char), table'[k]? = some t →
    table[k]? = some t ∨ ∃ u isOptional, table[k]? = some u ∧ t = keyOfLiteral u isOptional
  untouched : ∀ k, write k ∉ Glyph.literals gs → table'[k]? = table[k]?
  relabelled : quoteLiteralKeys (gs.map (relabel (look table))) = form.map (relabel (look table'))

variable {table' : List (List Char)} {gs rest form : List Glyph}

theorem masked_cons {g : Glyph} (hg : Masked [g]) (h : Masked form) : Masked (g :: form) where
  char c hc := by
    rcases List.mem_cons.1 hc with rfl | hc
    · exact hg.char c List.mem_cons_self
    · exact h.char c hc
  literal t ht := by
    rcases List.mem_cons.1 ht with rfl | ht
    · exact hg.literal t List.mem_cons_self
    · exact h.literal t ht

theorem masked_write (k : Nat) : Masked [literal (write k)] :=
  ⟨by simp, fun t ht => ⟨k, by simpa using ht⟩⟩

theorem literals_cons (g : Glyph) (gs : List Glyph) :
    Glyph.literals (g :: gs) = Glyph.literals [g] ++ Glyph.literals gs :=
  literals_append [g] gs

theorem not_mem_literals_of_cons {g : Glyph} {k : Nat} (h : write k ∉ Glyph.literals (g :: gs)) :
    write k ∉ Glyph.literals gs :=
  fun hk => h (by rw [literals_cons]; exact List.mem_append_right _ hk)

/-- A glyph that is kept as it is. -/
theorem Respelled.pass {g : Glyph} (hg : Masked [g])
    (hfresh : ∀ k, g = literal (write k) → write k ∉ Glyph.literals rest)
    (hquote : quoteLiteralKeys ((g :: rest).map (relabel (look table)))
      = relabel (look table) g :: quoteLiteralKeys (rest.map (relabel (look table))))
    (h : Respelled table rest form table') : Respelled table (g :: rest) (g :: form) table' where
  masked := masked_cons hg h.masked
  literals := by rw [literals_cons g form, literals_cons g rest, h.literals]
  length := h.length
  entries := h.entries
  untouched k hk := h.untouched k (not_mem_literals_of_cons hk)
  relabelled := by
    have hsame : relabel (look table) g = relabel (look table') g := by
      cases g with
      | char c => rfl
      | literal t =>
        obtain ⟨k, rfl⟩ := hg.literal t List.mem_cons_self
        rw [relabel_literal, relabel_literal, look_write, look_write, h.untouched k (hfresh k rfl)]
    rw [hquote, h.relabelled, hsame, List.map_cons]

/-- A literal that is respelled. -/
theorem Respelled.key {k : Nat} {isOptional : Bool} {text : List Char}
    (hk : table[k]? = some text) (hrest : Masked rest)
    (hgs : Glyph.literals gs = write k :: Glyph.literals rest)
    (hfresh : write k ∉ Glyph.literals rest)
    (hquote : quoteLiteralKeys (gs.map (relabel (look table)))
      = literal (keyOfLiteral text isOptional)
        :: quoteLiteralKeys (rest.map (relabel (look table))))
    (h : Respelled (table.set k (keyOfLiteral text isOptional)) rest form table') :
    Respelled table gs (literal (write k) :: form) table' where
  masked := masked_cons (masked_write k) h.masked
  literals := by rw [literals_literal, h.literals, hgs]
  length := h.length.trans (List.length_set ..)
  entries j t ht := by
    by_cases hj : k = j
    · subst hj
      have hlt : k < table.length := (List.getElem?_eq_some_iff.1 hk).1
      rw [h.untouched k hfresh, List.getElem?_set_self hlt] at ht
      exact .inr ⟨text, isOptional, hk, (Option.some.inj ht).symm⟩
    · have hold := h.entries j t ht
      rwa [List.getElem?_set_ne hj] at hold
  untouched j hj := by
    rw [hgs, List.mem_cons, not_or] at hj
    have hne : k ≠ j := by
      rintro rfl
      exact hj.1 rfl
    rw [h.untouched j hj.2, List.getElem?_set_ne hne]
  relabelled := by
    have hlt : k < table.length := (List.getElem?_eq_some_iff.1 hk).1
    have hlook : look table' (write k) = keyOfLiteral text isOptional := by
      rw [look_write, h.untouched k hfresh, List.getElem?_set_self hlt]
      rfl
    have hrelabel : rest.map (relabel (look table))
        = rest.map (relabel (look (table.set k (keyOfLiteral text isOptional)))) := by
      apply map_relabel_congr
      intro t ht
      obtain ⟨j, rfl⟩ := exists_of_mem_literals hrest ht
      have hne : k ≠ j := by
        rintro rfl
        exact hfresh ht
      rw [look_write, look_write, List.getElem?_set_ne hne]
    rw [hquote, hrelabel, h.relabelled, List.map_cons, relabel_literal, hlook]

theorem head?_textOf_iff (h : Masked gs) {c : Char} (hc : c ≠ mark) :
    (textOf gs).head? = some c ↔ gs.head? = some (char c) := by
  rw [← head?_spread h hc, spread, List.head?_map, Option.map_eq_some_iff]
  simp

/-- What follows a placeholder makes no key of it where it makes none of its literal. -/
theorem readKey?_textOf {k : Nat} {g : Glyph} (h : Masked (g :: rest)) (hcolon : g ≠ char ':')
    (hmark : ¬ (g = char optionalMark ∧ rest.head? = some (char ':'))) :
    readKey? (write k ++ textOf (g :: rest)) = none := by
  apply readKey?_none
  · rw [ne_eq, head?_textOf_iff h (by decide)]
    simpa using hcolon
  · rw [head?_textOf_iff h (by decide)]
    rintro ⟨hhead, htail⟩
    obtain rfl : g = char optionalMark := by simpa using hhead
    rw [textOf_char, List.tail_cons, head?_textOf_iff h.tail (by decide)] at htail
    exact hmark ⟨rfl, htail⟩

theorem quoteLiteralKeys_other {f : List Char → List Char} {t : List Char} {g : Glyph}
    (hcolon : g ≠ char ':') (hmark : ¬ (g = char optionalMark ∧ rest.head? = some (char ':'))) :
    quoteLiteralKeys ((literal t :: g :: rest).map (relabel f))
      = literal (f t) :: quoteLiteralKeys ((g :: rest).map (relabel f)) := by
  have hcolon' : relabel f g ≠ char ':' := by simpa using hcolon
  have hmark' : ¬ (relabel f g = char optionalMark
      ∧ (rest.map (relabel f)).head? = some (char ':')) := by
    rw [List.head?_map]
    simpa using hmark
  rw [List.map_cons, List.map_cons, relabel_literal, quoteLiteralKeys, if_neg hcolon',
    if_neg hmark']

theorem respelled_nil (h : Masked []) : Respelled table [] [] table where
  masked := h
  literals := rfl
  length := rfl
  entries _ _ := .inl
  untouched _ _ := rfl
  relabelled := by simp [quoteLiteralKeys]

/-- A key is respelled, and then what is behind it, with or without an optional mark between. -/
theorem exists_respelled_key {k : Nat} {isOptional : Bool} {after : List Glyph}
    (hk : k < table.length) (hmasked : Masked (char ':' :: rest))
    (hafter : Glyph.literals after = Glyph.literals rest) (hfresh : write k ∉ Glyph.literals rest)
    (hread : readKey? (write k ++ textOf after) = some (k, isOptional, textOf rest))
    (hquote : ∀ f, quoteLiteralKeys ((literal (write k) :: after).map (relabel f))
      = literal (keyOfLiteral (f (write k)) isOptional)
        :: quoteLiteralKeys ((char ':' :: rest).map (relabel f)))
    (ih : ∀ entry, ∃ form table',
      respellKeys? (table.set k entry) (textOf (char ':' :: rest)) = some (textOf form, table')
        ∧ Respelled (table.set k entry) (char ':' :: rest) form table') :
    ∃ form table',
      respellKeys? table (textOf (literal (write k) :: after)) = some (textOf form, table')
        ∧ Respelled table (literal (write k) :: after) form table' := by
  obtain ⟨text, htext⟩ : ∃ text, table[k]? = some text := ⟨_, List.getElem?_eq_getElem hk⟩
  obtain ⟨form, table', hrespell, hform⟩ := ih (keyOfLiteral text isOptional)
  refine ⟨literal (write k) :: form, table', ?_, hform.key htext hmasked ?_ hfresh ?_⟩
  · rw [textOf_literal, respellKeys?_key hread htext, ← textOf_char, hrespell]
    rfl
  · exact congrArg (write k :: ·) hafter
  · rw [hquote, look_write, htext]
    rfl

theorem exists_respelled (h : Masked gs) (hnodup : (literals gs).Nodup)
    (hin : ∀ k, write k ∈ literals gs → k < table.length) :
    ∃ form table', respellKeys? table (textOf gs) = some (textOf form, table')
      ∧ Respelled table gs form table' := by
  fun_induction quoteLiteralKeys gs generalizing table with
  | case1 t rest ih =>
    obtain ⟨k, rfl⟩ := h.literal t List.mem_cons_self
    obtain ⟨hfresh, hrest⟩ := List.nodup_cons.1 hnodup
    refine exists_respelled_key (hin k (by simp)) h.tail rfl hfresh (readKey?_colon k _)
      (fun f => ?_) fun entry => ih h.tail hrest fun j hj => ?_
    · rw [List.map_cons, List.map_cons, relabel_literal, relabel_char, quoteLiteralKeys, if_pos rfl]
    · rw [List.length_set]
      exact hin j (List.mem_cons_of_mem _ hj)
  | case2 t g rest hg hmark ih =>
    obtain ⟨k, rfl⟩ := h.literal t List.mem_cons_self
    obtain ⟨rfl, hhead⟩ := hmark
    obtain ⟨rest, rfl⟩ := List.head?_eq_some_iff.1 hhead
    obtain ⟨hfresh, hrest⟩ := List.nodup_cons.1 hnodup
    refine exists_respelled_key (hin k (by simp)) h.tail.tail rfl hfresh (readKey?_optional k _)
      (fun f => ?_) fun entry => ih h.tail.tail hrest fun j hj => ?_
    · rw [List.map_cons, List.map_cons, List.map_cons, relabel_literal, relabel_char, relabel_char,
        quoteLiteralKeys, if_neg (by decide), if_pos ⟨rfl, rfl⟩]
    · rw [List.length_set]
      exact hin j (List.mem_cons_of_mem _ hj)
  | case3 t g rest hg hmark ih =>
    obtain ⟨k, rfl⟩ := h.literal t List.mem_cons_self
    obtain ⟨hfresh, hrest⟩ := List.nodup_cons.1 hnodup
    obtain ⟨form, table', hrespell, hform⟩ :=
      @ih table h.tail hrest fun j hj => hin j (List.mem_cons_of_mem _ hj)
    refine ⟨literal (write k) :: form, table', ?_,
      hform.pass (masked_write k) ?_ (quoteLiteralKeys_other hg hmark)⟩
    · rw [textOf_literal, respellKeys?_other h.tail (readKey?_textOf h.tail hg hmark), hrespell]
      rfl
    · intro j hj
      rwa [← Glyph.literal.inj hj]
  | case4 g rest hne ih =>
    cases g with
    | char c =>
      obtain ⟨form, table', hrespell, hform⟩ := @ih table h.tail hnodup hin
      have hc : Masked [char c] :=
        h.of_subset (List.cons_subset_cons _ (List.nil_subset _))
      refine ⟨char c :: form, table', ?_, hform.pass hc (by simp) ?_⟩
      · rw [textOf_char, respellKeys?_char (h.char c List.mem_cons_self), hrespell]
        rfl
      · rw [List.map_cons, relabel_char, quoteLiteralKeys]
        simp
    | literal t =>
      obtain ⟨k, rfl⟩ := h.literal t List.mem_cons_self
      cases rest with
      | cons g rest => exact (hne _ g rest rfl rfl).elim
      | nil =>
        have hother : readKey? (write k ++ textOf []) = none := readKey?_none k (by simp) (by simp)
        refine ⟨[literal (write k)], table, ?_, (respelled_nil h.tail).pass h (by simp) ?_⟩
        · rw [textOf_literal, respellKeys?_other h.tail hother, textOf_nil, respellKeys?]
          rfl
        · simp [quoteLiteralKeys]
  | case5 => exact ⟨[], table, by rw [textOf_nil, respellKeys?], respelled_nil h⟩

end Placeholder

end StructuralTypes

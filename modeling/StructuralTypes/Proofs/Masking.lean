import Mathlib.Data.List.DropRight
import StructuralTypes.Proofs.Relabelling
import StructuralTypes.Proofs.Spelling
import StructuralTypes.Token.Placeholder

/-! Passes over plain text treat a placeholder as one glyph. None of its characters begins or
ends what a pass looks for, so the pass gives the same whether the placeholder is taken as a
literal or spread out into its characters. -/

namespace StructuralTypes

namespace Placeholder

/-! ### The text of a placeholder -/

theorem isDigit_toDigits {k : Nat} {c : Char} (h : c ∈ Nat.toDigits 10 k) : c.isDigit = true :=
  Nat.isDigit_of_mem_toDigits (by decide) (by decide) h

theorem mem_write {c : Char} {k : Nat} (h : c ∈ write k) : c = mark ∨ c.isDigit = true := by
  simp only [write, List.mem_cons, List.mem_append, List.not_mem_nil, or_false] at h
  rcases h with h | h | h
  · exact .inl h
  · exact .inr (isDigit_toDigits h)
  · exact .inl h

theorem not_mem_write {c : Char} (hm : c ≠ mark) (hd : c.isDigit = false) (k : Nat) :
    c ∉ write k := by
  intro h
  rcases mem_write h with h | h
  · exact hm h
  · rw [h] at hd
    cases hd

theorem write_append (k : Nat) (s : List Char) :
    write k ++ s = mark :: (Nat.toDigits 10 k ++ mark :: s) := by
  simp [write]

theorem write_ne_nil (k : Nat) : write k ≠ [] := by
  simp [write]

end Placeholder

namespace Glyph

open Placeholder

/-- Each literal is a placeholder, and there are no marks besides. -/
structure Masked (gs : List Glyph) : Prop where
  char : ∀ c, char c ∈ gs → c ≠ mark
  literal : ∀ t, literal t ∈ gs → ∃ k, t = write k

/-- Takes literals apart into their characters. -/
def spread (gs : List Glyph) : List Glyph :=
  (textOf gs).map char

variable {gs hs : List Glyph}

theorem Masked.of_subset (h : Masked gs) (hsub : hs ⊆ gs) : Masked hs :=
  ⟨fun c hc => h.char c (hsub hc), fun t ht => h.literal t (hsub ht)⟩

theorem Masked.left (h : Masked (gs ++ hs)) : Masked gs :=
  h.of_subset (List.subset_append_left gs hs)

theorem Masked.right (h : Masked (gs ++ hs)) : Masked hs :=
  h.of_subset (List.subset_append_right gs hs)

theorem Masked.tail {g : Glyph} (h : Masked (g :: gs)) : Masked gs :=
  h.of_subset (List.subset_cons_self g gs)

@[simp] theorem textOf_nil : textOf [] = [] := rfl

@[simp] theorem textOf_char (c : Char) (gs : List Glyph) :
    textOf (char c :: gs) = c :: textOf gs := rfl

@[simp] theorem textOf_literal (t : List Char) (gs : List Glyph) :
    textOf (literal t :: gs) = t ++ textOf gs := rfl

theorem char_mem_textOf {gs : List Glyph} {c : Char} (h : char c ∈ gs) : c ∈ textOf gs :=
  List.mem_flatMap.2 ⟨_, h, List.mem_singleton_self c⟩

@[simp] theorem spread_nil : spread [] = [] := rfl

@[simp] theorem spread_char (c : Char) (gs : List Glyph) :
    spread (char c :: gs) = char c :: spread gs := rfl

@[simp] theorem spread_literal (t : List Char) (gs : List Glyph) :
    spread (literal t :: gs) = t.map char ++ spread gs := by
  rw [spread, textOf_literal, List.map_append]
  rfl

theorem spread_append (gs hs : List Glyph) : spread (gs ++ hs) = spread gs ++ spread hs := by
  rw [spread, textOf_append, List.map_append]
  rfl

theorem spread_eq_self (h : literals gs = []) : spread gs = gs := by
  induction gs with
  | nil => rfl
  | cons g rest ih =>
    cases g with
    | char c => rw [spread_char, ih h]
    | literal t => cases h

theorem spread_map_char (cs : List Char) : spread (cs.map char) = cs.map char :=
  spread_eq_self (literals_map_char cs)

theorem textOf_spread (gs : List Glyph) : textOf (spread gs) = textOf gs :=
  textOf_map_char _

/-- Nothing but a mark is new at the front. -/
theorem head?_spread (h : Masked gs) {c : Char} (hc : c ≠ mark) :
    (spread gs).head? = some (char c) ↔ gs.head? = some (char c) := by
  cases gs with
  | nil => rfl
  | cons g rest =>
    cases g with
    | char d => rfl
    | literal t =>
      obtain ⟨k, rfl⟩ := h.literal t List.mem_cons_self
      simp [write, Ne.symm hc]

theorem char_not_mem_write {c : Char} (hm : c ≠ mark) (hd : c.isDigit = false) (k : Nat) :
    char c ∉ (write k).map char := by
  simpa using not_mem_write hm hd k

/-- A class of glyphs without marks and digits holds nothing of a placeholder. -/
theorem forall_mem_write {p : Glyph → Bool}
    (h : ∀ c, p (char c) = true → c ≠ mark ∧ c.isDigit = false) (k : Nat) :
    ∀ g ∈ (write k).map char, p g = false := by
  intro g hg
  obtain ⟨c, hc, rfl⟩ := List.mem_map.1 hg
  by_contra hp
  obtain ⟨hm, hd⟩ := h c (by simpa using hp)
  exact not_mem_write hm hd k hc

theorem getLast?_write (k : Nat) : ((write k).map char).getLast? = some (char mark) := by
  rw [write, ← List.cons_append, List.map_append, List.map_singleton, List.getLast?_concat]

theorem isLayout_write (k : Nat) : ∀ g ∈ (write k).map char, isLayout g = false := by
  apply forall_mem_write
  simp only [isLayout, Bool.or_eq_true, beq_iff_eq]
  rintro c (((rfl | rfl) | rfl) | rfl) <;> decide

/-- Glyphs are runs of characters with literals between. -/
theorem segments {motive : List Glyph → Prop} (chars : ∀ cs : List Char, motive (cs.map char))
    (literal : ∀ (cs : List Char) (t : List Char) (rest : List Glyph), motive rest →
      motive (cs.map char ++ literal t :: rest))
    (gs : List Glyph) : motive gs := by
  suffices hrun : ∀ cs : List Char, motive (cs.map char ++ gs) from hrun []
  induction gs with
  | nil => exact fun cs => by simpa using chars cs
  | cons g rest ih =>
    intro cs
    cases g with
    | char c => simpa using ih (cs ++ [c])
    | literal t => exact literal cs t rest (ih [])

theorem char_mem_spread (h : Masked gs) {c : Char} (hm : c ≠ mark) (hd : c.isDigit = false) :
    char c ∈ spread gs ↔ char c ∈ gs := by
  induction gs with
  | nil => rfl
  | cons g rest ih =>
    cases g with
    | char d => simp [ih h.tail]
    | literal t =>
      obtain ⟨k, rfl⟩ := h.literal t List.mem_cons_self
      simpa [char_not_mem_write hm hd k] using ih h.tail

theorem isPrefix_spread (h : Masked gs) {word : List Char} (hw : mark ∉ word) :
    word.map char <+: spread gs ↔ word.map char <+: gs := by
  induction word generalizing gs with
  | nil => simp
  | cons c word ih =>
    rw [List.mem_cons, not_or] at hw
    cases gs with
    | nil => rfl
    | cons g rest =>
      cases g with
      | char d => simp [ih h.tail hw.2]
      | literal t =>
        obtain ⟨k, rfl⟩ := h.literal t List.mem_cons_self
        simp [write, Ne.symm hw.1]

theorem isEmpty_spread (h : Masked gs) : (spread gs).isEmpty = gs.isEmpty := by
  cases gs with
  | nil => rfl
  | cons g rest =>
    cases g with
    | char c => rfl
    | literal t =>
      obtain ⟨k, rfl⟩ := h.literal t List.mem_cons_self
      rfl

/-- A run of glyphs takes in a placeholder as a whole or ends right before it. -/
theorem span_spread {p : Glyph → Bool} (hmark : ∀ t, p (literal t) = p (char mark))
    (hdigit : p (char mark) = true → ∀ c, c.isDigit = true → p (char c) = true)
    (h : Masked gs) : (spread gs).takeWhile p = spread (gs.takeWhile p)
      ∧ (spread gs).dropWhile p = spread (gs.dropWhile p) := by
  induction gs with
  | nil => exact ⟨rfl, rfl⟩
  | cons g rest ih =>
    obtain ⟨htake, hdrop⟩ := ih h.tail
    cases g with
    | char c =>
      rw [spread_char, List.takeWhile_cons, List.dropWhile_cons, List.takeWhile_cons,
        List.dropWhile_cons, htake, hdrop]
      split <;> exact ⟨rfl, rfl⟩
    | literal t =>
      obtain ⟨k, rfl⟩ := h.literal t List.mem_cons_self
      by_cases hp : p (char mark) = true
      · have hall : ∀ g ∈ (write k).map char, p g = true := by
          intro g hg
          obtain ⟨c, hc, rfl⟩ := List.mem_map.1 hg
          rcases mem_write hc with rfl | hc
          · exact hp
          · exact hdigit hp c hc
        rw [spread_literal, List.takeWhile_append_of_pos hall, List.dropWhile_append_of_pos hall,
          List.takeWhile_cons_of_pos ((hmark _).trans hp),
          List.dropWhile_cons_of_pos ((hmark _).trans hp), htake, hdrop, spread_literal]
        exact ⟨rfl, rfl⟩
      · have hl : ¬ p (literal (write k)) = true := by rwa [hmark]
        rw [List.takeWhile_cons_of_neg hl, List.dropWhile_cons_of_neg hl, spread_literal, write,
          List.map_cons, List.cons_append, List.takeWhile_cons_of_neg hp,
          List.dropWhile_cons_of_neg hp]
        exact ⟨rfl, rfl⟩

/-- A pass that does not see whether a placeholder is one glyph. -/
structure Blind (pass : List Glyph → List Glyph) : Prop where
  masked : ∀ {gs}, Masked gs → Masked (pass gs)
  spread : ∀ {gs}, Masked gs → pass (spread gs) = Glyph.spread (pass gs)

variable {pass next : List Glyph → List Glyph}

theorem Blind.comp (hn : Blind next) (hp : Blind pass) : Blind fun gs => next (pass gs) where
  masked h := hn.masked (hp.masked h)
  spread h := by rw [hp.spread h, hn.spread (hp.masked h)]

theorem Blind.onText (h : Blind pass) (hg : Masked gs) :
    onText pass (textOf gs) = textOf (pass gs) := by
  have hspread := h.spread hg
  rw [Glyph.spread] at hspread
  rw [Placeholder.onText, hspread, textOf_spread]

/-- Characters that are new are no marks, and no literals are. -/
theorem Masked.of_mem (h : Masked gs)
    (hmem : ∀ g ∈ hs, g ∈ gs ∨ ∃ c, g = Glyph.char c ∧ c ≠ mark) : Masked hs where
  char c hc := by
    rcases hmem _ hc with hg | ⟨d, hd, hne⟩
    · exact h.char c hg
    · cases hd
      exact hne
  literal t ht := by
    rcases hmem _ ht with hg | ⟨d, hd, -⟩
    · exact h.literal t hg
    · cases hd

/-! ### Comments, blanks and edges -/

theorem dropComments_outside {xs : List Glyph} (h : char '/' ∉ xs) (gs : List Glyph) :
    dropComments false (xs ++ gs) = xs ++ dropComments false gs := by
  induction xs with
  | nil => rfl
  | cons g xs ih =>
    rw [List.mem_cons, not_or] at h
    rw [List.cons_append, dropComments_cons (Ne.symm h.1), ih h.2, List.cons_append]

theorem dropComments_inside {xs : List Glyph} (h : char '\n' ∉ xs) (gs : List Glyph) :
    dropComments true (xs ++ gs) = dropComments true gs := by
  induction xs with
  | nil => rfl
  | cons g xs ih =>
    rw [List.mem_cons, not_or] at h
    rw [List.cons_append, dropComments, if_neg (Ne.symm h.1), ih h.2]

theorem dropComments_slash {gs : List Glyph} (h : gs.head? ≠ some (char '/')) :
    dropComments false (char '/' :: gs) = char '/' :: dropComments false gs := by
  cases gs with
  | nil => rfl
  | cons g rest =>
    rw [dropComments, if_neg]
    rintro ⟨-, rfl⟩
    exact h rfl

/-- What follows two slashes is in a comment, the second slash as well. -/
theorem dropComments_slashes (gs : List Glyph) :
    dropComments false (char '/' :: char '/' :: gs) = dropComments true (char '/' :: gs) := by
  have hslash : dropComments true ([char '/'] ++ gs) = dropComments true gs :=
    dropComments_inside (by simp) gs
  refine Eq.trans ?_ hslash.symm
  rw [dropComments, if_pos ⟨rfl, rfl⟩]

theorem blind_dropComments (inside : Bool) : Blind (dropComments inside) where
  masked h := h.of_subset (dropComments_sublist inside _).subset
  spread {gs} h := by
    induction gs generalizing inside with
    | nil => cases inside <;> rfl
    | cons g rest ih =>
      cases g with
      | literal t =>
        obtain ⟨k, rfl⟩ := h.literal t List.mem_cons_self
        rw [spread_literal]
        cases inside with
        | true =>
          rw [dropComments_inside (char_not_mem_write (by decide) rfl k), ih true h.tail,
            dropComments, if_neg (by simp)]
        | false =>
          rw [dropComments_outside (char_not_mem_write (by decide) rfl k), ih false h.tail,
            dropComments_cons (by simp), spread_literal]
      | char c =>
        rw [spread_char]
        cases inside with
        | true =>
          by_cases hc : c = '\n'
          · rw [hc, dropComments, if_pos rfl, ih false h.tail, dropComments, if_pos rfl,
              spread_char]
          · have hne : char c ≠ char '\n' := by simpa using hc
            rw [dropComments, if_neg hne, ih true h.tail, dropComments, if_neg hne]
        | false =>
          by_cases hc : c = '/'
          · subst hc
            by_cases hhead : rest.head? = some (char '/')
            · obtain ⟨rest, rfl⟩ := List.head?_eq_some_iff.1 hhead
              rw [spread_char, dropComments_slashes, dropComments_slashes, ← spread_char,
                ih true h.tail]
            · rw [dropComments_slash ((head?_spread h.tail (by decide)).not.2 hhead),
                ih false h.tail, dropComments_slash hhead, spread_char]
          · have hne : char c ≠ char '/' := by simpa using hc
            rw [dropComments_cons hne, ih false h.tail, dropComments_cons hne, spread_char]

theorem blind_dropLayout : Blind dropLayout where
  masked h := h.of_subset (List.filter_sublist).subset
  spread {gs} h := by
    induction gs with
    | nil => rfl
    | cons g rest ih =>
      have hrest := ih h.tail
      rw [← List.singleton_append, spread_append, dropLayout_append, dropLayout_append, hrest,
        spread_append]
      cases g with
      | char c => cases hc : (char c).isLayout <;> simp [dropLayout, hc]
      | literal t =>
        obtain ⟨k, rfl⟩ := h.literal t List.mem_cons_self
        have hkept : dropLayout ((write k).map char) = (write k).map char :=
          List.filter_eq_self.2 fun g hg => by simp [isLayout_write k g hg]
        have hliteral : dropLayout [literal (write k)] = [literal (write k)] := rfl
        rw [hliteral, spread_literal, spread_nil, List.append_nil, hkept]

/-- Operators are dropped from the front, and from the end. -/
theorem trimOperators_eq (gs : List Glyph) :
    trimOperators gs = (gs.dropWhile isOperator).rdropWhile isOperator := rfl

theorem rdropWhile_spread (h : Masked gs) :
    (Glyph.spread gs).rdropWhile isOperator = Glyph.spread (gs.rdropWhile isOperator) := by
  induction gs using List.reverseRecOn with
  | nil => rfl
  | append_singleton rest g ih =>
    rw [List.rdropWhile_concat, spread_append]
    cases g with
    | char c =>
      rw [spread_char, spread_nil, List.rdropWhile_concat, ih h.left]
      split
      · rfl
      · rw [spread_append, spread_char, spread_nil]
    | literal t =>
      obtain ⟨k, rfl⟩ := h.literal t (by simp)
      have hmark : isOperator (char mark) = false := by decide
      have hlast : spread rest ++ spread [literal (write k)]
          = (spread rest ++ (mark :: Nat.toDigits 10 k).map char) ++ [char mark] := by
        simp [write]
      rw [hlast, List.rdropWhile_concat_neg _ _ _ (by simp [hmark]), ← hlast,
        if_neg (by simp [isOperator]), spread_append]

theorem blind_trimOperators : Blind trimOperators where
  masked h := h.of_subset
    ((List.rdropWhile_prefix _ _).sublist.trans (List.dropWhile_suffix _).sublist).subset
  spread {gs} h := by
    have hdrop : Masked (gs.dropWhile isOperator) := h.of_subset (List.dropWhile_suffix _).subset
    have hspan := @span_spread _ isOperator (fun _ => rfl) (fun hm => absurd hm (by decide)) h
    rw [trimOperators_eq, hspan.2, rdropWhile_spread hdrop, ← trimOperators_eq]

/-! ### Replacing -/

theorem mem_replaceFrom {word replacement : List Char} {skip : Nat} {g : Glyph}
    (h : g ∈ replaceFrom word replacement skip gs) : g ∈ gs ∨ g ∈ replacement.map char := by
  fun_induction replaceFrom word replacement skip gs with
  | case1 => cases h
  | case2 skip k rest ih => exact (ih h).imp_left (List.mem_cons_of_mem _)
  | case3 k rest hp ih =>
    rcases List.mem_append.1 h with h | h
    · exact .inr h
    · exact (ih h).imp_left (List.mem_cons_of_mem _)
  | case4 k rest hp ih =>
    rcases List.mem_cons.1 h with rfl | h
    · exact .inl List.mem_cons_self
    · exact (ih h).imp_left (List.mem_cons_of_mem _)

theorem mem_replaceChar {c : Char} {replacement : List Char} {g : Glyph}
    (h : g ∈ replaceChar c replacement gs) :
    (g ∈ gs ∧ g ≠ char c) ∨ g ∈ replacement.map char := by
  obtain ⟨k, hk, hg⟩ := List.mem_flatMap.1 h
  split at hg
  · exact .inr hg
  · rename_i hne
    obtain rfl := List.mem_singleton.1 hg
    exact .inl ⟨hk, hne⟩

/-- Neither a word nor what replaces it has a mark, and no word has a digit. -/
theorem blind_replaceWord {word replacement : List Char} (hne : word ≠ [])
    (hword : ∀ c ∈ word, c ≠ mark ∧ c.isDigit = false) (hr : ∀ c ∈ replacement, c ≠ mark) :
    Blind (replaceWord word replacement) where
  masked h := h.of_mem fun g hg => by
    rcases mem_replaceFrom hg with hg | hg
    · exact .inl hg
    · obtain ⟨c, hc, rfl⟩ := List.mem_map.1 hg
      exact .inr ⟨c, rfl, hr c hc⟩
  spread {gs} h := by
    induction gs using segments with
    | chars cs =>
      have hplain : literals (replaceWord word replacement (cs.map char)) = [] := by
        rw [(opaque_replaceWord hne replacement).literals, literals_map_char]
      rw [spread_map_char, spread_eq_self hplain]
    | literal cs t rest ih =>
      obtain ⟨k, rfl⟩ := h.literal t (by simp)
      have hplain : literals (replaceWord word replacement (cs.map char)) = [] := by
        rw [(opaque_replaceWord hne replacement).literals, literals_map_char]
      obtain ⟨c, hc⟩ := List.exists_mem_of_ne_nil word hne
      have hself : replaceWord word replacement ((write k).map char) = (write k).map char :=
        replaceWord_eq_self hc (char_not_mem_write (hword c hc).1 (hword c hc).2 k) replacement
      have hmark : ∀ cs : List Char, (∀ c ∈ cs, c ∈ word) → char mark ∉ cs.map char := by
        intro cs hcs hm
        obtain ⟨c, hm, hc⟩ := List.mem_map.1 hm
        exact (hword c (hcs c hm)).1 (char.inj hc)
      rw [replaceWord_context hne, spread_append, spread_append, spread_literal, spread_literal,
        spread_map_char, spread_eq_self hplain, ← ih h.right.tail, replaceWord_append,
        replaceWord_append, hself]
      · rintro x hx y -
        rw [getLast?_write] at hx
        obtain rfl := Option.some.inj hx
        exact .inl (hmark _ fun c hc => List.mem_of_mem_dropLast hc)
      · rintro x - y ⟨⟩
        exact .inr (hmark _ fun c hc => List.mem_of_mem_tail hc)

theorem blind_replaceChar {c : Char} {replacement : List Char} (hm : c ≠ mark)
    (hd : c.isDigit = false) (hr : ∀ c ∈ replacement, c ≠ mark) :
    Blind (replaceChar c replacement) where
  masked h := h.of_mem fun g hg => by
    rcases mem_replaceChar hg with hg | hg
    · exact .inl hg.1
    · obtain ⟨c, hc, rfl⟩ := List.mem_map.1 hg
      exact .inr ⟨c, rfl, hr c hc⟩
  spread {gs} h := by
    induction gs with
    | nil => rfl
    | cons g rest ih =>
      rw [← List.singleton_append, spread_append, replaceChar_append, replaceChar_append,
        ih h.tail, spread_append]
      cases g with
      | char d =>
        have hplain : literals (replaceChar c replacement [char d]) = [] :=
          (opaque_replaceChar c replacement).literals _
        rw [spread_eq_self hplain]
        rfl
      | literal t =>
        obtain ⟨k, rfl⟩ := h.literal t List.mem_cons_self
        have hliteral : replaceChar c replacement [literal (write k)] = [literal (write k)] :=
          replaceChar_eq_self (by simp) replacement
        rw [hliteral, spread_literal, spread_nil, List.append_nil,
          replaceChar_eq_self (char_not_mem_write hm hd k)]

end Glyph

namespace MarkerForm

open Glyph Placeholder

variable {gs : List Glyph}

theorem blind_dangling {ops : List (List Char × Char)} (hops : ∀ p ∈ ops, p ∈ danglingOperators) :
    Blind fun gs => ops.foldl (fun gs p => replaceWord p.1 [p.2] gs) gs := by
  have hblind : ∀ p ∈ danglingOperators, p.1 ≠ [] ∧ (∀ c ∈ p.1, c ≠ mark ∧ c.isDigit = false)
      ∧ ∀ c ∈ [p.2], c ≠ mark := by decide
  induction ops with
  | nil => exact ⟨id, fun _ => rfl⟩
  | cons p ops ih =>
    obtain ⟨hne, hword, hr⟩ := hblind p (hops p List.mem_cons_self)
    exact (ih fun q hq => hops q (List.mem_cons_of_mem _ hq)).comp (blind_replaceWord hne hword hr)

theorem blind_squeeze : Blind squeeze :=
  (blind_dangling fun _ hp => hp).comp <| blind_trimOperators.comp <|
    blind_dropLayout.comp (blind_dropComments false)

theorem blind_markOptional : Blind (replaceWord ['?', ':'] [optionalMark, ':']) :=
  blind_replaceWord (by decide) (by decide) (by decide)

theorem blind_markShapes : Blind markShapes :=
  (blind_replaceChar (by decide) (by decide) (by decide)).comp <|
    (blind_replaceChar (by decide) (by decide) (by decide)).comp <|
      (blind_replaceWord (by decide) (by decide) (by decide)).comp
        (blind_replaceWord (by decide) (by decide) (by decide))

theorem blind_markSequences : Blind markSequences :=
  (blind_replaceChar (by decide) (by decide) (by decide)).comp <|
    (blind_replaceChar (by decide) (by decide) (by decide)).comp <|
      (blind_replaceChar (by decide) (by decide) (by decide)).comp <|
        (blind_replaceWord (by decide) (by decide) (by decide)).comp
          (blind_replaceWord (by decide) (by decide) (by decide))

theorem reservedIn_spread (h : Masked gs) : reservedIn (spread gs) = reservedIn gs := by
  have hreserved : ∀ c ∈ reserved, c ≠ mark ∧ c.isDigit = false := by decide
  apply List.filter_congr
  intro c hc
  obtain ⟨hm, hd⟩ := hreserved c hc
  rw [Bool.eq_iff_iff, List.contains_iff_mem, List.contains_iff_mem, char_mem_spread h hm hd]

/-! ### Indexers -/

theorem isBracket_write (k : Nat) : ∀ g ∈ (write k).map char, isBracket g = false := by
  apply forall_mem_write
  simp only [isBracket, Bool.or_eq_true, beq_iff_eq, Glyph.char.injEq]
  rintro c (rfl | rfl) <;> decide

theorem closesAsIndexer_spread (h : Masked gs) :
    closesAsIndexer (spread gs) = closesAsIndexer gs := by
  have hdigit : ∀ c : Char, c.isDigit = true → (!isBracket (char c)) = true := by
    intro c hc
    rw [Bool.not_eq_true', isBracket, Bool.or_eq_false_iff, beq_eq_false_iff_ne,
      beq_eq_false_iff_ne]
    constructor <;> rintro ⟨⟩ <;> exact absurd hc (by decide)
  obtain ⟨htake, hdrop⟩ := @span_spread _ (!isBracket ·) (fun _ => rfl) (fun _ => hdigit) h
  have hword : mark ∉ [']', ':'] := by decide
  have hprefix : [char ']', char ':'].isPrefixOf (spread (gs.dropWhile (!isBracket ·)))
      = [char ']', char ':'].isPrefixOf (gs.dropWhile (!isBracket ·)) := by
    rw [Bool.eq_iff_iff, List.isPrefixOf_iff_prefix, List.isPrefixOf_iff_prefix]
    exact isPrefix_spread (h.of_subset (List.dropWhile_suffix _).subset) hword
  rw [closesAsIndexer, htake, hdrop, hprefix,
    isEmpty_spread (h.of_subset (List.takeWhile_prefix _).subset), closesAsIndexer]

theorem unwrapIndexers_sublist (inside : Bool) (gs : List Glyph) :
    (unwrapIndexers inside gs).Sublist gs := by
  fun_induction unwrapIndexers inside gs with
  | case1 inside => exact List.Sublist.refl _
  | case2 inside g rest h ih => exact ih.cons _
  | case3 inside g rest h h' ih => exact ih.cons _
  | case4 inside g rest h h' ih => exact ih.cons_cons _

theorem blind_unwrapIndexers (inside : Bool) : Blind (unwrapIndexers inside) where
  masked h := h.of_subset (unwrapIndexers_sublist inside _).subset
  spread {gs} h := by
    induction gs generalizing inside with
    | nil => rfl
    | cons g rest ih =>
      cases g with
      | char c =>
        simp only [spread_char, unwrapIndexers, closesAsIndexer_spread h.tail, ih _ h.tail]
        split
        · rfl
        · split <;> rfl
      | literal t =>
        obtain ⟨k, rfl⟩ := h.literal t List.mem_cons_self
        have hliteral : unwrapIndexers inside ([literal (write k)] ++ rest)
            = [literal (write k)] ++ unwrapIndexers inside rest :=
          unwrapIndexers_append (by simp [isBracket]) inside rest
        rw [spread_literal, unwrapIndexers_append (isBracket_write k), ih _ h.tail,
          ← List.singleton_append, hliteral, spread_append, spread_literal, spread_nil,
          List.append_nil]

end MarkerForm

end StructuralTypes

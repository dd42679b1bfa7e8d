import StructuralTypes.Proofs.MaskedKeys

/-! Names and indexers in a text with placeholders. A name does not start at the digits of a
placeholder nor right behind its end, and a named indexer is found by its placeholder as it is
by its literal. -/

namespace StructuralTypes

namespace MarkerForm

open Glyph

theorem mem_quoteRun {flag : Bool} {run after : List Glyph} {g : Glyph}
    (h : g ∈ quoteRun flag run after) : g ∈ run ∨ g = char '"' := by
  have hpair : ∀ p : List Glyph × List Glyph, p.1 ++ p.2 = run →
      g ∈ (if (!p.2.isEmpty && after.head? == some (char ':')) = true
        then p.1 ++ char '"' :: (p.2 ++ [char '"']) else run) → g ∈ run ∨ g = char '"' := by
    rintro p rfl hg
    split at hg
    · simp only [List.mem_append, List.mem_cons, List.not_mem_nil, or_false] at hg ⊢
      tauto
    · exact .inl hg
  cases flag with
  | true => exact hpair _ (splitAfterMark_append run) h
  | false => exact hpair ([], run) rfl h

theorem mem_quoteNameKeys {flag : Bool} {gs : List Glyph} {g : Glyph}
    (h : g ∈ quoteNameKeys flag gs) :
    g ∈ gs ∨ g = char '"' := by
  fun_induction quoteNameKeys flag gs with
  | case1 flag => cases h
  | case2 flag k rest hk after ih =>
    rcases List.mem_append.1 h with h | h
    · apply (mem_quoteRun h).imp_left
      exact fun hg => (List.cons_subset_cons k (List.takeWhile_prefix _).subset) hg
    · apply (ih h).imp_left
      exact fun hg => List.mem_cons_of_mem _ ((List.dropWhile_suffix _).subset hg)
  | case3 flag k rest hk ih =>
    rcases List.mem_cons.1 h with rfl | h
    · exact .inl List.mem_cons_self
    · exact (ih h).imp_left (List.mem_cons_of_mem _)

end MarkerForm

namespace Placeholder

open Glyph MarkerForm

variable {gs : List Glyph}

/-! ### Names -/

theorem quoteNames_pass {c : Char} {before : Option Char} {s : List Char}
    (h : (isKeyChar c && startsName before) = false) :
    quoteNames before (c :: s) = c :: quoteNames (some c) s := by
  rw [quoteNames, h, Bool.false_and, if_neg (by decide)]

/-- Within a word, and at the digits of a placeholder, no name starts. -/
theorem quoteNames_word {cs : List Char} (h : ∀ c ∈ cs, CharClass.isWord c = true)
    {before : Option Char} (hb : startsName before = false) (s : List Char) :
    ∃ b, startsName b = false ∧ quoteNames before (cs ++ s) = cs ++ quoteNames b s := by
  induction cs generalizing before with
  | nil => exact ⟨before, hb, rfl⟩
  | cons c cs ih =>
    have hc : startsName (some c) = false := by simp [startsName, h c List.mem_cons_self]
    obtain ⟨b, hb', hcs⟩ := ih (fun d hd => h d (List.mem_cons_of_mem _ hd)) hc
    exact ⟨b, hb', by rw [List.cons_append, quoteNames_pass (by simp [hb]), hcs, List.cons_append]⟩

theorem quoteNames_write (before : Option Char) (k : Nat) (s : List Char) :
    quoteNames before (write k ++ s) = write k ++ quoteNames (some mark) s := by
  have hmark : isKeyChar mark = false := by decide
  have hword : ∀ c ∈ Nat.toDigits 10 k, CharClass.isWord c = true :=
    fun c hc => isWord_of_isDigit (isDigit_toDigits hc)
  obtain ⟨b, -, hdigits⟩ := @quoteNames_word _ hword (some mark) rfl (mark :: s)
  rw [write_append, quoteNames_pass (by simp [hmark]), hdigits, quoteNames_pass (by simp [hmark]),
    write_append]

theorem span_keyChars {cs s : List Char} (h : ∀ c ∈ cs, isKeyChar c = true)
    (hs : ∀ c ∈ s.head?, isKeyChar c = false) :
    (cs ++ s).takeWhile isKeyChar = cs ∧ (cs ++ s).dropWhile isKeyChar = s := by
  rw [List.takeWhile_append_of_pos h, List.dropWhile_append_of_pos h]
  cases s with
  | nil => simp
  | cons d s => simp [hs d rfl]

/-- A run of key characters is left alone if no colon follows. -/
theorem quoteNames_run {cs : List Char} (h : ∀ c ∈ cs, isKeyChar c = true) {s : List Char}
    (hs : ∀ c ∈ s.head?, isKeyChar c = false ∧ c ≠ ':') (before : Option Char) :
    ∃ b, quoteNames before (cs ++ s) = cs ++ quoteNames b s := by
  induction cs generalizing before with
  | nil => exact ⟨before, rfl⟩
  | cons c cs ih =>
    have hcs : ∀ d ∈ cs, isKeyChar d = true := fun d hd => h d (List.mem_cons_of_mem _ hd)
    obtain ⟨b, hrest⟩ := ih hcs (some c)
    have hcolon : (s.head? == some ':') = false := by
      rw [beq_eq_false_iff_ne]
      exact fun hc => (hs _ hc).2 rfl
    refine ⟨b, ?_⟩
    rw [List.cons_append, quoteNames, (span_keyChars hcs fun c hc => (hs c hc).1).2, hcolon,
      Bool.and_false, if_neg (by decide), hrest, List.cons_append]

/-- A run of key characters is a name if a colon follows and a name can start at the run. -/
theorem quoteNames_name {cs : List Char} (hne : cs ≠ []) (h : ∀ c ∈ cs, isKeyChar c = true)
    {before : Option Char} (hb : startsName before = true) (s : List Char) :
    ∃ b, quoteNames before (cs ++ ':' :: s) = '"' :: (cs ++ '"' :: quoteNames b (':' :: s)) := by
  cases cs with
  | nil => exact absurd rfl hne
  | cons c cs =>
    have hcolon : ∀ d ∈ (':' :: s).head?, isKeyChar d = false := by
      rintro d ⟨⟩
      decide
    obtain ⟨htake, hdrop⟩ := span_keyChars (fun d hd => h d (List.mem_cons_of_mem _ hd)) hcolon
    refine ⟨some c, ?_⟩
    rw [List.cons_append, quoteNames, htake, hdrop, h c List.mem_cons_self, hb, if_pos (by simp)]
    simp

theorem isKeyGlyph_eq_true {g : Glyph} (h : isKeyGlyph g = true) :
    ∃ c, g = char c ∧ isKeyChar c = true := by
  cases g with
  | char c => exact ⟨c, rfl, h⟩
  | literal t => cases h

theorem exists_keyChars {run : List Glyph} (h : ∀ g ∈ run, isKeyGlyph g = true) :
    ∃ cs : List Char, run = cs.map char ∧ ∀ c ∈ cs, isKeyChar c = true := by
  induction run with
  | nil => exact ⟨[], rfl, by simp⟩
  | cons g rest ih =>
    obtain ⟨c, rfl, hc⟩ := isKeyGlyph_eq_true (h g List.mem_cons_self)
    obtain ⟨cs, rfl, hcs⟩ := ih fun k hk => h k (List.mem_cons_of_mem _ hk)
    exact ⟨c :: cs, rfl, by simpa using ⟨hc, hcs⟩⟩

/-- Whether a name can start after a character is told by whether a literal stands there. -/
def Suits (flag : Bool) (before : Option Char) : Prop :=
  if flag then before = some mark else startsName before = true

theorem head?_textOf_cases (h : Masked gs) {c : Char} (hc : (textOf gs).head? = some c) :
    c = mark ∨ gs.head? = some (char c) := by
  cases gs with
  | nil => cases hc
  | cons g rest =>
    cases g with
    | char d => exact .inr (by simpa using hc)
    | literal t =>
      obtain ⟨k, rfl⟩ := h.literal t List.mem_cons_self
      exact .inl (Option.some.inj hc).symm

/-- After a literal a name starts behind the first optional mark. -/
theorem splitAfterMark_chars (cs : List Char) :
    (optionalMark ∉ cs ∧ splitAfterMark (cs.map char) = (cs.map char, []))
      ∨ ∃ kept name, cs = kept ++ optionalMark :: name ∧ optionalMark ∉ kept
        ∧ splitAfterMark (cs.map char) = ((kept ++ [optionalMark]).map char, name.map char) := by
  have hall : ∀ {cs : List Char}, optionalMark ∉ cs →
      ∀ g ∈ cs.map char, (g != char optionalMark) = true := by
    intro cs hcs g hg
    obtain ⟨c, hc, rfl⟩ := List.mem_map.1 hg
    rw [bne_iff_ne]
    rintro ⟨⟩
    exact hcs hc
  by_cases hmem : optionalMark ∈ cs
  · obtain ⟨kept, name, rfl, hkept⟩ := List.eq_append_cons_of_mem hmem
    refine .inr ⟨kept, name, rfl, hkept, ?_⟩
    rw [splitAfterMark, List.map_append, List.takeWhile_append_of_pos (hall hkept),
      List.dropWhile_append_of_pos (hall hkept)]
    simp
  · refine .inl ⟨hmem, ?_⟩
    rw [splitAfterMark, List.takeWhile_eq_self_iff.2 (hall hmem),
      List.dropWhile_eq_nil_iff.2 (hall hmem)]

/-- Key characters but the optional mark are word characters. -/
theorem isWord_of_isKeyChar {cs : List Char} (h : ∀ c ∈ cs, isKeyChar c = true)
    (hmark : optionalMark ∉ cs) : ∀ c ∈ cs, CharClass.isWord c = true := by
  intro c hc
  have hkey := h c hc
  rw [isKeyChar, Bool.or_eq_true, beq_iff_eq] at hkey
  apply hkey.resolve_right
  rintro rfl
  exact hmark hc

theorem quoteRun_afterLiteral {run kept name : List Glyph}
    (h : splitAfterMark run = (kept, name)) (rest : List Glyph) :
    quoteRun true run (char ':' :: rest)
      = if name = [] then run else kept ++ char '"' :: (name ++ [char '"']) := by
  simp [quoteRun, h]

/-- Behind a literal a run before a colon is quoted from its first optional mark on. -/
theorem quoteNames_afterLiteral {cs : List Char} (hcs : ∀ c ∈ cs, isKeyChar c = true)
    (rest : List Glyph) :
    ∃ b, quoteNames (some mark) (cs ++ ':' :: textOf rest)
      = textOf (quoteRun true (cs.map char) (char ':' :: rest))
        ++ quoteNames b (':' :: textOf rest) := by
  rcases splitAfterMark_chars cs with ⟨hmark, hsplit⟩ | ⟨kept, name, rfl, hkept, hsplit⟩
  · obtain ⟨b, -, hkeep⟩ := @quoteNames_word cs (isWord_of_isKeyChar hcs hmark) (some mark) rfl
      (':' :: textOf rest)
    exact ⟨b, by rw [hkeep, quoteRun_afterLiteral hsplit, if_pos rfl, textOf_map_char]⟩
  · have hword := isWord_of_isKeyChar (fun c hc => hcs c (List.mem_append_left _ hc)) hkept
    obtain ⟨b, hb, hkeep⟩ := @quoteNames_word kept hword (some mark) rfl
      (optionalMark :: (name ++ ':' :: textOf rest))
    have hpass := @quoteNames_pass optionalMark b (name ++ ':' :: textOf rest)
      (by rw [hb, Bool.and_false])
    rw [List.append_assoc, List.cons_append, hkeep, hpass, quoteRun_afterLiteral hsplit]
    by_cases hname : name = []
    · subst hname
      exact ⟨some optionalMark, by simp [textOf_append, textOf_map_char]⟩
    · have hstart : startsName (some optionalMark) = true := by decide
      obtain ⟨b', hquote⟩ := quoteNames_name hname
        (fun c hc => hcs c (List.mem_append_right _ (List.mem_cons_of_mem _ hc))) hstart
        (textOf rest)
      exact ⟨b', by simp [hquote, hname, textOf_append, textOf_map_char]⟩

/-- A run is quoted or not, by its characters or as glyphs. -/
theorem quoteNames_quoteRun {cs : List Char} (hne : cs ≠ [])
    (hcs : ∀ c ∈ cs, isKeyChar c = true) {after : List Glyph} (hmask : Masked after)
    (hafter : ∀ g ∈ after.head?, isKeyGlyph g = false) {flag : Bool} {before : Option Char}
    (hb : Suits flag before) :
    ∃ b, quoteNames before (cs ++ textOf after)
      = textOf (quoteRun flag (cs.map char) after) ++ quoteNames b (textOf after) := by
  by_cases hcolon : after.head? = some (char ':')
  · obtain ⟨rest, rfl⟩ := List.head?_eq_some_iff.1 hcolon
    cases flag with
    | false =>
      obtain ⟨b, hname⟩ := quoteNames_name hne hcs hb (textOf rest)
      exact ⟨b, by simp [hname, quoteRun, hne, textOf_append, textOf_map_char]⟩
    | true =>
      obtain rfl : before = some mark := hb
      exact quoteNames_afterLiteral hcs rest
  · have hstop : ∀ c ∈ (textOf after).head?, isKeyChar c = false ∧ c ≠ ':' := by
      intro c hc
      rcases head?_textOf_cases hmask hc with rfl | hhead
      · decide
      · refine ⟨hafter _ hhead, ?_⟩
        rintro rfl
        exact hcolon hhead
    obtain ⟨b, hrun⟩ := quoteNames_run hcs hstop before
    exact ⟨b, by rw [hrun, quoteRun_of_head hcolon, textOf_map_char]⟩

theorem quoteNames_textOf (h : Masked gs) {flag : Bool} {before : Option Char}
    (hb : ∀ g ∈ gs.head?, isKeyGlyph g = true → Suits flag before) :
    quoteNames before (textOf gs) = textOf (quoteNameKeys flag gs) := by
  fun_induction quoteNameKeys flag gs generalizing before with
  | case1 flag => rw [textOf_nil, quoteNames]
  | case2 flag g rest hg after ih =>
    have hrun : ∀ k ∈ g :: rest.takeWhile isKeyGlyph, isKeyGlyph k = true := by
      intro k hk
      rcases List.mem_cons.1 hk with rfl | hk
      · exact hg
      · exact List.all_eq_true.1 List.all_takeWhile k hk
    obtain ⟨cs, hcs, hkey⟩ := exists_keyChars hrun
    have hne : cs ≠ [] := by
      rintro rfl
      cases hcs
    have hmask : Masked after := h.tail.of_subset (List.dropWhile_suffix _).subset
    have hafter : ∀ k ∈ after.head?, isKeyGlyph k = false := by
      intro k hk
      have hstop := List.head?_dropWhile_not isKeyGlyph rest
      rwa [show (rest.dropWhile isKeyGlyph).head? = some k from hk] at hstop
    obtain ⟨b, hquote⟩ := quoteNames_quoteRun hne hkey hmask hafter (hb g rfl hg)
    have hgs : textOf (g :: rest) = cs ++ textOf after := by
      rw [← textOf_map_char cs, ← hcs, ← textOf_append, List.cons_append,
        List.takeWhile_append_dropWhile]
    have hrest := @ih hmask b fun k hk hkey => by simp [hafter k hk] at hkey
    rw [hgs, hquote, hrest, hcs, textOf_append]
  | case3 flag g rest hg ih =>
    cases g with
    | char c =>
      have hc : isKeyChar c = false := by simpa [isKeyGlyph] using hg
      have hstart : startsName (some c) = true := by
        rw [isKeyChar, Bool.or_eq_false_iff] at hc
        simp [startsName, hc.1, h.char c List.mem_cons_self]
      rw [textOf_char, quoteNames_pass (by rw [hc, Bool.false_and]), ih h.tail fun _ _ _ => hstart]
      rfl
    | literal t =>
      obtain ⟨k, rfl⟩ := h.literal t List.mem_cons_self
      rw [textOf_literal, quoteNames_write, ih h.tail fun _ _ _ => rfl]
      rfl

theorem masked_quoteNameKeys (flag : Bool) (h : Masked gs) : Masked (quoteNameKeys flag gs) := by
  apply h.of_mem
  intro g hg
  exact (mem_quoteNameKeys hg).imp_right fun hg => ⟨_, hg, by decide⟩

/-! ### Indexers -/

/-- Whether a colon follows, and the end of an indexer after it. -/
def closesKey : List Glyph → Bool
  | [] => false
  | g :: rest => g == char ':' && closesAsIndexer rest

theorem startsNamedIndexer_cons (g : Glyph) (gs : List Glyph) :
    startsNamedIndexer (g :: gs) = (g == char '[' && (afterKey? gs).any closesKey) := by
  rw [startsNamedIndexer]
  cases afterKey? gs with
  | none => rfl
  | some after => cases after <;> rfl

theorem startsIndexer_cons (c : Char) (s : List Char) :
    startsIndexer (c :: s) = (c == '[' && ((afterKey? (s.map char)).any closesKey
      || (read? s).any fun p => closesKey (p.2.map char))) := by
  have hchar : ∀ c d : Char, (char c == char d) = (c == d) := by
    intro c d
    rw [Bool.eq_iff_iff]
    simp
  have hread : (fun p : Nat × List Char => p.2.head? == some ':'
      && closesAsIndexer (p.2.tail.map char)) = fun p => closesKey (p.2.map char) := by
    funext p
    cases p.2 with
    | nil => rfl
    | cons d after =>
      rw [List.map_cons, closesKey, hchar]
      rfl
  rw [startsIndexer, List.map_cons, startsNamedIndexer_cons, hread, hchar, Bool.and_or_distrib_left]

theorem closesKey_spread (h : Masked gs) : closesKey (spread gs) = closesKey gs := by
  cases gs with
  | nil => rfl
  | cons g rest =>
    cases g with
    | char c => rw [spread_char, closesKey, closesKey, closesAsIndexer_spread h.tail]
    | literal t =>
      obtain ⟨k, rfl⟩ := h.literal t List.mem_cons_self
      rfl

theorem afterKey?_spread {c : Char} (h : Masked (char c :: gs)) :
    afterKey? (spread (char c :: gs)) = (afterKey? (char c :: gs)).map spread := by
  have hspan := @span_spread gs isKeyGlyph (fun _ => rfl) (fun hm => absurd hm (by decide)) h.tail
  have hrun : Masked (gs.takeWhile isKeyGlyph) := h.tail.of_subset (List.takeWhile_prefix _).subset
  rw [spread_char, afterKey?, afterKey?, hspan.1, hspan.2, isEmpty_spread hrun]
  · split
    · have hafter : Masked (gs.dropWhile isKeyGlyph) :=
        h.tail.of_subset (List.dropWhile_suffix _).subset
      cases hd : gs.dropWhile isKeyGlyph with
      | nil => rfl
      | cons k after =>
        cases k with
        | char d => by_cases hq : d = '"' <;> simp [hq]
        | literal t =>
          rw [hd] at hafter
          obtain ⟨k, rfl⟩ := hafter.literal t List.mem_cons_self
          rfl
    · rfl
  · simp
  · simp

theorem afterKey?_subset {after : List Glyph} (h : afterKey? gs = some after) : after ⊆ gs := by
  cases gs with
  | nil => cases h
  | cons g rest =>
    cases g with
    | literal t =>
      cases h
      exact List.subset_cons_self _ _
    | char c =>
      rw [afterKey?] at h
      · split at h
        · split at h
          · rename_i k tail hd
            split at h
            · cases h
              intro g hg
              have hrest := (@List.dropWhile_suffix _ rest isKeyGlyph).subset
              rw [hd] at hrest
              exact List.mem_cons_of_mem _ (hrest (List.mem_cons_of_mem _ hg))
            · cases h
          · cases h
        · cases h
      · simp

/-- The key of an indexer is found in the text as it is in its glyphs. -/
theorem closesKey_textOf (h : Masked gs) :
    ((afterKey? (spread gs)).any closesKey
      || (read? (textOf gs)).any fun p => closesKey (p.2.map char))
      = (afterKey? gs).any closesKey := by
  cases gs with
  | nil => rfl
  | cons g rest =>
    cases g with
    | literal t =>
      obtain ⟨k, rfl⟩ := h.literal t List.mem_cons_self
      have hnone : afterKey? (spread (literal (write k) :: rest)) = none := by
        have hmark : char mark ≠ char '"' := by decide
        rw [spread_literal, write, List.map_cons, List.cons_append, afterKey?, if_neg]
        · exact fun hq => hmark hq.1
        · simp
      rw [hnone, textOf_literal, read?_write]
      exact closesKey_spread h.tail
    | char c =>
      rw [afterKey?_spread h, textOf_char, read?_of_ne (h.char c List.mem_cons_self)]
      cases hkey : afterKey? (char c :: rest) with
      | none => rfl
      | some after =>
        have hafter := closesKey_spread (h.of_subset (afterKey?_subset hkey))
        simp [hafter]

theorem hasIndexer_run {cs : List Char} (h : '[' ∉ cs) (s : List Char) :
    hasIndexer (cs ++ s) = hasIndexer s := by
  induction cs with
  | nil => rfl
  | cons c cs ih =>
    rw [List.mem_cons, not_or] at h
    rw [List.cons_append, hasIndexer, startsIndexer_cons, ih h.2]
    simp [Ne.symm h.1]

theorem hasIndexer_textOf (h : Masked gs) : hasIndexer (textOf gs) = hasNamedIndexer gs := by
  induction gs with
  | nil => rfl
  | cons g rest ih =>
    cases g with
    | literal t =>
      obtain ⟨k, rfl⟩ := h.literal t List.mem_cons_self
      rw [textOf_literal, hasIndexer_run (not_mem_write (by decide) (by decide) k), ih h.tail,
        hasNamedIndexer, startsNamedIndexer_cons]
      rfl
    | char c =>
      have hchar : (char c == char '[') = (c == '[') := by
        rw [Bool.eq_iff_iff]
        simp
      rw [textOf_char, hasIndexer, startsIndexer_cons, ih h.tail, hasNamedIndexer,
        startsNamedIndexer_cons, ← spread, closesKey_textOf h.tail, hchar]

end Placeholder

end StructuralTypes

import StructuralTypes.Proofs.Exchange
import StructuralTypes.Proofs.TokenStream
import StructuralTypes.Token.Standing

/-! Passes over the source that work piece by piece. Such a pass does the same on either side of
a literal or a bracket, leaves brackets and commas where they are, and lets no name grow up to
the end of a text. The passes that respell keys and shapes are of this kind. -/

namespace StructuralTypes.MarkerForm

open Glyph

variable {gs xs ys : List Glyph} {g : Glyph} {c : Char} {word replacement : List Char}

/-! ### Ends and beginnings -/

/-- The characters at which names end in any of the forms of the source. -/
def edges : List Char :=
  separators ++ reserved

/-- A text ends at the end of a name, if it is not empty. -/
def EndsAtEdge (gs : List Glyph) : Prop :=
  gs = [] ∨ ∃ c ∈ edges, gs.getLast? = some (char c)

/-- A text begins at the end of a name, if it is not empty. -/
def BeginsAtEdge (gs : List Glyph) : Prop :=
  gs = [] ∨ ∃ c ∈ edges, gs.head? = some (char c)

theorem replaceFrom_length_le {skip : Nat} (h : gs.length ≤ skip) :
    replaceFrom word replacement skip gs = [] := by
  induction gs generalizing skip with
  | nil => rw [replaceFrom]
  | cons g rest ih =>
    obtain ⟨skip, rfl⟩ := Nat.exists_eq_succ_of_ne_zero (Nat.ne_of_gt (Nat.lt_of_lt_of_le
      (Nat.succ_pos _) h))
    rw [replaceFrom, ih (Nat.le_of_succ_le_succ h)]

/-- The last glyph stays, or is the last of a word that is put in. -/
theorem getLast?_replaceFrom (hr : replacement ≠ []) {skip : Nat} (h : skip < gs.length) :
    (replaceFrom word replacement skip gs).getLast? = gs.getLast?
      ∨ (replaceFrom word replacement skip gs).getLast? = (replacement.map char).getLast? := by
  have hsome : (replacement.map char).getLast? ≠ none := by simpa using hr
  induction gs generalizing skip with
  | nil => exact absurd h (Nat.not_lt_zero _)
  | cons g rest ih =>
    have hlast : rest ≠ [] → (g :: rest).getLast? = rest.getLast? := fun hne => by
      rw [List.getLast?_cons_of_ne_nil hne]
    cases skip with
    | succ skip =>
      have hlt := Nat.lt_of_succ_lt_succ h
      rw [replaceFrom, hlast (List.ne_nil_of_length_pos (Nat.zero_lt_of_lt hlt))]
      exact ih hlt
    | zero =>
      rw [replaceFrom]
      split
      · rw [List.getLast?_append]
        rcases Nat.lt_or_ge (word.length - 1) rest.length with hlt | hge
        · have hne := List.ne_nil_of_length_pos (Nat.zero_lt_of_lt hlt)
          rw [hlast hne]
          rcases ih hlt with hstay | hput
          · left
            rw [hstay, Option.or_of_isSome (by simpa using hne)]
          · right
            rw [hput, Option.or_self]
        · right
          rw [replaceFrom_length_le hge]
          rfl
      · cases rest with
        | nil => exact .inl rfl
        | cons k rest =>
          rw [hlast (by simp)]
          have hkept : ∀ {last : Option Glyph}, last ≠ none →
              (replaceFrom word replacement 0 (k :: rest)).getLast? = last →
              (g :: replaceFrom word replacement 0 (k :: rest)).getLast? = last := by
            intro last hne hput
            rw [List.getLast?_cons_of_ne_nil, hput]
            exact fun he => hne (hput.symm.trans (by rw [he]; rfl))
          exact (ih (Nat.succ_pos _)).imp (hkept (by simp)) (hkept hsome)

theorem EndsAtEdge.replaceWord (h : EndsAtEdge gs) (word : List Char)
    (hr : ∃ c ∈ edges, replacement.getLast? = some c) :
    EndsAtEdge (replaceWord word replacement gs) := by
  obtain ⟨d, hd, hlast⟩ := hr
  have hne : replacement ≠ [] := by
    rintro rfl
    cases hlast
  obtain rfl | ⟨c, hc, hgs⟩ := h
  · exact .inl rfl
  · have hpos : 0 < gs.length := List.length_pos_of_ne_nil (by rintro rfl; cases hgs)
    rcases getLast?_replaceFrom hne hpos with hstay | hput
    · exact .inr ⟨c, hc, hstay.trans hgs⟩
    · exact .inr ⟨d, hd, hput.trans (by rw [List.getLast?_map, hlast]; rfl)⟩

theorem BeginsAtEdge.replaceWord (h : BeginsAtEdge gs)
    (hr : (∃ c ∈ edges, replacement.head? = some c) ∨ ¬ word.map char <+: gs) :
    BeginsAtEdge (replaceWord word replacement gs) := by
  obtain rfl | ⟨c, hc, hgs⟩ := h
  · exact .inl rfl
  · obtain ⟨rest, rfl⟩ := List.head?_eq_some_iff.1 hgs
    right
    rw [Glyph.replaceWord, replaceFrom]
    split
    · rename_i hword
      obtain ⟨d, hd, hhead⟩ := hr.resolve_right fun hn => hn (List.isPrefixOf_iff_prefix.1 hword)
      refine ⟨d, hd, ?_⟩
      simp [List.head?_append, hhead]
    · exact ⟨c, hc, rfl⟩

/-! ### Piecewise passes -/

/-- A text ends at the end of a name, or with the word that opens an array type. -/
def Ends (gs : List Glyph) : Prop :=
  EndsAtEdge gs ∨ arrayWord <:+ gs

/-- A pass that works piece by piece. -/
structure Piecewise (P : List Glyph → List Glyph) : Prop where
  nil_iff : ∀ {gs : List Glyph}, P gs = [] ↔ gs = []
  cut : ∀ (xs : List Glyph) {g : Glyph} (ys : List Glyph), g.isLiteral = true ∨ isBracket g = true →
    P (xs ++ g :: ys) = P xs ++ P (g :: ys)
  stop : ∀ {g : Glyph} (ys : List Glyph), isStop g = true → P (g :: ys) = g :: P ys
  literal : ∀ (t : List Char) (ys : List Glyph), ∃ t' ys', P (literal t :: ys) = literal t' :: ys'
  head : ∀ {c : Char} (ys : List Glyph), c ∈ [':', ',', '[', ']'] →
    (P ys).head? = some (char c) → ys.head? = some (char c)
  brackets : ∀ gs : List Glyph, (P gs).filter isBracket = gs.filter isBracket
  ends : ∀ {gs : List Glyph}, Ends gs → Ends (P gs)

variable {P Q : List Glyph → List Glyph}

theorem Piecewise.nil (hP : Piecewise P) : P [] = [] :=
  hP.nil_iff.2 rfl

theorem isStop_of_isBracket (h : isBracket g = true) : isStop g = true := by
  rw [isStop, h, Bool.or_true]

theorem Piecewise.comp (hP : Piecewise P) (hQ : Piecewise Q) :
    Piecewise fun gs => P (Q gs) where
  nil_iff := hP.nil_iff.trans hQ.nil_iff
  cut xs g ys h := by
    rw [hQ.cut xs ys h]
    rcases h with hl | hb
    · cases g with
      | char c => cases hl
      | literal t =>
        obtain ⟨t', ys', hq⟩ := hQ.literal t ys
        rw [hq, hP.cut _ _ (.inl rfl)]
    · rw [hQ.stop ys (isStop_of_isBracket hb), hP.cut _ _ (.inr hb)]
  stop ys h := by rw [hQ.stop ys h, hP.stop _ h]
  literal t ys := by
    obtain ⟨t', ys', hq⟩ := hQ.literal t ys
    rw [hq]
    exact hP.literal t' ys'
  head ys hc h := hQ.head ys hc (hP.head _ hc h)
  brackets gs := by rw [hP.brackets, hQ.brackets]
  ends h := hP.ends (hQ.ends h)

/-! ### Words -/

theorem replaceWord_cons (hne : word ≠ []) (hg : g ∉ word.map char) (ys : List Glyph) :
    replaceWord word replacement (g :: ys) = g :: replaceWord word replacement ys := by
  have hp : ¬ word.map char <+: g :: ys := by
    rintro ⟨after, hafter⟩
    obtain ⟨c, rest, rfl⟩ := List.exists_cons_of_ne_nil hne
    exact hg (by simp [(List.cons.inj hafter).1])
  rw [replaceWord, replaceFrom, if_neg fun hb => hp (List.isPrefixOf_iff_prefix.1 hb)]
  rfl

theorem replaceWord_cut (hg : g ∉ word.map char) (xs ys : List Glyph) :
    replaceWord word replacement (xs ++ g :: ys)
      = replaceWord word replacement xs ++ replaceWord word replacement (g :: ys) := by
  refine replaceWord_append ?_ replacement
  rintro x - y ⟨⟩
  exact .inr fun hm => hg (List.map_subset _ (List.tail_subset _) hm)

theorem replaceChar_eq (c : Char) (replacement : List Char) :
    replaceChar c replacement = replaceWord [c] replacement := by
  funext gs
  induction gs with
  | nil => rfl
  | cons g rest ih =>
    rw [replaceChar] at ih ⊢
    rw [List.flatMap_cons, ih]
    by_cases hg : g = char c
    · rw [if_pos hg, hg, Glyph.replaceWord, Glyph.replaceWord, replaceFrom, if_pos (by simp)]
      rfl
    · rw [if_neg hg, replaceWord_cons (by simp) (by simpa using hg)]
      rfl

/-- A word that has nothing to do with brackets and commas nor with array types, and that is
replaced by one that ends as a name does. -/
structure Harmless (word replacement : List Char) : Prop where
  ne_nil : word ≠ []
  old : ∀ c ∈ word, isStop (char c) = false ∧ char c ∉ arrayWord
  new : ∀ c ∈ replacement, isBracket (char c) = false
  head : ∀ c ∈ [':', ',', '[', ']'], replacement.head? ≠ some c
  last : ∃ c ∈ edges, replacement.getLast? = some c

theorem filter_replaceFrom (h : Harmless word replacement) {skip : Nat}
    (hskip : ∀ g ∈ gs.take skip, isBracket g = false) :
    (replaceFrom word replacement skip gs).filter isBracket = gs.filter isBracket := by
  induction gs generalizing skip with
  | nil => rw [replaceFrom]
  | cons g rest ih =>
    cases skip with
    | succ skip =>
      rw [List.take_succ_cons, List.forall_mem_cons] at hskip
      rw [replaceFrom, ih hskip.2, List.filter_cons_of_neg (by simp [hskip.1])]
    | zero =>
      rw [replaceFrom]
      split
      · rename_i hword
        obtain ⟨after, hafter⟩ := List.isPrefixOf_iff_prefix.1 hword
        obtain ⟨c, w, rfl⟩ := List.exists_cons_of_ne_nil h.ne_nil
        rw [List.map_cons, List.cons_append] at hafter
        obtain ⟨rfl, rfl⟩ := List.cons.inj hafter
        have hplain : ∀ d ∈ c :: w, isBracket (char d) = false := fun d hd => by
          have hd := (h.old d hd).1
          rw [isStop, Bool.or_eq_false_iff] at hd
          exact hd.2
        have hnew : (replacement.map char).filter isBracket = [] := by
          rw [List.filter_eq_nil_iff]
          intro g hg
          obtain ⟨d, hd, rfl⟩ := List.mem_map.1 hg
          simp [h.new d hd]
        rw [List.filter_append, hnew, List.nil_append,
          List.filter_cons_of_neg (by simp [hplain c List.mem_cons_self])]
        refine ih fun g hg => ?_
        have htake : ((w.map char ++ after).take ((c :: w).length - 1)) = w.map char := by
          rw [List.take_append_of_le_length (by simp)]
          simp
        rw [htake] at hg
        obtain ⟨d, hd, rfl⟩ := List.mem_map.1 hg
        exact hplain d (List.mem_cons_of_mem _ hd)
      · rw [List.filter_cons, List.filter_cons, ih (by simp)]

theorem Harmless.not_mem (h : Harmless word replacement) (hg : isStop g = true) :
    g ∉ word.map char := by
  intro hm
  obtain ⟨c, hc, rfl⟩ := List.mem_map.1 hm
  rw [(h.old c hc).1] at hg
  cases hg

/-- A word without a character of the word for array types does not break it. -/
theorem suffix_replaceWord (hne : word ≠ []) (hword : ∀ c ∈ word, char c ∉ arrayWord)
    (hgs : arrayWord <:+ gs) : arrayWord <:+ replaceWord word replacement gs := by
  obtain ⟨before, rfl⟩ := hgs
  obtain ⟨c, hc⟩ := List.exists_mem_of_ne_nil word hne
  have hfirst : char 'A' ∉ word.map char := fun hm => by
    obtain ⟨d, hd, he⟩ := List.mem_map.1 hm
    exact hword d hd (he ▸ List.mem_cons_self)
  have hsplit : replaceWord word replacement (before ++ arrayWord)
      = replaceWord word replacement before ++ replaceWord word replacement arrayWord :=
    replaceWord_cut hfirst before arrayWord.tail
  rw [hsplit, replaceWord_eq_self hc (hword c hc)]
  exact List.suffix_append _ _

theorem replaceWord_eq_nil_iff (hr : replacement ≠ []) :
    replaceWord word replacement gs = [] ↔ gs = [] := by
  cases gs with
  | nil => exact Iff.rfl
  | cons g rest =>
    rw [replaceWord, replaceFrom]
    split <;> simp [hr]

theorem Harmless.replacement_ne_nil (h : Harmless word replacement) : replacement ≠ [] := by
  obtain ⟨d, -, hlast⟩ := h.last
  rintro rfl
  cases hlast

theorem piecewise_replaceWord (h : Harmless word replacement) :
    Piecewise (replaceWord word replacement) where
  nil_iff := replaceWord_eq_nil_iff h.replacement_ne_nil
  cut xs g ys hg := by
    refine replaceWord_cut ?_ xs ys
    rcases hg with hl | hb
    · cases g with
      | char c => cases hl
      | literal t => simp
    · exact h.not_mem (isStop_of_isBracket hb)
  stop ys hg := replaceWord_cons h.ne_nil (h.not_mem hg) ys
  literal t ys := ⟨t, _, replaceWord_cons h.ne_nil (by simp) ys⟩
  head ys hc hhead := head?_of_replaceWord h.replacement_ne_nil (h.head _ hc) hhead
  brackets gs := filter_replaceFrom h (by simp)
  ends hgs := by
    obtain hedge | hword := hgs
    · exact .inl (hedge.replaceWord word h.last)
    · exact .inr (suffix_replaceWord h.ne_nil (fun c hc => (h.old c hc).2) hword)

/-! ### Shapes and optional keys -/

theorem piecewise_markOptional : Piecewise (replaceWord ['?', ':'] [optionalMark, ':']) :=
  piecewise_replaceWord ⟨by decide, by decide, by decide, by decide, by decide⟩

theorem piecewise_markShapes : Piecewise markShapes := by
  unfold markShapes
  simp only [replaceChar_eq]
  refine .comp ?_ (.comp ?_ (.comp ?_ ?_)) <;>
    exact piecewise_replaceWord ⟨by decide, by decide, by decide, by decide, by decide⟩

/-! ### Keys -/

theorem filter_quoteLiteralKeys (gs : List Glyph) :
    (quoteLiteralKeys gs).filter isBracket = gs.filter isBracket := by
  fun_induction quoteLiteralKeys gs with
  | case1 t rest ih => simpa [isBracket] using ih
  | case2 t g rest hg hmark ih => simpa [isBracket, hmark.1, optionalMark] using ih
  | case3 t g rest hg hmark ih => simpa [isBracket] using ih
  | case4 g rest hne ih => rw [List.filter_cons, List.filter_cons, ih]
  | case5 => rfl

theorem getLast?_cons_of_eq {z : Glyph} (x : Glyph) (h : xs.getLast? = some z) :
    (x :: xs).getLast? = some z := by
  rw [List.getLast?_cons, h]
  rfl

theorem getLast?_quoteLiteralKeys (h : gs.getLast? = some (char c)) :
    (quoteLiteralKeys gs).getLast? = some (char c) := by
  fun_induction quoteLiteralKeys gs with
  | case1 t rest ih => exact getLast?_cons_of_eq _ (ih (by simpa [List.getLast?_cons] using h))
  | case2 t g rest hg hmark ih =>
    obtain ⟨after, rfl⟩ := List.head?_eq_some_iff.1 hmark.2
    exact getLast?_cons_of_eq _ (ih (by simpa [List.getLast?_cons] using h))
  | case3 t g rest hg hmark ih =>
    exact getLast?_cons_of_eq _ (ih (by simpa [List.getLast?_cons] using h))
  | case4 g rest hne ih =>
    cases rest with
    | nil => simpa [quoteLiteralKeys] using h
    | cons k rest => exact getLast?_cons_of_eq _ (ih (by simpa [List.getLast?_cons] using h))
  | case5 => cases h

theorem quoteLiteralKeys_char (c : Char) (ys : List Glyph) :
    quoteLiteralKeys (char c :: ys) = char c :: quoteLiteralKeys ys :=
  @quoteLiteralKeys_append [char c] (by simp [isLiteral]) ys

theorem exists_quoteLiteralKeys (t : List Char) (ys : List Glyph) :
    ∃ t' ys', quoteLiteralKeys (literal t :: ys) = literal t' :: ys' := by
  cases ys with
  | nil => exact ⟨t, [], by simp [quoteLiteralKeys]⟩
  | cons g rest =>
    rw [quoteLiteralKeys]
    split
    · exact ⟨_, _, rfl⟩
    · split <;> exact ⟨_, _, rfl⟩

/-- No literal is a comma or a bracket. -/
theorem exists_char_of_isStop (h : isStop g = true) : ∃ c, g = char c := by
  cases g with
  | char c => exact ⟨c, rfl⟩
  | literal t => simp [isStop, isBracket] at h

theorem quoteLiteralKeys_eq_nil_iff : quoteLiteralKeys gs = [] ↔ gs = [] := by
  match gs with
  | [] => simp [quoteLiteralKeys]
  | char c :: rest => simp [quoteLiteralKeys_char]
  | literal t :: rest =>
    obtain ⟨t', rest', hkeys⟩ := exists_quoteLiteralKeys t rest
    simp [hkeys]

theorem piecewise_quoteLiteralKeys : Piecewise quoteLiteralKeys where
  nil_iff := quoteLiteralKeys_eq_nil_iff
  cut xs g ys hg := by
    have hstop : ∀ c, c ≠ '[' → c ≠ ']' → g ≠ char c := by
      rintro c ho hc rfl
      rcases hg with hl | hb
      · cases hl
      · simp [isBracket, ho, hc] at hb
    exact quoteLiteralKeys_cut xs (hstop _ (by decide) (by decide))
      (hstop _ (by decide) (by decide)) ys
  stop ys hg := by
    obtain ⟨c, rfl⟩ := exists_char_of_isStop hg
    exact quoteLiteralKeys_char c ys
  literal := exists_quoteLiteralKeys
  head ys hc hhead := by
    cases ys with
    | nil => cases hhead
    | cons g rest =>
      cases g with
      | char d => rwa [quoteLiteralKeys_char] at hhead
      | literal t =>
        obtain ⟨t', ys', hq⟩ := exists_quoteLiteralKeys t rest
        rw [hq] at hhead
        cases hhead
  brackets := filter_quoteLiteralKeys
  ends hgs := by
    obtain (rfl | ⟨c, hc, hlast⟩) | ⟨before, rfl⟩ := hgs
    · exact .inl (.inl (by rw [quoteLiteralKeys]))
    · exact .inl (.inr ⟨c, hc, getLast?_quoteLiteralKeys hlast⟩)
    · have hsplit := quoteLiteralKeys_cut before (g := char 'A') (by decide) (by decide)
        arrayWord.tail
      exact .inr ⟨_, (hsplit.trans (congrArg _ (quoteLiteralKeys_eq_self (by decide)))).symm⟩

theorem quoteRun_ne_nil (flag : Bool) {run : List Glyph} (h : run ≠ []) (after : List Glyph) :
    quoteRun flag run after ≠ [] := by
  rw [quoteRun]
  split
  split
  · simp
  · exact h

/-- What a run is made of, key glyphs and quotes, is neither bracket nor comma nor colon. -/
theorem ne_of_mem_quoteRun {flag : Bool} {run after : List Glyph}
    (hrun : ∀ k ∈ run, isKeyGlyph k = true) (h : g ∈ quoteRun flag run after)
    (hc : c ∈ [':', ',', '[', ']']) : g ≠ char c := by
  have hbreak : ∀ c ∈ [':', ',', '[', ']'], isKeyChar c = false ∧ c ≠ '"' := by decide
  rintro rfl
  rcases mem_quoteRun h with hm | hq
  · exact absurd ((hbreak c hc).1.symm.trans (hrun _ hm)) (by decide)
  · exact (hbreak c hc).2 (Glyph.char.inj hq)

theorem isKeyGlyph_of_isStop (h : isStop g = true) : isKeyGlyph g = false := by
  have hcases : ∀ c ∈ [',', '[', ']'], isKeyGlyph (char c) = false := by decide
  simp only [isStop, isBracket, Bool.or_eq_true, beq_iff_eq] at h
  rcases h with rfl | rfl | rfl <;> exact hcases _ (by simp)

theorem filter_quoteNameKeys (flag : Bool) (gs : List Glyph) :
    (quoteNameKeys flag gs).filter isBracket = gs.filter isBracket := by
  fun_induction quoteNameKeys flag gs with
  | case1 => rfl
  | case2 flag g rest hg after ih =>
    have hrun : ∀ k ∈ g :: rest.takeWhile isKeyGlyph, isKeyGlyph k = true :=
      List.forall_mem_cons.2 ⟨hg, fun k hk => List.mem_takeWhile_imp hk⟩
    have hnew : ∀ k ∈ quoteRun flag (g :: rest.takeWhile isKeyGlyph) after,
        isBracket k = false := fun k hk => by
      rw [isBracket, beq_eq_false_iff_ne.2 (ne_of_mem_quoteRun hrun hk (by simp)),
        beq_eq_false_iff_ne.2 (ne_of_mem_quoteRun hrun hk (by simp)), Bool.or_self]
    have hold : ∀ k ∈ g :: rest.takeWhile isKeyGlyph, isBracket k = false := fun k hk => by
      by_contra hb
      rw [Bool.not_eq_false] at hb
      exact absurd ((isKeyGlyph_of_isStop (isStop_of_isBracket hb)).symm.trans (hrun k hk))
        (by decide)
    have hrest : g :: rest = g :: rest.takeWhile isKeyGlyph ++ after := by
      rw [List.cons_append, List.takeWhile_append_dropWhile]
    have hnone : ∀ {ks : List Glyph}, (∀ k ∈ ks, isBracket k = false) → ks.filter isBracket = [] :=
      fun h => List.filter_eq_nil_iff.2 (by simpa using h)
    rw [hrest, List.filter_append, List.filter_append, ih, hnone hnew, hnone hold]
  | case3 flag g rest hg ih => rw [List.filter_cons, List.filter_cons, ih]

/-- What is part of no name is last as before. -/
theorem getLast?_quoteNameKeys (flag : Bool) (h : gs.getLast? = some g)
    (hg : isKeyGlyph g = false) : (quoteNameKeys flag gs).getLast? = some g := by
  fun_induction quoteNameKeys flag gs with
  | case1 => cases h
  | case2 flag k rest hk after ih =>
    have hafter : after.getLast? = some g := by
      have hrest : k :: rest = k :: rest.takeWhile isKeyGlyph ++ after := by
        rw [List.cons_append, List.takeWhile_append_dropWhile]
      rw [hrest, List.getLast?_append] at h
      cases hlast : after.getLast? with
      | some z => simpa [hlast] using h
      | none =>
        rw [hlast, Option.none_or] at h
        have hmem := List.mem_of_getLast? h
        have hrun : ∀ l ∈ k :: rest.takeWhile isKeyGlyph, isKeyGlyph l = true :=
          List.forall_mem_cons.2 ⟨hk, fun l hl => List.mem_takeWhile_imp hl⟩
        exact absurd (hg.symm.trans (hrun g hmem)) (by decide)
    rw [List.getLast?_append, ih hafter]
    rfl
  | case3 flag k rest hk ih =>
    cases rest with
    | nil => simpa [quoteNameKeys] using h
    | cons l rest => exact getLast?_cons_of_eq _ (ih (by simpa [List.getLast?_cons] using h))

/-- A run of key glyphs at the end stays there, without a colon behind it. -/
theorem suffix_quoteNameKeys (flag : Bool) {run : List Glyph}
    (hrun : ∀ k ∈ run, isKeyGlyph k = true) (h : run <:+ gs) : run <:+ quoteNameKeys flag gs := by
  fun_induction quoteNameKeys flag gs with
  | case1 => exact h
  | case2 flag k rest hk after ih =>
    cases hafter : after with
    | nil =>
      have hall : k :: rest.takeWhile isKeyGlyph = k :: rest := by
        rw [List.takeWhile_eq_self_iff.2 (List.dropWhile_eq_nil_iff.1 hafter)]
      rw [quoteRun_of_head (by simp), hall, quoteNameKeys, List.append_nil]
      exact h
    | cons l more =>
      have hl : isKeyGlyph l = false := by
        have hdrop := List.head?_dropWhile_not isKeyGlyph rest
        rwa [show rest.dropWhile isKeyGlyph = l :: more from hafter] at hdrop
      rw [← hafter]
      refine (ih ?_).trans (List.suffix_append _ _)
      have hsuffix : after <:+ k :: rest := (List.dropWhile_suffix _).trans (List.suffix_cons _ _)
      rcases List.suffix_or_suffix_of_suffix h hsuffix with hin | hout
      · exact hin
      · have hmem : l ∈ run := hout.subset (hafter ▸ List.mem_cons_self)
        exact absurd (hl.symm.trans (hrun l hmem)) (by decide)
  | case3 flag k rest hk ih =>
    obtain rfl | hrest := List.suffix_cons_iff.1 h
    · exact absurd (hrun k List.mem_cons_self) hk
    · exact (ih hrest).trans (List.suffix_cons _ _)

theorem quoteNameKeys_eq_nil_iff (flag : Bool) : quoteNameKeys flag gs = [] ↔ gs = [] := by
  cases gs with
  | nil => simp [quoteNameKeys]
  | cons g rest =>
    rw [quoteNameKeys]
    split
    · simp [quoteRun_ne_nil]
    · simp

theorem piecewise_quoteNameKeys : Piecewise (quoteNameKeys false) where
  nil_iff := quoteNameKeys_eq_nil_iff false
  cut xs g ys hg := by
    rcases hg with hl | hb
    · cases g with
      | char c => cases hl
      | literal t => exact quoteNameKeys_cut false xs rfl (by simp) ys
    · refine quoteNameKeys_cut false xs (isKeyGlyph_of_isStop (isStop_of_isBracket hb)) ?_ ys
      rintro rfl
      exact absurd hb (by decide)
  stop ys hg := by
    obtain ⟨c, rfl⟩ := exists_char_of_isStop hg
    exact quoteNameKeys_cons (isKeyGlyph_of_isStop hg) false ys
  literal t ys := ⟨t, _, quoteNameKeys_cons rfl false ys⟩
  head ys hc hhead := by
    cases ys with
    | nil => simp [quoteNameKeys] at hhead
    | cons g rest =>
      by_cases hg : isKeyGlyph g = true
      · rw [quoteNameKeys, if_pos hg] at hhead
        dsimp only at hhead
        have hrun : ∀ k ∈ g :: rest.takeWhile isKeyGlyph, isKeyGlyph k = true :=
          List.forall_mem_cons.2 ⟨hg, fun k hk => List.mem_takeWhile_imp hk⟩
        rw [List.head?_append_of_ne_nil _ (quoteRun_ne_nil _ (by simp) _)] at hhead
        exact absurd rfl (ne_of_mem_quoteRun hrun (List.mem_of_mem_head? hhead) hc)
      · rwa [quoteNameKeys_cons (by simpa using hg)] at hhead
  brackets := filter_quoteNameKeys false
  ends hgs := by
    have hedge : ∀ c ∈ edges, isKeyGlyph (char c) = false := by decide
    obtain (rfl | ⟨c, hc, hlast⟩) | ⟨before, rfl⟩ := hgs
    · exact .inl (.inl (by rw [quoteNameKeys]))
    · exact .inl (.inr ⟨c, hc, getLast?_quoteNameKeys false hlast (hedge c hc)⟩)
    · right
      have hword : arrayWord = arrayWord.dropLast ++ [char '<'] := by decide
      have hrun : arrayWord.dropLast <:+ quoteNameKeys false (before ++ arrayWord.dropLast) :=
        suffix_quoteNameKeys false (by decide) (List.suffix_append before _)
      obtain ⟨front, hfront⟩ := hrun
      have hlast : quoteNameKeys false [char '<'] = [char '<'] :=
        quoteNameKeys_eq_self (by decide) false
      rw [hword, ← List.append_assoc, quoteNameKeys_cut false _ (by decide) (by decide), ← hfront,
        hlast, List.append_assoc]
      exact List.suffix_append _ _

theorem piecewise_quoteKeys : Piecewise quoteKeys :=
  piecewise_quoteNameKeys.comp (piecewise_quoteLiteralKeys.comp piecewise_markOptional)

theorem piecewise_shaped : Piecewise fun gs => markShapes (quoteKeys gs) :=
  piecewise_markShapes.comp piecewise_quoteKeys

end StructuralTypes.MarkerForm

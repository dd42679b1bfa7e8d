import StructuralTypes.Proofs.Colons
import StructuralTypes.Proofs.Piecewise

/-! Literals that stand alone are names by themselves. Up to the brackets of indexers the passes
work piece by piece, so what is beside a literal stays beside it; and the brackets that are
dropped are not beside it. In the tokens of the annotation the literal is one name, followed by
a colon or not as it is in the source. -/

namespace StructuralTypes.MarkerForm

open Glyph

variable {gs xs ys front back : List Glyph} {g : Glyph} {c : Char}
  {P : List Glyph → List Glyph}

/-! ### Places -/

theorem closesAsIndexer_iff : closesAsIndexer gs = true ↔
    gs.takeWhile (!isBracket ·) ≠ [] ∧ EndsIndexer gs := by
  simp [closesAsIndexer, EndsIndexer]

theorem endsIndexer_cons (h : isBracket g = false) : EndsIndexer (g :: gs) ↔ EndsIndexer gs := by
  rw [EndsIndexer, EndsIndexer, List.dropWhile_cons_of_pos (by simp [h])]

theorem not_endsIndexer_open : ¬ EndsIndexer (char '[' :: gs) := by
  rw [EndsIndexer, List.dropWhile_cons_of_neg (by decide)]
  simp

theorem endsIndexer_close : EndsIndexer (char ']' :: gs) ↔ gs.head? = some (char ':') := by
  rw [EndsIndexer, List.dropWhile_cons_of_neg (by decide)]
  cases gs <;> simp [eq_comm]

theorem Piecewise.isBracket_eq_false (hP : Piecewise P) (h : ∀ g ∈ gs, isBracket g = false) :
    ∀ g ∈ P gs, isBracket g = false := by
  have hnone : (P gs).filter isBracket = [] := by
    rw [hP.brackets]
    exact List.filter_eq_nil_iff.2 (by simpa using h)
  simpa using List.filter_eq_nil_iff.1 hnone

/-- A pass that works piece by piece goes on from the first bracket. -/
theorem Piecewise.dropWhile_eq (hP : Piecewise P) (gs : List Glyph) :
    (P gs).dropWhile (!isBracket ·) = P (gs.dropWhile (!isBracket ·)) := by
  have hplain : ∀ k ∈ P (gs.takeWhile (!isBracket ·)), (!isBracket k) = true := fun k hk => by
    rw [hP.isBracket_eq_false (fun g hg => by simpa using List.mem_takeWhile_imp hg) k hk]
    rfl
  have hgs := List.takeWhile_append_dropWhile (p := (!isBracket ·)) (l := gs)
  cases hdrop : gs.dropWhile (!isBracket ·) with
  | nil =>
    rw [hdrop, List.append_nil] at hgs
    rw [hP.nil, ← hgs]
    exact List.dropWhile_eq_nil_iff.2 hplain
  | cons b rest =>
    have hb : isBracket b = true := by
      have hhead := List.head?_dropWhile_not (!isBracket ·) gs
      rw [hdrop] at hhead
      simpa using hhead
    rw [hdrop] at hgs
    rw [← hgs, hP.cut _ _ (.inr hb), List.dropWhile_append_of_pos hplain,
      hP.stop rest (isStop_of_isBracket hb), List.dropWhile_cons_of_neg (by simp [hb])]

theorem Piecewise.endsIndexer (hP : Piecewise P) (h : EndsIndexer (P gs)) : EndsIndexer gs := by
  rw [EndsIndexer, hP.dropWhile_eq] at h
  rw [EndsIndexer]
  generalize gs.dropWhile (!isBracket ·) = rest at h ⊢
  obtain ⟨after, hafter⟩ := h
  obtain ⟨rest, rfl⟩ := List.head?_eq_some_iff.1
    (hP.head (c := ']') rest (by decide) (by rw [← hafter]; rfl))
  rw [hP.stop rest rfl] at hafter
  obtain ⟨rest, rfl⟩ := List.head?_eq_some_iff.1
    (hP.head (c := ':') rest (by decide) (by rw [← (List.cons.inj hafter).2]; rfl))
  exact ⟨rest, rfl⟩

theorem Piecewise.closesAsIndexer (hP : Piecewise P) (h : closesAsIndexer (P gs) = true) :
    MarkerForm.closesAsIndexer gs = true := by
  rw [closesAsIndexer_iff] at h ⊢
  refine ⟨fun hnil => h.1 ?_, hP.endsIndexer h.2⟩
  cases gs with
  | nil => rw [hP.nil, List.takeWhile_nil]
  | cons g rest =>
    have hg : isBracket g = true := by
      by_contra hb
      rw [List.takeWhile_cons_of_pos (by simpa using hb)] at hnil
      cases hnil
    rw [hP.stop rest (isStop_of_isBracket hg), List.takeWhile_cons_of_neg (by simp [hg])]

/-- What a pass that works on either side of a glyph leaves at the end was there before. -/
theorem getLast?_of_cut (hcut : ∀ xs ys, P (xs ++ g :: ys) = P xs ++ g :: P ys)
    (hmem : ∀ {ys}, g ∈ P ys → g ∈ ys) (hnil : ∀ {ys}, P ys = [] → ys = [])
    (h : (P gs).getLast? = some g) : gs.getLast? = some g := by
  -- behind the last such glyph the pass leaves none
  obtain ⟨behind, before, hsplit, hnone⟩ :=
    List.eq_append_cons_of_mem (List.mem_reverse.2 (hmem (List.mem_of_getLast? h)))
  have hgs : gs = before.reverse ++ g :: behind.reverse := by
    rw [← gs.reverse_reverse, hsplit]
    simp
  rw [hgs, hcut, List.getLast?_append, List.getLast?_cons] at h
  cases hlast : (P behind.reverse).getLast? with
  | some z =>
    obtain rfl : z = g := by simpa [hlast] using h
    exact absurd (List.mem_reverse.1 (hmem (List.mem_of_getLast? hlast))) hnone
  | none =>
    rw [hgs, hnil (List.getLast?_eq_none_iff.1 hlast), List.getLast?_concat]

/-- A bracket at the end was there before. -/
theorem Piecewise.getLast?_bracket (hP : Piecewise P) (hg : isBracket g = true)
    (h : (P gs).getLast? = some g) : gs.getLast? = some g := by
  refine getLast?_of_cut (fun xs ys => ?_) (fun {ys} hys => ?_) hP.nil_iff.1 h
  · rw [hP.cut _ _ (.inr hg), hP.stop _ (isStop_of_isBracket hg)]
  · have hfilter := List.mem_filter.2 ⟨hys, hg⟩
    rw [hP.brackets] at hfilter
    exact (List.mem_filter.1 hfilter).1

/-- A pass that leaves what is skipped in its place brings no colon behind it. -/
theorem head?_dropWhile {skip : Glyph → Bool} (hnil : P [] = [])
    (hskip : ∀ g ys, skip g = true → P (g :: ys) = g :: P ys)
    (hhead : ∀ z ys, z = char ':' ∨ skip z = true → (P ys).head? = some z → ys.head? = some z)
    (h : ((P gs).dropWhile skip).head? = some (char ':')) :
    (gs.dropWhile skip).head? = some (char ':') := by
  induction gs with
  | nil => rwa [hnil] at h
  | cons g rest ih =>
    by_cases hg : skip g = true
    · rw [hskip g rest hg, List.dropWhile_cons_of_pos hg] at h
      rw [List.dropWhile_cons_of_pos hg]
      exact ih h
    · rw [List.dropWhile_cons_of_neg hg]
      cases hp : P (g :: rest) with
      | nil =>
        rw [hp] at h
        cases h
      | cons z zs =>
        have hz : ¬ skip z = true := fun hz => by
          have hgz : some g = some z := hhead z (g :: rest) (.inr hz) (by rw [hp]; rfl)
          exact hg (Option.some.inj hgz ▸ hz)
        rw [hp, List.dropWhile_cons_of_neg hz] at h
        exact hhead _ _ (.inl rfl) (by rw [hp]; exact h)

theorem isStop_iff : isStop g = true ↔ ∃ c ∈ [',', '[', ']'], g = char c := by
  simp [isStop, isBracket]

theorem Piecewise.colonBehind (hP : Piecewise P) (h : ColonBehind (P gs)) : ColonBehind gs := by
  refine head?_dropWhile hP.nil (fun g ys hg => hP.stop ys hg) ?_ h
  intro z ys hz hhead
  rcases hz with rfl | hz
  · exact hP.head ys (by simp) hhead
  · obtain ⟨c, hc, rfl⟩ := isStop_iff.1 hz
    exact hP.head ys (List.mem_cons_of_mem _ hc) hhead

/-! ### Beginnings and ends -/

theorem separators_subset : separators ⊆ edges := fun _ => List.mem_append_left _

theorem EndsApart.ends (h : EndsApart gs) : Ends gs := by
  obtain hnil | ⟨c, hc, hlast⟩ | hword := h
  · exact .inl (.inl hnil)
  · exact .inl (.inr ⟨c, separators_subset hc, hlast⟩)
  · exact .inr hword

/-- A pass that works piece by piece leaves what is before the bracket of an indexer apart. -/
theorem Piecewise.ends_dropLast (hP : Piecewise P)
    (hfront : OpensIndexer front back → EndsApart front.dropLast)
    (h : OpensIndexer (P front) (P back)) : Ends (P front).dropLast := by
  have hlast := hP.getLast?_bracket (by decide) h.1
  obtain ⟨before, rfl⟩ := List.getLast?_eq_some_iff.1 hlast
  have hbefore := hfront ⟨hlast, hP.endsIndexer h.2⟩
  rw [List.dropLast_concat] at hbefore
  rw [hP.cut before [] (.inr rfl), hP.stop [] rfl, hP.nil, List.dropLast_concat]
  exact hP.ends hbefore.ends

theorem BeginsApart.beginsAtEdge (h : BeginsApart gs) : BeginsAtEdge gs := by
  obtain hnil | ⟨⟨c, hc, hhead⟩, -⟩ := h
  · exact .inl hnil
  · exact .inr ⟨c, separators_subset hc, hhead⟩

theorem isKeyGlyph_of_edge (hc : c ∈ edges) : isKeyGlyph (char c) = false := by
  have hplain : ∀ c ∈ edges, isKeyGlyph (char c) = false := by decide
  exact hplain c hc

theorem BeginsAtEdge.quoteLiteralKeys (h : BeginsAtEdge gs) :
    BeginsAtEdge (quoteLiteralKeys gs) := by
  obtain rfl | ⟨c, hc, hhead⟩ := h
  · exact .inl piecewise_quoteLiteralKeys.nil
  · obtain ⟨rest, rfl⟩ := List.head?_eq_some_iff.1 hhead
    rw [quoteLiteralKeys_char]
    exact .inr ⟨c, hc, rfl⟩

theorem BeginsAtEdge.quoteNameKeys (h : BeginsAtEdge gs) :
    BeginsAtEdge (quoteNameKeys false gs) := by
  obtain rfl | ⟨c, hc, hhead⟩ := h
  · exact .inl piecewise_quoteNameKeys.nil
  · obtain ⟨rest, rfl⟩ := List.head?_eq_some_iff.1 hhead
    rw [quoteNameKeys_cons (isKeyGlyph_of_edge hc)]
    exact .inr ⟨c, hc, rfl⟩

theorem BeginsAtEdge.markShapes (h : BeginsAtEdge gs) : BeginsAtEdge (markShapes gs) := by
  unfold MarkerForm.markShapes
  simp only [replaceChar_eq]
  exact (((h.replaceWord (.inl (by decide))).replaceWord (.inl (by decide))).replaceWord
    (.inl (by decide))).replaceWord (.inl (by decide))

/-! ### Indexers -/

/-- An indexer that is open at a place ends behind it. -/
theorem unwrapIndexers_cut (inside : Bool) (front back : List Glyph)
    (h : inside = true → EndsIndexer (front ++ back)) :
    ∃ kept inside', unwrapIndexers inside (front ++ back) = kept ++ unwrapIndexers inside' back
      ∧ (inside' = true → EndsIndexer back) := by
  induction front generalizing inside with
  | nil => exact ⟨[], inside, rfl, h⟩
  | cons g rest ih =>
    rw [List.cons_append] at h ⊢
    rw [unwrapIndexers]
    split
    · rename_i hopen
      exact ih true fun _ => (closesAsIndexer_iff.1 hopen.2).2
    · split
      · exact ih false (by simp)
      · rename_i hopen hclose
        -- a bracket that is kept is outside of indexers
        have hrest : inside = true → EndsIndexer (rest ++ back) := fun hi => by
          have hg : isBracket g = false := by
            by_contra hb
            simp only [isBracket, Bool.not_eq_false, Bool.or_eq_true, beq_iff_eq] at hb
            rcases hb with rfl | rfl
            · exact not_endsIndexer_open (h hi)
            · exact hclose ⟨hi, rfl⟩
          exact (endsIndexer_cons hg).1 (h hi)
        obtain ⟨kept, inside', hrun, hinside⟩ := ih inside hrest
        exact ⟨g :: kept, inside', by rw [hrun]; rfl, hinside⟩

theorem endsIndexer_append (h : ∀ g ∈ xs, isBracket g = false) :
    EndsIndexer (xs ++ ys) ↔ EndsIndexer ys := by
  rw [EndsIndexer, EndsIndexer, List.dropWhile_append_of_pos fun g hg => by simp [h g hg]]

/-- What ends a text stays at its end, if there is no bracket in it. -/
theorem unwrapIndexers_plain (hys : ∀ g ∈ ys, isBracket g = false) (xs back : List Glyph) :
    ∃ kept inside, (inside = true → EndsIndexer back)
      ∧ unwrapIndexers false (xs ++ ys ++ back) = kept ++ ys ++ unwrapIndexers inside back := by
  obtain ⟨kept, inside, hrun, hinside⟩ := unwrapIndexers_cut false xs (ys ++ back) (by simp)
  refine ⟨kept, inside, fun hi => (endsIndexer_append hys).1 (hinside hi), ?_⟩
  rw [List.append_assoc, hrun, unwrapIndexers_append hys, List.append_assoc]

section Literal

variable {t : List Char}

theorem endsIndexer_literal : EndsIndexer (literal t :: gs) ↔ EndsIndexer gs :=
  endsIndexer_cons rfl

theorem unwrapIndexers_cons_literal (inside : Bool) (gs : List Glyph) :
    unwrapIndexers inside (literal t :: gs) = literal t :: unwrapIndexers inside gs :=
  @unwrapIndexers_append [literal t] (by simp [isBracket]) inside gs

/-- What ends a text stays at its end, unless it is the bracket of an indexer. -/
theorem unwrapIndexers_ends (hfront : Ends front)
    (hopen : ¬ (front.getLast? = some (char '[') ∧ closesAsIndexer back = true))
    (hclose : ¬ (front.getLast? = some (char ']') ∧ back.head? = some (char ':'))) :
    ∃ front' inside, Ends front' ∧ (inside = true → EndsIndexer back)
      ∧ unwrapIndexers false (front ++ back) = front' ++ unwrapIndexers inside back := by
  obtain (rfl | ⟨c, hc, hlast⟩) | ⟨before, rfl⟩ := hfront
  · exact ⟨[], false, .inl (.inl rfl), by simp, rfl⟩
  · obtain ⟨before, rfl⟩ := List.getLast?_eq_some_iff.1 hlast
    have hkept : ∀ kept : List Glyph, Ends (kept ++ [char c]) :=
      fun kept => .inl (.inr ⟨c, hc, List.getLast?_concat⟩)
    by_cases hg : isBracket (char c) = true
    · obtain ⟨kept, inside, hrun, hinside⟩ :=
        unwrapIndexers_cut false before (char c :: back) (by simp)
      rw [List.getLast?_concat, Option.some_inj] at hopen hclose
      -- no indexer is open at a bracket that ends none
      obtain rfl : inside = false := by
        by_contra hi
        have hends := hinside (by simpa using hi)
        simp only [isBracket, Bool.or_eq_true, beq_iff_eq] at hg
        rcases hg with hg | hg <;> rw [hg] at hends hclose
        · exact not_endsIndexer_open hends
        · exact hclose ⟨rfl, endsIndexer_close.1 hends⟩
      refine ⟨_, false, hkept kept, by simp, ?_⟩
      rw [List.append_assoc, List.singleton_append, hrun, unwrapIndexers, if_neg hopen,
        if_neg (by simp), List.append_assoc, List.singleton_append]
    · obtain ⟨kept, inside, hinside, hrun⟩ :=
        @unwrapIndexers_plain [char c] (by simpa using hg) before back
      exact ⟨_, inside, hkept kept, hinside, hrun⟩
  · obtain ⟨kept, inside, hinside, hrun⟩ := @unwrapIndexers_plain arrayWord (by decide) before back
    exact ⟨_, inside, .inr (List.suffix_append _ _), hinside, hrun⟩

/-- What ends right before a literal still does. Where an indexer opens there, it is what is
before the bracket. -/
theorem unwrapIndexers_literal (hfront : Ends front)
    (hbracket : OpensIndexer front back → Ends front.dropLast) :
    ∃ front' inside, Ends front' ∧ (inside = true → EndsIndexer back)
      ∧ unwrapIndexers false (front ++ literal t :: back)
        = front' ++ literal t :: unwrapIndexers inside back := by
  have hcloses : closesAsIndexer (literal t :: back) = true ↔ EndsIndexer back := by
    rw [closesAsIndexer_iff, endsIndexer_literal, List.takeWhile_cons_of_pos rfl]
    simp
  by_cases hopens : OpensIndexer front back
  · obtain ⟨before, rfl⟩ := List.getLast?_eq_some_iff.1 hopens.1
    have hbefore := hbracket hopens
    rw [List.dropLast_concat] at hbefore
    obtain ⟨front', inside, hends, hinside, hrun⟩ :=
      @unwrapIndexers_ends before (char '[' :: literal t :: back) hbefore
        (by simp [MarkerForm.closesAsIndexer, isBracket]) (by simp)
    obtain rfl : inside = false := by
      by_contra hi
      exact not_endsIndexer_open (hinside (by simpa using hi))
    refine ⟨front', true, hends, fun _ => hopens.2, ?_⟩
    rw [List.append_assoc, List.singleton_append, hrun, unwrapIndexers,
      if_pos ⟨rfl, hcloses.2 hopens.2⟩, unwrapIndexers_cons_literal]
  · obtain ⟨front', inside, hends, hinside, hrun⟩ :=
      @unwrapIndexers_ends front (literal t :: back) hfront
        (fun h => hopens ⟨h.1, hcloses.1 h.2⟩) (by simp)
    refine ⟨front', inside, hends, fun hi => endsIndexer_literal.1 (hinside hi), ?_⟩
    rw [hrun, unwrapIndexers_cons_literal]

end Literal

/-- Without the brackets of indexers what comes next besides brackets is the same. -/
theorem colonBehind_unwrapIndexers (inside : Bool) :
    ColonBehind (unwrapIndexers inside gs) ↔ ColonBehind gs := by
  have hopen : ∀ rest, ColonBehind (char '[' :: rest) ↔ ColonBehind rest := fun rest => by
    rw [ColonBehind, List.dropWhile_cons_of_pos (by decide), ColonBehind]
  have hclose : ∀ rest, ColonBehind (char ']' :: rest) ↔ ColonBehind rest := fun rest => by
    rw [ColonBehind, List.dropWhile_cons_of_pos (by decide), ColonBehind]
  induction gs generalizing inside with
  | nil => rw [unwrapIndexers]
  | cons g rest ih =>
    rw [unwrapIndexers]
    split
    · rename_i h
      rw [h.1]
      exact (ih true).trans (hopen rest).symm
    · split
      · rename_i h
        rw [h.2]
        exact (ih false).trans (hclose rest).symm
      · by_cases hg : isStop g = true
        · rw [ColonBehind, ColonBehind, List.dropWhile_cons_of_pos hg,
            List.dropWhile_cons_of_pos hg]
          exact ih inside
        · rw [ColonBehind, ColonBehind, List.dropWhile_cons_of_neg hg,
            List.dropWhile_cons_of_neg hg]
          rfl

theorem beginsAtEdge_unwrapIndexers {inside : Bool} (h : BeginsAtEdge gs)
    (hopen : ¬ (gs.head? = some (char '[') ∧ closesAsIndexer gs.tail = true))
    (hclose : ¬ (inside = true ∧ gs.head? = some (char ']'))) :
    BeginsAtEdge (unwrapIndexers inside gs) := by
  obtain rfl | ⟨c, hc, hhead⟩ := h
  · exact .inl rfl
  · obtain ⟨rest, rfl⟩ := List.head?_eq_some_iff.1 hhead
    refine .inr ⟨c, hc, ?_⟩
    rw [unwrapIndexers, if_neg fun hb => hopen ⟨by rw [hb.1]; rfl, hb.2⟩,
      if_neg fun hb => hclose ⟨hb.1, by rw [hb.2]; rfl⟩]
    rfl

/-! ### Sequences -/

theorem endsAtEdge_markSequences (h : Ends gs) : EndsAtEdge (markSequences gs) := by
  have hsuffixes : Ends (replaceWord ['[', ']'] ['$'] gs) := by
    obtain hedge | hword := h
    · exact .inl (hedge.replaceWord _ (by decide))
    · exact .inr (suffix_replaceWord (by decide) (by decide) hword)
  have harrays : EndsAtEdge
      (replaceWord "Array<".toList ['~', '('] (replaceWord ['[', ']'] ['$'] gs)) := by
    obtain hedge | ⟨before, hword⟩ := hsuffixes
    · exact hedge.replaceWord _ (by decide)
    · rw [← hword, replaceWord_append (by
        rintro x - y hy
        exact .inr (by cases hy; decide))]
      refine .inr ⟨'(', by decide, ?_⟩
      rw [List.getLast?_append]
      rfl
  unfold markSequences
  simp only [replaceChar_eq]
  exact ((harrays.replaceWord _ (by decide)).replaceWord _ (by decide)).replaceWord _ (by decide)

theorem beginsAtEdge_markSequences (h : BeginsAtEdge gs) : BeginsAtEdge (markSequences gs) := by
  unfold markSequences
  simp only [replaceChar_eq]
  exact ((((h.replaceWord (.inl (by decide))).replaceWord (.inl (by decide))).replaceWord
    (.inl (by decide))).replaceWord (.inl (by decide))).replaceWord (.inl (by decide))

theorem markSequences_context (xs ys : List Glyph) (t : List Char) :
    markSequences (xs ++ literal t :: ys)
      = markSequences xs ++ literal t :: markSequences ys := by
  unfold markSequences
  simp only [replaceChar_eq]
  rw [replaceWord_context (by decide), replaceWord_context (by decide),
    replaceWord_context (by decide), replaceWord_context (by decide),
    replaceWord_context (by decide)]

/-- A word without commas that is put in brings no colon behind commas. -/
theorem head?_dropWhile_replaceWord {word replacement : List Char} (hne : word ≠ [])
    (hword : ',' ∉ word) (hr : replacement ≠ [])
    (hhead : ∀ c ∈ [':', ','], replacement.head? ≠ some c)
    (h : ((replaceWord word replacement gs).dropWhile (· == char ',')).head? = some (char ':')) :
    (gs.dropWhile (· == char ',')).head? = some (char ':') := by
  refine head?_dropWhile rfl (fun g ys hg => ?_) (fun z ys hz hput => ?_) h
  · rw [beq_iff_eq] at hg
    exact replaceWord_cons hne (by simpa [hg] using hword) ys
  · rw [beq_iff_eq] at hz
    rcases hz with rfl | rfl
    · exact head?_of_replaceWord hr (hhead _ (by decide)) hput
    · exact head?_of_replaceWord hr (hhead _ (by decide)) hput

theorem colonBehind_of_commas
    (h : (gs.dropWhile (· == char ',')).head? = some (char ':')) : ColonBehind gs := by
  induction gs with
  | nil => cases h
  | cons g rest ih =>
    by_cases hg : g = char ','
    · rw [hg, List.dropWhile_cons_of_pos (by simp)] at h
      rw [hg, ColonBehind, List.dropWhile_cons_of_pos (by decide)]
      exact ih h
    · rw [List.dropWhile_cons_of_neg (by simpa using hg)] at h
      obtain rfl := Option.some.inj h
      rfl

/-- Behind commas there is no colon in the end that was not there before. -/
theorem colonBehind_of_markSequences
    (h : ((markSequences gs).dropWhile (· == char ',')).head? = some (char ':')) :
    ColonBehind gs := by
  unfold markSequences at h
  simp only [replaceChar_eq] at h
  iterate 5
    replace h := head?_dropWhile_replaceWord (by decide) (by decide) (by decide) (by decide) h
  exact colonBehind_of_commas h

end StructuralTypes.MarkerForm

/-! ### Tokens -/

namespace StructuralTypes.Token

open Glyph MarkerForm

variable {xs ys : List Glyph} {c : Char} {kind : TokenKind}

/-- Punctuation is a token by itself. -/
theorem ofGlyphs_cut (hc : punctuation? c = some kind) (xs ys : List Glyph) :
    ofGlyphs (xs ++ char c :: ys) = ofGlyphs xs ++ ⟨kind, c.toString⟩ :: ofGlyphs ys := by
  have hkind : kind ≠ .name := fun hk => punctuation?_ne_name c (hk ▸ hc)
  induction xs with
  | nil => simp only [List.nil_append, ofGlyphs, hc]
  | cons g rest ih =>
    by_cases hg : ∀ d, g = char d → punctuation? d = none
    · rw [List.cons_append, ofGlyphs_cons hg, ofGlyphs_cons hg, ih]
      cases ofGlyphs rest with
      | nil => exact prependName_of_ne hkind _ _ _
      | cons t ts => exact prependName_append _ t ts _
    · simp only [not_forall] at hg
      obtain ⟨d, rfl, hd⟩ := hg
      obtain ⟨kind', hkind'⟩ := Option.ne_none_iff_exists'.1 hd
      simp only [List.cons_append, ofGlyphs, hkind', ih]

/-- What punctuation there is of the edges of the source. -/
theorem exists_punctuation {form : List Glyph} (hc : c ∈ edges) (hm : char c ∈ form)
    (hgone : ∀ c ∈ dropped, char c ∉ form) : ∃ kind, punctuation? c = some kind := by
  have hedges : ∀ c ∈ edges, c ∈ dropped ∨ (punctuation? c).isSome = true := by decide
  exact Option.isSome_iff_exists.1 ((hedges c hc).resolve_left fun hd => hgone c hd hm)

/-- A literal between two edges is one name. -/
theorem ofGlyphs_literal {t : List Char} (hgone : ∀ c ∈ dropped, char c ∉ xs ++ literal t :: ys)
    (hx : EndsAtEdge xs) (hy : BeginsAtEdge ys) :
    ofGlyphs (xs ++ literal t :: ys)
      = ofGlyphs xs ++ ⟨.name, String.ofList t⟩ :: ofGlyphs ys := by
  have hname : ofGlyphs (literal t :: ys) = ⟨.name, String.ofList t⟩ :: ofGlyphs ys := by
    have hrun := @ofGlyphs_append [literal t] ys (by simp) (by simp) fun g hg => ?_
    · simpa [textOf, Glyph.chars] using hrun
    · obtain rfl | ⟨c, hc, hhead⟩ := hy
      · cases hg
      · obtain ⟨rest, rfl⟩ := List.head?_eq_some_iff.1 hhead
        obtain ⟨kind, hkind⟩ := exists_punctuation hc (by simp) hgone
        exact ⟨c, kind, (Option.some.inj hg).symm, hkind⟩
  obtain rfl | ⟨c, hc, hlast⟩ := hx
  · exact hname
  · obtain ⟨before, rfl⟩ := List.getLast?_eq_some_iff.1 hlast
    obtain ⟨kind, hkind⟩ := exists_punctuation hc (by simp) hgone
    rw [List.append_assoc, List.singleton_append, ofGlyphs_cut hkind, hname,
      ofGlyphs_cut hkind, ofGlyphs, List.append_assoc]
    rfl

/-- The next token besides commas is a colon just when the next glyph is. -/
theorem colonNext_ofGlyphs (gs : List Glyph) :
    Item.colonNext ((ofGlyphs gs).map Item.ofToken) = true ↔
      (gs.dropWhile (· == char ',')).head? = some (char ':') := by
  have hname : ∀ text tokens,
      Item.colonNext ((prependName text tokens).map Item.ofToken) = false := by
    intro text tokens
    obtain ⟨after, r, hname⟩ := exists_prependName tokens
    rw [hname]
    exact (Item.isPlain_of_isToken rfl).colonNext_eq _
  induction gs with
  | nil => decide
  | cons g rest ih =>
    by_cases hg : ∀ d, g = char d → punctuation? d = none
    · have hcolon : g ≠ char ':' := fun h => absurd (hg _ h) (by decide)
      have hcomma : g ≠ char ',' := fun h => absurd (hg _ h) (by decide)
      have hstop : (g :: rest).dropWhile (· == char ',') = g :: rest :=
        List.dropWhile_cons_of_neg (by simpa using hcomma)
      rw [ofGlyphs_cons hg, hname, hstop]
      simpa using hcolon
    · simp only [not_forall] at hg
      obtain ⟨d, rfl, hd⟩ := hg
      obtain ⟨kind, hkind⟩ := Option.ne_none_iff_exists'.1 hd
      have hitem : Item.ofToken ⟨kind, d.toString⟩ = .token ⟨kind, d.toString⟩ :=
        if_neg fun hk : kind = .name => punctuation?_ne_name d (hk ▸ hkind)
      simp only [ofGlyphs, hkind, List.map_cons, hitem]
      by_cases hcomma : d = ','
      · obtain rfl : kind = .comma := by
          rw [hcomma] at hkind
          exact (Option.some.inj hkind).symm
        rw [hcomma, Item.colonNext_comma rfl, List.dropWhile_cons_of_pos (by simp)]
        exact ih
      · have hkinds : kind ≠ .comma ∧ (kind = .colon ↔ d = ':') := by
          unfold punctuation? at hkind
          split at hkind <;> cases hkind <;> simp_all
        rw [Item.colonNext_cons (by simpa [Item.isKind] using hkinds.1),
          List.dropWhile_cons_of_neg (by simpa using hcomma)]
        simpa [Item.isKind] using hkinds.2

end StructuralTypes.Token

namespace StructuralTypes.MarkerForm

open Glyph

/-! ### Places in the source -/

section Source

variable {text : String} {tokens : List Token} {front back : List Glyph} {t : List Char}
  {optional : Bool}

/-- A literal alone in its place, keys and shapes respelled, is one name of the annotation. -/
theorem scan_literal (hscan : Token.scan text = .ok tokens)
    (hshaped : markShapes (quoteKeys (squeeze (ofChars text.toList))) = front ++ literal t :: back)
    (hfront : Ends front) (hbracket : OpensIndexer front back → Ends front.dropLast)
    (hback : ∀ inside, (inside = true → EndsIndexer back) →
      BeginsAtEdge (unwrapIndexers inside back)) :
    ∃ before after inside, tokens = before ++ ⟨.name, String.ofList t⟩ :: after
      ∧ (Item.colonNext (after.map Item.ofToken) = true ↔
        ((markSequences (unwrapIndexers inside back)).dropWhile (· == char ',')).head?
          = some (char ':')) := by
  obtain ⟨form, hform, htokens⟩ := Outcome.ok_of_bind hscan
  cases htokens
  have hgone : ∀ c ∈ dropped, char c ∉ form := fun c hc => not_mem_form hc hform
  obtain ⟨front', inside, hends, hinside, hrun⟩ := unwrapIndexers_literal hfront hbracket
  obtain ⟨-, rfl⟩ := ofText_eq_ok hform
  rw [hshaped, hrun, markSequences_context] at hgone ⊢
  rw [Token.ofGlyphs_literal hgone (endsAtEdge_markSequences hends)
    (beginsAtEdge_markSequences (hback inside hinside))]
  exact ⟨_, _, inside, rfl, Token.colonNext_ofGlyphs _⟩

theorem markShapes_cons {g : Glyph} (h : ∀ c ∈ ['\x7b', '|', '\x7d'], g ≠ char c)
    (ys : List Glyph) : markShapes (g :: ys) = g :: markShapes ys := by
  have hword : ∀ {word : List Char}, word ⊆ ['\x7b', '|', '\x7d'] → g ∉ word.map char := by
    intro word hword hm
    obtain ⟨c, hc, rfl⟩ := List.mem_map.1 hm
    exact h c (hword hc) rfl
  unfold markShapes
  simp only [replaceChar_eq]
  rw [replaceWord_cons (by decide) (hword (by decide)),
    replaceWord_cons (by decide) (hword (by decide)),
    replaceWord_cons (by decide) (hword (by decide)),
    replaceWord_cons (by decide) (hword (by decide))]

/-- A colon is no end of an optional key by itself. -/
theorem quoteKeys_colon (ys : List Glyph) : quoteKeys (char ':' :: ys)
    = char ':' :: quoteNameKeys false (quoteLiteralKeys
        (replaceWord ['?', ':'] [optionalMark, ':'] ys)) := by
  rw [quoteKeys, replaceWord, replaceFrom, if_neg (by simp [List.isPrefixOf]),
    quoteLiteralKeys_char, quoteNameKeys_cons (by decide)]
  rfl

/-- A literal before the end of a key is respelled with the mark that it has. -/
theorem shaped_key (optional : Bool) (ys : List Glyph) :
    markShapes (quoteKeys (literal t :: ((keyEnd optional).map char ++ ys)))
      = literal (keyOfLiteral t optional) :: markShapes (quoteKeys (char ':' :: ys)) := by
  have hkeys : quoteKeys (literal t :: ((keyEnd optional).map char ++ ys))
      = literal (keyOfLiteral t optional) :: quoteKeys (char ':' :: ys) := by
    rw [quoteKeys, replaceWord_cons (by decide) (by simp), quoteKeys_colon]
    cases optional with
    | false =>
      have hmark : replaceWord ['?', ':'] [optionalMark, ':'] ((keyEnd false).map char ++ ys)
          = char ':' :: replaceWord ['?', ':'] [optionalMark, ':'] ys := by
        rw [replaceWord, keyEnd, if_neg (by decide), List.map_singleton, List.singleton_append,
          replaceFrom, if_neg (by simp [List.isPrefixOf])]
        rfl
      rw [hmark, quoteLiteralKeys_key, quoteNameKeys_cons rfl, quoteNameKeys_cons (by decide)]
      rfl
    | true =>
      have hmark : replaceWord ['?', ':'] [optionalMark, ':'] ((keyEnd true).map char ++ ys)
          = char optionalMark :: char ':' :: replaceWord ['?', ':'] [optionalMark, ':'] ys := by
        simp only [keyEnd, if_true, List.map_cons, List.map_nil, List.cons_append,
          List.nil_append]
        rw [replaceWord, replaceFrom, if_pos (by simp [List.isPrefixOf])]
        rfl
      rw [hmark, quoteLiteralKeys_markedKey, quoteNameKeys_cons rfl,
        quoteNameKeys_cons (by decide)]
      rfl
  rw [hkeys, markShapes_cons (by simp)]

/-- A literal that is no key stays as it is. -/
theorem shaped_type (hback : BeginsAtEdge back) (hkey : ¬ BeginsKeyEnd back) :
    markShapes (quoteKeys (literal t :: back)) = literal t :: markShapes (quoteKeys back) := by
  have hmarked : BeginsAtEdge (replaceWord ['?', ':'] [optionalMark, ':'] back) :=
    hback.replaceWord (.inr fun h => hkey (beginsKeyEnd_iff.2 (.inr (.inl h))))
  have hnames : ∀ {ys : List Glyph}, BeginsAtEdge ys → ∀ g ∈ ys.head?, isKeyGlyph g = false := by
    rintro ys (rfl | ⟨c, hc, hhead⟩) g hg
    · cases hg
    · obtain rfl : char c = g := Option.some.inj (hhead.symm.trans hg)
      exact isKeyGlyph_of_edge hc
  have hkeys : quoteKeys (literal t :: back) = literal t :: quoteKeys back := by
    rw [quoteKeys, quoteKeys, replaceWord_cons (by decide) (by simp),
      quoteLiteralKeys_next t fun h => hkey (beginsKeyEnd_of_markOptional h),
      quoteNameKeys_cons rfl, quoteNameKeys_flag (hnames hmarked.quoteLiteralKeys) _ false]
  rw [hkeys, markShapes_cons (by simp)]

/-- A literal that stands as a key by itself is one name, respelled, before a colon. -/
theorem scan_keyPlace (hscan : Token.scan text = .ok tokens)
    (hsource : squeeze (ofChars text.toList) = front ++ literal t :: back)
    (hplace : IsKeyPlace optional front back) :
    ∃ before after, tokens = before ++ ⟨.name, String.ofList (keyOfLiteral t optional)⟩ :: after
      ∧ Item.colonNext (after.map Item.ofToken) = true := by
  obtain ⟨rest, rfl⟩ := hplace.right
  have hbracket : OpensIndexer front (char ':' :: rest) → EndsApart front.dropLast := fun h => by
    have hplain : ∀ g ∈ (keyEnd optional).map char, isBracket g = false := by
      cases optional <;> decide
    exact hplace.bracket ⟨h.1, (endsIndexer_append hplain).2 ((endsIndexer_cons rfl).1 h.2)⟩
  obtain ⟨ys, hcolon⟩ : ∃ ys, markShapes (quoteKeys (char ':' :: rest)) = char ':' :: ys :=
    ⟨_, by rw [quoteKeys_colon, markShapes_cons (by decide)]⟩
  have hunwrap : ∀ inside, unwrapIndexers inside (char ':' :: ys)
      = char ':' :: unwrapIndexers inside ys :=
    fun inside => @unwrapIndexers_append [char ':'] (by decide) inside ys
  have hshaped : markShapes (quoteKeys (squeeze (ofChars text.toList)))
      = markShapes (quoteKeys front) ++ literal (keyOfLiteral t optional)
        :: markShapes (quoteKeys (char ':' :: rest)) := by
    rw [hsource, piecewise_shaped.cut front _ (.inl rfl), shaped_key]
  obtain ⟨before, after, inside, htokens, hnext⟩ := scan_literal hscan hshaped
    (piecewise_shaped.ends hplace.left.ends) (piecewise_shaped.ends_dropLast hbracket)
    fun inside _ => .inr ⟨':', by decide, by rw [hcolon, hunwrap]; rfl⟩
  refine ⟨before, after, htokens, hnext.2 ?_⟩
  rw [hcolon, hunwrap]
  unfold markSequences
  simp only [replaceChar_eq]
  rw [replaceWord_cons (by decide) (by decide), replaceWord_cons (by decide) (by decide),
    replaceWord_cons (by decide) (by decide), replaceWord_cons (by decide) (by decide),
    replaceWord_cons (by decide) (by decide)]
  rfl

/-- A literal that stands as a type by itself is one name as it is, and no colon is next. -/
theorem scan_typePlace (hscan : Token.scan text = .ok tokens)
    (hsource : squeeze (ofChars text.toList) = front ++ literal t :: back)
    (hplace : IsTypePlace front back) :
    ∃ before after, tokens = before ++ ⟨.name, String.ofList t⟩ :: after
      ∧ Item.colonNext (after.map Item.ofToken) = false := by
  have hback := hplace.right.beginsAtEdge
  have hkey : ¬ BeginsKeyEnd back := fun h => by
    obtain hcolon | hoptional | ⟨rest, rfl⟩ := beginsKeyEnd_iff.1 h
    · obtain ⟨rest, rfl⟩ := List.head?_eq_some_iff.1 hcolon
      exact hplace.noKey.1 rfl
    · exact hplace.noKey.2 hoptional
    · obtain hnil | ⟨⟨c, hc, hhead⟩, -⟩ := hplace.right
      · cases hnil
      · obtain rfl := Glyph.char.inj (Option.some.inj hhead)
        exact absurd hc (by decide)
  have hmarked : BeginsAtEdge (replaceWord ['?', ':'] [optionalMark, ':'] back) :=
    hback.replaceWord (.inr hplace.noKey.2)
  have hopen : ¬ ((markShapes (quoteKeys back)).head? = some (char '[')
      ∧ closesAsIndexer (markShapes (quoteKeys back)).tail = true) := by
    rintro ⟨hhead, hcloses⟩
    obtain ⟨rest, rfl⟩ := List.head?_eq_some_iff.1 (piecewise_shaped.head (c := '[') back
      (by decide) hhead)
    have hrest := piecewise_shaped.stop (g := char '[') rest rfl
    rw [hrest] at hcloses
    exact (hplace.right.resolve_left (by simp)).2
      ⟨rfl, piecewise_shaped.closesAsIndexer hcloses⟩
  have hshaped : markShapes (quoteKeys (squeeze (ofChars text.toList)))
      = markShapes (quoteKeys front) ++ literal t :: markShapes (quoteKeys back) := by
    rw [hsource, piecewise_shaped.cut front _ (.inl rfl), shaped_type hback hkey]
  have hclose : ∀ inside, (inside = true → EndsIndexer (markShapes (quoteKeys back))) →
      ¬ (inside = true ∧ (markShapes (quoteKeys back)).head? = some (char ']')) := by
    rintro inside hends ⟨rfl, hhead⟩
    obtain ⟨rest, hrest⟩ := List.head?_eq_some_iff.1 hhead
    have hcolon := hends rfl
    rw [hrest, endsIndexer_close] at hcolon
    obtain ⟨more, rfl⟩ := List.head?_eq_some_iff.1 hcolon
    exact hplace.noKey.1 (piecewise_shaped.colonBehind (by rw [hrest]; rfl))
  obtain ⟨before, after, inside, htokens, hnext⟩ := scan_literal hscan hshaped
    (piecewise_shaped.ends hplace.left.ends)
    (piecewise_shaped.ends_dropLast hplace.bracket)
    fun inside hends => beginsAtEdge_unwrapIndexers
      hmarked.quoteLiteralKeys.quoteNameKeys.markShapes hopen (hclose inside hends)
  refine ⟨before, after, htokens, ?_⟩
  by_contra hcolon
  rw [Bool.not_eq_false] at hcolon
  have hbehind := colonBehind_of_markSequences (hnext.1 hcolon)
  exact hplace.noKey.1 (piecewise_shaped.colonBehind
    ((colonBehind_unwrapIndexers inside).1 hbehind))

end Source

end StructuralTypes.MarkerForm

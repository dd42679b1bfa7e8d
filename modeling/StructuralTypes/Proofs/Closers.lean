import StructuralTypes.Proofs.Balancing

/-! Brackets are counted and not compared. Whichever construct the end of a construct belongs to,
it comes to the end of a group: every pass does the same on either side of it, and what looks
ahead sees the same. So an annotation with another end in its place stands for the same type, or
is refused for the same cause, and only unbalanced brackets are refused as such. -/

namespace StructuralTypes

namespace Glyph

variable {word replacement : List Char} {g : Glyph}

/-- A word is not replaced before a place where it does not begin. -/
theorem replaceWord_cons_of_head (hne : word ≠ []) (h : ∀ c ∈ word.head?, g ≠ char c)
    (ys : List Glyph) :
    replaceWord word replacement (g :: ys) = g :: replaceWord word replacement ys := by
  obtain ⟨c, more, rfl⟩ := List.exists_cons_of_ne_nil hne
  have hp : ¬ ((c :: more).map char).isPrefixOf (g :: ys) = true := fun hp => by
    obtain ⟨after, hafter⟩ := List.isPrefixOf_iff_prefix.1 hp
    exact h c rfl (List.cons.inj hafter).1.symm
  rw [replaceWord, replaceFrom, if_neg hp]
  rfl

end Glyph

namespace MarkerForm

open Glyph

variable {gs xs ys front back : List Glyph} {c : Char} {closer : List Char}

/-! ### Keys and shapes -/

/-- Characters of shapes and of ends, which no key reaches over. -/
def keyless : List Char :=
  [')', '>', ']', '\x7b', '\x7d', '|']

theorem quoteKeys_cut (hc : c ∈ keyless) (xs ys : List Glyph) :
    quoteKeys (xs ++ char c :: ys) = quoteKeys xs ++ char c :: quoteKeys ys := by
  have hcases : ∀ c ∈ keyless, char c ∉ ['?', ':'].map char ∧ char c ≠ char ':'
      ∧ char c ≠ char optionalMark ∧ isKeyGlyph (char c) = false := by decide
  obtain ⟨hword, hcolon, hmark, hkey⟩ := hcases c hc
  rw [quoteKeys, replaceWord_cut hword, replaceWord_cons (by decide) hword,
    quoteLiteralKeys_cut _ hcolon hmark, quoteLiteralKeys_char,
    quoteNameKeys_cut false _ hkey hcolon, quoteNameKeys_cons hkey]
  rfl

theorem getLast?_quoteKeys (hc : c ∈ keyless) (h : (quoteKeys gs).getLast? = some (char c)) :
    gs.getLast? = some (char c) := by
  have hnew : ∀ c ∈ keyless, c ∉ [optionalMark, ':', '"'] := by decide
  exact getLast?_of_cut (quoteKeys_cut hc)
    (fun hm => (mem_quoteKeys hm).resolve_left (hnew c hc)) piecewise_quoteKeys.nil_iff.1 h

theorem markShapes_cut {g : Glyph} (h : ∀ c ∈ ['\x7b', '|', '\x7d'], g ≠ char c)
    (xs ys : List Glyph) : markShapes (xs ++ g :: ys) = markShapes xs ++ g :: markShapes ys := by
  have hword : ∀ {word : List Char}, word ⊆ ['\x7b', '|', '\x7d'] → g ∉ word.map char := by
    intro word hword hm
    obtain ⟨c, hc, rfl⟩ := List.mem_map.1 hm
    exact h c (hword hc) rfl
  have hpass : ∀ {word : List Char} (replacement : List Char), word ≠ [] →
      word ⊆ ['\x7b', '|', '\x7d'] → ∀ xs ys, replaceWord word replacement (xs ++ g :: ys)
        = replaceWord word replacement xs ++ g :: replaceWord word replacement ys :=
    fun {word} replacement hne hsub xs ys => by
      rw [replaceWord_cut (hword hsub), replaceWord_cons hne (hword hsub)]
  unfold markShapes
  simp only [replaceChar_eq]
  rw [hpass _ (by decide) (by decide), hpass _ (by decide) (by decide),
    hpass _ (by decide) (by decide), hpass _ (by decide) (by decide)]

/-- The end of an exact shape, unless a part of it is read as of the beginning of one. -/
theorem markShapes_exactShape (h : xs.getLast? ≠ some (char '\x7b')) (ys : List Glyph) :
    markShapes (xs ++ char '|' :: char '\x7d' :: ys)
      = markShapes xs ++ char ')' :: markShapes ys := by
  have hclose : ∀ zs, replaceWord ['|', '\x7d'] [')'] (char '|' :: char '\x7d' :: zs)
      = char ')' :: replaceWord ['|', '\x7d'] [')'] zs := fun zs => by
    rw [replaceWord, replaceFrom, if_pos (by simp [List.isPrefixOf])]
    rfl
  unfold markShapes
  simp only [replaceChar_eq]
  rw [replaceWord_append fun x hx _ _ => .inl fun hm => h (by simp_all),
    replaceWord_cons_of_head (by decide) (by simp), replaceWord_cons_of_head (by decide) (by simp),
    replaceWord_append fun _ _ y hy => .inr (by obtain rfl := Option.some.inj hy; decide), hclose,
    replaceWord_cut (by decide), replaceWord_cons (by decide) (by decide),
    replaceWord_cut (by decide), replaceWord_cons (by decide) (by decide)]

/-- The end of a shape, unless it is read as that of an exact one. -/
theorem markShapes_shape (h : xs.getLast? ≠ some (char '|')) (ys : List Glyph) :
    markShapes (xs ++ char '\x7d' :: ys) = markShapes xs ++ char ')' :: markShapes ys := by
  have hclose : ∀ zs, replaceWord ['\x7d'] [')'] (char '\x7d' :: zs)
      = char ')' :: replaceWord ['\x7d'] [')'] zs := fun zs => by
    rw [replaceWord, replaceFrom, if_pos (by simp [List.isPrefixOf])]
    rfl
  have hopened : (replaceWord ['\x7b', '|'] ['#', '('] xs).getLast? ≠ some (char '|') := by
    intro hlast
    rcases List.eq_nil_or_concat' xs with rfl | ⟨before, g, rfl⟩
    · cases hlast
    · rcases @getLast?_replaceFrom (before ++ [g]) ['\x7b', '|'] ['#', '('] (by decide) 0
        (by simp) with hstay | hput
      · exact h (hstay.symm.trans hlast)
      · cases hput.symm.trans hlast
  unfold markShapes
  simp only [replaceChar_eq]
  rw [replaceWord_cut (by decide), replaceWord_cons (by decide) (by decide),
    replaceWord_append fun x hx _ _ => .inl fun hm => hopened (by simp_all),
    replaceWord_cons_of_head (by decide) (by simp),
    replaceWord_cut (by decide), replaceWord_cons (by decide) (by decide),
    replaceWord_append fun _ _ _ _ => .inr (by simp), hclose]

/-- An end of a construct comes to one character when shapes are marked. -/
theorem shaped_closes (h : Closes front back closer) : ∃ c ∈ [')', '>', ']'],
    markShapes (quoteKeys (front ++ (closer.map char ++ back)))
        = markShapes (quoteKeys front) ++ char c :: markShapes (quoteKeys back)
      ∧ (c = ']' → Closes front back [']']) := by
  cases h with
  | group =>
    refine ⟨')', by decide, ?_, by simp⟩
    rw [List.map_singleton, List.singleton_append, quoteKeys_cut (by decide),
      markShapes_cut (by decide)]
  | array =>
    refine ⟨'>', by decide, ?_, by simp⟩
    rw [List.map_singleton, List.singleton_append, quoteKeys_cut (by decide),
      markShapes_cut (by decide)]
  | shape hbefore =>
    refine ⟨')', by decide, ?_, by simp⟩
    rw [List.map_singleton, List.singleton_append, quoteKeys_cut (by decide),
      markShapes_shape (mt (getLast?_quoteKeys (by decide)) hbefore)]
  | exactShape hbefore =>
    refine ⟨')', by decide, ?_, by simp⟩
    rw [List.map_cons, List.map_singleton, List.cons_append, List.singleton_append,
      quoteKeys_cut (by decide), ← List.nil_append (char '\x7d' :: back),
      quoteKeys_cut (by decide), piecewise_quoteKeys.nil, List.nil_append]
    exact markShapes_exactShape (mt (getLast?_quoteKeys (by decide)) hbefore) _
  | tuple hbefore hafter hindexer =>
    refine ⟨']', by decide, ?_, fun _ => .tuple hbefore hafter hindexer⟩
    rw [List.map_singleton, List.singleton_append, quoteKeys_cut (by decide),
      markShapes_cut (by decide)]

/-! ### Indexers -/

/-- A square bracket behind which a text goes on so ends no indexer and stands in none. -/
def IsOutside (c : Char) (back : List Glyph) : Prop :=
  c = ']' → ¬ EndsIndexer back ∧ back.head? ≠ some (char ':')

/-- Texts that look the same to what looks ahead for the end of an indexer. -/
structure LookAlike (xs ys : List Glyph) : Prop where
  ends : EndsIndexer xs ↔ EndsIndexer ys
  closes : closesAsIndexer xs = closesAsIndexer ys
  head : xs.head? = some (char ':') ↔ ys.head? = some (char ':')

namespace LookAlike

theorem cons (g : Glyph) (h : LookAlike xs ys) : LookAlike (g :: xs) (g :: ys) := by
  have hends : EndsIndexer (g :: xs) ↔ EndsIndexer (g :: ys) := by
    by_cases hg : isBracket g = true
    · simp only [isBracket, Bool.or_eq_true, beq_iff_eq] at hg
      rcases hg with rfl | rfl
      · exact iff_of_false not_endsIndexer_open not_endsIndexer_open
      · rw [endsIndexer_close, endsIndexer_close, h.head]
    · rw [endsIndexer_cons (by simpa using hg), endsIndexer_cons (by simpa using hg), h.ends]
  refine ⟨hends, ?_, by simp⟩
  rw [Bool.eq_iff_iff, closesAsIndexer_iff, closesAsIndexer_iff, hends]
  by_cases hg : isBracket g = true <;> simp [hg]

theorem append (h : LookAlike xs ys) (front : List Glyph) :
    LookAlike (front ++ xs) (front ++ ys) := by
  induction front with
  | nil => exact h
  | cons g front ih => exact ih.cons g

/-- The end of a construct looks like that of a group. -/
theorem of_closes (hc : c ∈ [')', '>', ']']) (hback : IsOutside c back) :
    LookAlike (char c :: back) (char ')' :: back) := by
  have hplain : ∀ {d : Char}, isBracket (char d) = false →
      (closesAsIndexer (char d :: back) = true ↔ EndsIndexer back) := fun hd => by
    rw [closesAsIndexer_iff, endsIndexer_cons hd, List.takeWhile_cons_of_pos (by simp [hd])]
    simp
  simp only [List.mem_cons, List.not_mem_nil, or_false] at hc
  rcases hc with rfl | rfl | rfl
  · exact ⟨Iff.rfl, rfl, Iff.rfl⟩
  · refine ⟨by rw [endsIndexer_cons rfl, endsIndexer_cons rfl], ?_, by simp⟩
    rw [Bool.eq_iff_iff, hplain rfl, hplain rfl]
  · obtain ⟨hindexer, hcolon⟩ := hback rfl
    refine ⟨?_, ?_, by simp⟩
    · rw [endsIndexer_close, endsIndexer_cons rfl]
      exact iff_of_false hcolon hindexer
    · rw [Bool.eq_iff_iff, @hplain ')' rfl, closesAsIndexer_iff, endsIndexer_close]
      exact iff_of_false (fun h => hcolon h.2) hindexer

end LookAlike

/-- Before texts that look the same the brackets of the same indexers are dropped. -/
theorem unwrapIndexers_lookAlike (h : LookAlike xs ys) (inside : Bool) (front : List Glyph)
    (hends : inside = true → EndsIndexer (front ++ xs)) :
    ∃ kept inside', unwrapIndexers inside (front ++ xs) = kept ++ unwrapIndexers inside' xs
      ∧ unwrapIndexers inside (front ++ ys) = kept ++ unwrapIndexers inside' ys
      ∧ (inside' = true → EndsIndexer xs) := by
  induction front generalizing inside with
  | nil => exact ⟨[], inside, rfl, rfl, hends⟩
  | cons g rest ih =>
    rw [List.cons_append] at hends
    rw [List.cons_append, List.cons_append, unwrapIndexers, unwrapIndexers,
      ← (h.append rest).closes]
    split
    · rename_i hopen
      exact ih true fun _ => (closesAsIndexer_iff.1 hopen.2).2
    · split
      · exact ih false (by simp)
      · rename_i hopen hclose
        -- a bracket that is kept is outside of indexers
        have hrest : inside = true → EndsIndexer (rest ++ xs) := fun hi => by
          have hg : isBracket g = false := by
            by_contra hb
            simp only [isBracket, Bool.not_eq_false, Bool.or_eq_true, beq_iff_eq] at hb
            rcases hb with rfl | rfl
            · exact not_endsIndexer_open (hends hi)
            · exact hclose ⟨hi, rfl⟩
          exact (endsIndexer_cons hg).1 (hends hi)
        obtain ⟨kept, inside', hxs, hys, hinside⟩ := ih inside hrest
        exact ⟨g :: kept, inside', by rw [hxs]; rfl, by rw [hys]; rfl, hinside⟩

theorem afterKey?_run {d : Char} {rest after : List Glyph} {k : Glyph}
    (hkey : char d = char '"' ∧ (!(rest.takeWhile isKeyGlyph).isEmpty) = true)
    (hdrop : rest.dropWhile isKeyGlyph = k :: after) :
    afterKey? (char d :: rest) = if k = char '"' then some after else none := by
  rw [afterKey?, if_pos hkey, hdrop]
  simp

/-- Behind a quoted key comes the rest of a text with the end in it, or no key is there. -/
theorem afterKey?_closes (front back : List Glyph) :
    (∃ zs, ∀ c ∈ [')', '>', ']'], afterKey? (front ++ char c :: back) = some (zs ++ char c :: back))
      ∨ ∀ c ∈ [')', '>', ']'], afterKey? (front ++ char c :: back) = none := by
  have hcases : ∀ c ∈ [')', '>', ']'], char c ≠ char '"' ∧ isKeyGlyph (char c) = false := by
    decide
  cases front with
  | nil =>
    refine .inr fun c hc => ?_
    rw [List.nil_append, afterKey?, if_neg fun h => (hcases c hc).1 h.1]
    simp
  | cons g rest =>
    cases g with
    | literal t => exact .inl ⟨rest, fun c _ => rfl⟩
    | char d =>
      have hspan := fun c hc => @span_append isKeyGlyph rest (char c :: back)
        (by rintro k ⟨⟩; exact (hcases c hc).2)
      by_cases hkey : char d = char '"' ∧ (!(rest.takeWhile isKeyGlyph).isEmpty) = true
      · have hrun : ∀ c ∈ [')', '>', ']'], ∀ {k after},
            rest.dropWhile isKeyGlyph ++ char c :: back = k :: after →
              afterKey? (char d :: rest ++ char c :: back)
                = if k = char '"' then some after else none := fun c hc _ _ hdrop =>
          afterKey?_run ((hspan c hc).1.symm ▸ hkey) ((hspan c hc).2.trans hdrop)
        cases hdrop : rest.dropWhile isKeyGlyph with
        | nil =>
          refine .inr fun c hc => ?_
          rw [hrun c hc (by rw [hdrop]; rfl), if_neg (hcases c hc).1]
        | cons k after =>
          by_cases hk : k = char '"'
          · refine .inl ⟨after, fun c hc => ?_⟩
            rw [hrun c hc (by rw [hdrop]; rfl), if_pos hk]
            rfl
          · refine .inr fun c hc => ?_
            rw [hrun c hc (by rw [hdrop]; rfl), if_neg hk]
      · refine .inr fun c hc => ?_
        rw [List.cons_append, afterKey?, (hspan c hc).1, if_neg hkey]
        simp

/-- Whether an indexer has a name does not depend on the end of a construct. -/
theorem hasNamedIndexer_closes (hc : c ∈ [')', '>', ']']) (hback : IsOutside c back)
    (front : List Glyph) :
    hasNamedIndexer (front ++ char c :: back) = hasNamedIndexer (front ++ char ')' :: back) := by
  induction front with
  | nil =>
    have hopen : ∀ c ∈ [')', '>', ']'], char '[' ∉ [char c] := by decide
    have hskip := fun c hc => @hasNamedIndexer_append [char c] (hopen c hc) back
    exact (hskip c hc).trans (hskip ')' (by decide)).symm
  | cons g rest ih =>
    have hstarts : startsNamedIndexer (g :: (rest ++ char c :: back))
        = startsNamedIndexer (g :: (rest ++ char ')' :: back)) := by
      rw [startsNamedIndexer, startsNamedIndexer]
      obtain ⟨zs, hzs⟩ | hnone := afterKey?_closes rest back
      · rw [hzs c hc, hzs ')' (by decide)]
        cases zs with
        | nil =>
          have hcolon : ∀ c ∈ [')', '>', ']'], (char c == char ':') = false := by decide
          simp [hcolon c hc]
        | cons z zs =>
          have hcloses := ((LookAlike.of_closes hc hback).append zs).closes
          simp only [List.cons_append, hcloses]
      · rw [hnone c hc, hnone ')' (by decide)]
    rw [List.cons_append, List.cons_append, hasNamedIndexer, hasNamedIndexer, ih, hstarts]

/-- No end is dropped as the bracket of an indexer, nor is what stands before it. -/
theorem unwrapIndexers_closes (hc : c ∈ [')', '>', ']']) (hback : IsOutside c back)
    (hfront : c = ']' → front.getLast? ≠ some (char '[')) :
    ∃ kept inside, unwrapIndexers false (front ++ char c :: back)
        = kept ++ char c :: unwrapIndexers inside back
      ∧ unwrapIndexers false (front ++ char ')' :: back)
        = kept ++ char ')' :: unwrapIndexers inside back
      ∧ (c = ']' → kept.getLast? ≠ some (char '[')) := by
  have halike := LookAlike.of_closes hc hback
  have hplain : ∀ {d : Char} (inside : Bool), d ∈ [')', '>'] →
      unwrapIndexers inside (char d :: back) = char d :: unwrapIndexers inside back :=
    fun inside hd => @unwrapIndexers_append [char _] (by
      have hcases : ∀ d ∈ [')', '>'], ∀ g ∈ [char d], isBracket g = false := by decide
      exact hcases _ hd) inside back
  by_cases hsquare : c = ']'
  · obtain rfl := hsquare
    have hlast : unwrapIndexers false (char ']' :: back) = char ']' :: unwrapIndexers false back := by
      rw [unwrapIndexers, if_neg (by simp), if_neg (by simp)]
    obtain rfl | ⟨before, g, rfl⟩ := front.eq_nil_or_concat'
    · exact ⟨[], false, hlast, hplain false (by decide), by simp⟩
    · have hg : g ≠ char '[' := by simpa using hfront rfl
      obtain ⟨kept, inside, hxs, hys, hinside⟩ :=
        unwrapIndexers_lookAlike (halike.cons g) false before (by simp)
      -- what stands before the end closes no indexer, and none is open there
      obtain rfl : inside = false := by
        by_contra hi
        have hends := hinside (by simpa using hi)
        by_cases hb : isBracket g = true
        · simp only [isBracket, Bool.or_eq_true, beq_iff_eq, hg, false_or] at hb
          rw [hb, endsIndexer_close] at hends
          cases hends
        · rw [endsIndexer_cons (by simpa using hb), endsIndexer_close] at hends
          exact (hback rfl).2 hends
      have hkept : ∀ zs, unwrapIndexers false (g :: zs) = g :: unwrapIndexers false zs := fun zs => by
        rw [unwrapIndexers, if_neg fun h => hg h.1, if_neg (by simp)]
      rw [hkept, hlast] at hxs
      rw [hkept, hplain false (by decide)] at hys
      exact ⟨kept ++ [g], false, by simpa using hxs, by simpa using hys, by simpa using hg⟩
  · obtain ⟨kept, inside, hxs, hys, -⟩ := unwrapIndexers_lookAlike halike false front (by simp)
    refine ⟨kept, inside, ?_, ?_, fun h => absurd h hsquare⟩
    · rw [hxs, hplain inside (by simpa [hsquare] using hc)]
    · rw [hys, hplain inside (by decide)]

/-! ### Sequences -/

/-- In the end a group ends, unless an array suffix is read. -/
theorem markSequences_closes (hc : c ∈ [')', '>', ']'])
    (h : c = ']' → xs.getLast? ≠ some (char '[')) (ys : List Glyph) :
    markSequences (xs ++ char c :: ys) = markSequences xs ++ char ')' :: markSequences ys := by
  have hclose : ∀ (c : Char) (xs zs : List Glyph), replaceWord [c] [')'] (xs ++ char c :: zs)
      = replaceWord [c] [')'] xs ++ char ')' :: replaceWord [c] [')'] zs := fun c xs zs => by
    rw [replaceWord_append fun _ _ _ _ => .inr (by simp)]
    congr 1
    rw [replaceWord, replaceFrom, if_pos (by simp [List.isPrefixOf])]
    rfl
  have hsuffix : replaceWord ['[', ']'] ['$'] (xs ++ char c :: ys)
      = replaceWord ['[', ']'] ['$'] xs ++ char c :: replaceWord ['[', ']'] ['$'] ys := by
    have hopen : ∀ c ∈ [')', '>', ']'], char c ≠ char '[' := by decide
    rw [replaceWord_append fun x hx y hy => ?_,
      replaceWord_cons_of_head (by decide) (by rintro _ ⟨⟩; exact hopen c hc)]
    obtain rfl := Option.some.inj hy
    by_cases hclose : c = ']'
    · exact .inl fun hm => h hclose (by simp_all)
    · exact .inr (by simpa using hclose)
  unfold markSequences
  simp only [replaceChar_eq]
  rw [hsuffix]
  simp only [List.mem_cons, List.not_mem_nil, or_false] at hc
  rcases hc with rfl | rfl | rfl
  · rw [replaceWord_cut (by decide), replaceWord_cons (by decide) (by decide),
      replaceWord_cut (by decide), replaceWord_cons (by decide) (by decide),
      replaceWord_cut (by decide), replaceWord_cons (by decide) (by decide),
      replaceWord_cut (by decide), replaceWord_cons (by decide) (by decide)]
  · rw [replaceWord_cut (by decide), replaceWord_cons (by decide) (by decide), hclose,
      replaceWord_cut (by decide), replaceWord_cons (by decide) (by decide),
      replaceWord_cut (by decide), replaceWord_cons (by decide) (by decide)]
  · rw [replaceWord_cut (by decide), replaceWord_cons (by decide) (by decide),
      replaceWord_cut (by decide), replaceWord_cons (by decide) (by decide),
      replaceWord_cut (by decide), replaceWord_cons (by decide) (by decide), hclose]

/-! ### The whole form -/

/-- An end of a construct is as good as that of a group. -/
theorem form_closes (h : Closes front back closer) :
    let source := front ++ (closer.map char ++ back)
    let round := front ++ char ')' :: back
    reservedIn source = reservedIn round
      ∧ hasNamedIndexer (markShapes (quoteKeys source))
        = hasNamedIndexer (markShapes (quoteKeys round))
      ∧ markSequences (unwrapIndexers false (markShapes (quoteKeys source)))
        = markSequences (unwrapIndexers false (markShapes (quoteKeys round))) := by
  intro source round
  obtain ⟨c, hc, hshaped, htuple⟩ := shaped_closes h
  have hround : markShapes (quoteKeys round)
      = markShapes (quoteKeys front) ++ char ')' :: markShapes (quoteKeys back) := by
    rw [quoteKeys_cut (by decide), markShapes_cut (by decide)]
  have hback : IsOutside c (markShapes (quoteKeys back)) := fun hsquare => by
    cases htuple hsquare with
    | tuple hbefore hafter hindexer =>
      exact ⟨mt piecewise_shaped.endsIndexer hindexer,
        mt (piecewise_shaped.head back (by decide)) hafter⟩
  have hfront : c = ']' → (markShapes (quoteKeys front)).getLast? ≠ some (char '[') :=
    fun hsquare => by
      cases htuple hsquare with
      | tuple hbefore hafter hindexer => exact mt (piecewise_shaped.getLast?_bracket rfl) hbefore
  refine ⟨?_, ?_, ?_⟩
  · have hplain : ∀ d ∈ reserved, char d ∉ closer.map char ∧ char d ≠ char ')' := by
      cases h <;> decide
    refine List.filter_congr fun d hd => ?_
    obtain ⟨hcloser, hgroup⟩ := hplain d hd
    simp only [List.contains_eq_mem, source, round, List.mem_append, List.mem_cons, hcloser,
      hgroup, false_or]
  · rw [hshaped, hround, hasNamedIndexer_closes hc hback]
  · obtain ⟨kept, inside, hxs, hys, hkept⟩ := unwrapIndexers_closes hc hback hfront
    rw [hshaped, hround, hxs, hys, markSequences_closes hc hkept,
      markSequences_closes (by decide) (by simp)]

/-- Sources that respell alike have one marker form, or are refused for one cause. -/
theorem ofText_alike {text other : String}
    (hnul : Char.ofNat 0 ∈ text.toList ↔ Char.ofNat 0 ∈ other.toList)
    (hreserved : reservedIn (squeeze (ofChars text.toList))
      = reservedIn (squeeze (ofChars other.toList)))
    (hnamed : hasNamedIndexer (markShapes (quoteKeys (squeeze (ofChars text.toList))))
      = hasNamedIndexer (markShapes (quoteKeys (squeeze (ofChars other.toList)))))
    (hform : markSequences (unwrapIndexers false
        (markShapes (quoteKeys (squeeze (ofChars text.toList)))))
      = markSequences (unwrapIndexers false
        (markShapes (quoteKeys (squeeze (ofChars other.toList)))))) :
    ∃ form : Except Cause (List Glyph),
      ofText text = form.mapError (fun cause => ⟨cause, some text⟩)
        ∧ ofText other = form.mapError (fun cause => ⟨cause, some other⟩) := by
  by_cases hmem : Char.ofNat 0 ∈ text.toList
  · have hrefused : ∀ {s : String}, Char.ofNat 0 ∈ s.toList →
        ofText s = .error ⟨.nulCharacter, some s⟩ := fun hs => by
      rw [ofText, List.contains_iff_mem.2 hs]
      rfl
    exact ⟨.error .nulCharacter, hrefused hmem, hrefused (hnul.1 hmem)⟩
  · have hsame : ofVisible (visible (ofChars other.toList))
        = ofVisible (visible (ofChars text.toList)) := by
      unfold squeeze at hreserved hnamed hform
      unfold ofVisible visible
      simp only [hreserved, hnamed, hform]
    exact ⟨_, ofText_eq hmem, by rw [ofText_eq (mt hnul.2 hmem), hsame]⟩

end MarkerForm

namespace Node

open Glyph MarkerForm

variable {text other : String}

/-- Annotations with one marker form stand for one type, or are refused for one cause. -/
theorem parse?_alike {form : Except Cause (List Glyph)}
    (htext : ofText text = form.mapError fun cause => ⟨cause, some text⟩)
    (hother : ofText other = form.mapError fun cause => ⟨cause, some other⟩) :
    ∃ outcome : Except Cause Node,
      parse? text = outcome.mapError (fun cause => .type ⟨cause, some text⟩)
        ∧ parse? other = outcome.mapError (fun cause => .type ⟨cause, some other⟩) := by
  have htree : ∀ {s : String}, ofText s = form.mapError (fun cause => ⟨cause, some s⟩) →
      TokenTree.ofText s = form.mapError (fun cause => ⟨cause, some s⟩)
        >>= fun glyphs => TokenTree.ofTokens (Token.ofGlyphs glyphs) := fun hs => by
    rw [TokenTree.ofText, Token.scan, hs]
    cases form <;> rfl
  rw [parse?_eq, parse?_eq, htree htext, htree hother]
  cases form with
  | error cause => exact ⟨.error cause, rfl, rfl⟩
  | ok glyphs =>
    simp only [Except.mapError, bind, Except.bind] at htree ⊢
    cases hbuild : TokenTree.ofTokens (Token.ofGlyphs glyphs) with
    | error f =>
      obtain ⟨cause, -, rfl⟩ := TokenTree.build_error hbuild
      exact ⟨.error cause, rfl, rfl⟩
    | ok trees =>
      obtain ⟨n, hn, -⟩ | ⟨cause, -, hf⟩ := ofTree_cases ((htree htext).trans hbuild)
      · exact ⟨.ok n, by simp only [hn], by simp only [hn]⟩
      · exact ⟨.error cause, by simp only [hf]; rfl, by simp only [hf]; rfl⟩

/-- Brackets are counted, not compared. If they are not balanced in an annotation, all taken as of
one kind and those of indexers aside, then it stands for no type. Otherwise the end of a construct
may be that of any other: annotations that differ in it alone stand for the same type, or are
refused for the same cause. -/
theorem brackets_counted_not_compared :
    (∀ text : String,
      ¬ Token.Balanced (brackets (unwrapIndexers false (squeeze (ofChars text.toList)))) →
        ∃ f, parse? text = .error (.type f))
    ∧ ∀ {text other : String} {front back : List Glyph} {closer closer' : List Char},
      (Char.ofNat 0 ∈ text.toList ↔ Char.ofNat 0 ∈ other.toList) →
      squeeze (ofChars text.toList) = front ++ (closer.map char ++ back) →
      squeeze (ofChars other.toList) = front ++ (closer'.map char ++ back) →
      Closes front back closer → Closes front back closer' →
        ∃ outcome : Except Cause Node,
          parse? text = outcome.mapError (fun cause => .type ⟨cause, some text⟩)
            ∧ parse? other = outcome.mapError (fun cause => .type ⟨cause, some other⟩) := by
  constructor
  · intro text hunbalanced
    obtain ⟨n, hn, -⟩ | hf := parse?_spec text
    · exact absurd (balanced_of_parse hn) hunbalanced
    · exact hf
  · intro text other front back closer closer' hnul htext hother hcloser hcloser'
    obtain ⟨hreserved, hnamed, hform⟩ := form_closes hcloser
    obtain ⟨hreserved', hnamed', hform'⟩ := form_closes hcloser'
    obtain ⟨form, hoftext, hofother⟩ := @ofText_alike text other hnul
      (by rw [htext, hother]; exact hreserved.trans hreserved'.symm)
      (by rw [htext, hother]; exact hnamed.trans hnamed'.symm)
      (by rw [htext, hother]; exact hform.trans hform'.symm)
    exact parse?_alike hoftext hofother

/-- A group that stays open, and a tuple that ends as a group does. -/
theorem brackets_counted_not_compared_tuple :
    let unclosed := "[a, (b]"
    let text := "[int)"
    let other := "[int]"
    let front := "[int".toList.map char
    ¬ Token.Balanced (brackets (unwrapIndexers false (squeeze (ofChars unclosed.toList))))
      ∧ (∃ f, parse? unclosed = .error (.type f))
      ∧ (Char.ofNat 0 ∈ text.toList ↔ Char.ofNat 0 ∈ other.toList)
      ∧ squeeze (ofChars text.toList) = front ++ ([')'].map char ++ [])
      ∧ squeeze (ofChars other.toList) = front ++ ([']'].map char ++ [])
      ∧ Closes front [] [')'] ∧ Closes front [] [']']
      ∧ ∃ outcome : Except Cause Node,
        parse? text = outcome.mapError (fun cause => .type ⟨cause, some text⟩)
          ∧ parse? other = outcome.mapError (fun cause => .type ⟨cause, some other⟩) := by
  intro unclosed text other front
  have hunclosed :
      ¬ Token.Balanced (brackets (unwrapIndexers false (squeeze (ofChars unclosed.toList)))) :=
    fun h => absurd h.2 (by decide +kernel)
  have hnul : Char.ofNat 0 ∈ text.toList ↔ Char.ofNat 0 ∈ other.toList := by decide
  have htext : squeeze (ofChars text.toList) = front ++ ([')'].map char ++ []) := by
    decide +kernel
  have hother : squeeze (ofChars other.toList) = front ++ ([']'].map char ++ []) := by
    decide +kernel
  have htuple : Closes front [] [']'] := .tuple (by decide) (by decide) (by decide)
  obtain ⟨hcounted, hcompared⟩ := brackets_counted_not_compared
  exact ⟨hunclosed, hcounted unclosed hunclosed, hnul, htext, hother, .group, htuple,
    hcompared hnul htext hother .group htuple⟩

/-- A tuple closed by the end of a group is read. -/
theorem reads_crossed_tuple :
    let text := "[int)"
    visible (ofChars text.toList) = text.toList.map char
      ∧ Bracket.crosses [] text.toList = true ∧ parse? text = .ok (.tuple [.leaf "int"]) := by
  intro text
  have hscan : (Token.scan text).toOption = some [⟨.tuple, "^"⟩, Grammar.openGroup,
      Grammar.word "int", Grammar.closeGroup] := by decide +kernel
  refine ⟨by decide +kernel, ?_, parse?_of_scan (Outcome.ok_of_toOption hscan) rfl rfl⟩
  decide +kernel

end Node

end StructuralTypes

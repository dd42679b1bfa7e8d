import Mathlib.Data.List.Basic
import Mathlib.Data.List.TakeWhile
import StructuralTypes.Token.Gap
import StructuralTypes.Token.Lexer

/-! How the passes over the glyphs of an annotation act on a text put together from two.
Most of them act on either part alone as long as nothing that they look for lies across the
border. -/

namespace StructuralTypes

namespace Glyph

theorem char_mem_map {c : Char} {cs : List Char} : char c ∈ cs.map char ↔ c ∈ cs :=
  List.mem_map_of_injective fun _ _ h => by injection h

/-! ### Setting literals aside -/

theorem literalBody?_cons {quote c : Char} (h : c ≠ '\\') (rest : List Char) :
    literalBody? quote (c :: rest) = if c = quote then some ([], rest)
      else if c = '\n' then none
      else (literalBody? quote rest).map fun p => (c :: p.1, p.2) := by
  rw [literalBody?]
  · exact fun hc => absurd hc h
  · exact fun _ _ hc => absurd hc h

/-- Nothing after its closing quote matters to a literal. -/
theorem literalBody?_append {quote : Char} {s body after : List Char}
    (h : literalBody? quote s = some (body, after)) (t : List Char) :
    literalBody? quote (s ++ t) = some (body, after ++ t) := by
  fun_induction literalBody? quote s generalizing body after with
  | case1 => cases h
  | case2 => cases h
  | case3 => cases h
  | case4 c rest hc ih =>
    obtain ⟨⟨b, r⟩, hb, he⟩ := Option.map_eq_some_iff.1 h
    cases he
    rw [List.cons_append, List.cons_append, literalBody?, if_neg hc, ih hb]
    rfl
  | case5 rest hne hns =>
    cases h
    have hq : quote ≠ '\\' := by
      intro hq
      cases rest with
      | nil => exact hne hq rfl
      | cons c rest => exact hns c rest hq rfl
    rw [List.cons_append, literalBody?_cons hq, if_pos rfl]
  | case6 => cases h
  | case7 c rest hne hns hc hn ih =>
    obtain ⟨⟨b, r⟩, hb, he⟩ := Option.map_eq_some_iff.1 h
    cases he
    have hq : c ≠ '\\' := by
      intro hq
      cases rest with
      | nil => exact hne hq rfl
      | cons c rest => exact hns c rest hq rfl
    rw [List.cons_append, literalBody?_cons hq, if_neg hc, if_neg hn, ih hb]
    rfl

theorem literal?_append {s text after : List Char} (h : literal? s = some (text, after))
    (t : List Char) : literal? (s ++ t) = some (text, after ++ t) := by
  cases s with
  | nil => cases h
  | cons q rest =>
    rw [literal?] at h
    split at h
    · rename_i hq
      obtain ⟨⟨b, r⟩, hb, he⟩ := Option.map_eq_some_iff.1 h
      cases he
      rw [List.cons_append, literal?, if_pos hq, literalBody?_append hb]
      rfl
    · cases h

/-- A literal is one by itself, whatever it is followed by. -/
theorem literalBody?_self {quote : Char} {s body after : List Char}
    (h : literalBody? quote s = some (body, after)) :
    literalBody? quote (body ++ [quote]) = some (body, []) := by
  fun_induction literalBody? quote s generalizing body after with
  | case1 => cases h
  | case2 => cases h
  | case3 => cases h
  | case4 c rest hc ih =>
    obtain ⟨⟨b, r⟩, hb, he⟩ := Option.map_eq_some_iff.1 h
    cases he
    rw [List.cons_append, List.cons_append, literalBody?, if_neg hc, ih hb]
    rfl
  | case5 rest hne hns =>
    cases h
    have hq : quote ≠ '\\' := by
      rintro rfl
      cases rest with
      | nil => exact hne rfl rfl
      | cons c rest => exact hns c rest rfl rfl
    rw [List.nil_append, literalBody?_cons hq, if_pos rfl]
  | case6 => cases h
  | case7 c rest hne hns hc hn ih =>
    obtain ⟨⟨b, r⟩, hb, he⟩ := Option.map_eq_some_iff.1 h
    cases he
    have hq : c ≠ '\\' := by
      rintro rfl
      cases rest with
      | nil => exact hne rfl rfl
      | cons c rest => exact hns c rest rfl rfl
    rw [List.cons_append, literalBody?_cons hq, if_neg hc, if_neg hn, ih hb]
    rfl

theorem literal?_self {s text after : List Char} (h : literal? s = some (text, after)) :
    literal? text = some (text, []) := by
  cases s with
  | nil => cases h
  | cons q rest =>
    rw [literal?] at h
    split at h
    · rename_i hq
      obtain ⟨⟨b, r⟩, hb, he⟩ := Option.map_eq_some_iff.1 h
      cases he
      rw [literal?, if_pos hq, literalBody?_self hb]
      rfl
    · cases h

theorem literal?_of_mem_ofChars {s text : List Char} (h : literal text ∈ ofChars s) :
    literal? text = some (text, []) := by
  fun_induction ofChars s with
  | case1 => cases h
  | case2 c rest t after hl ih =>
    rcases List.mem_cons.1 h with he | hm
    · cases he
      exact literal?_self hl
    · exact ih hm
  | case3 c rest hl ih =>
    rcases List.mem_cons.1 h with he | hm
    · cases he
    · exact ih hm

/-- A text without quotes is a literal up to the quote behind it. -/
theorem literal?_quoted {text : List Char} (h : ∀ c ∈ text, c ∉ ['"', '\\', '\n'])
    (after : List Char) :
    literal? ('"' :: (text ++ '"' :: after)) = some ('"' :: (text ++ ['"']), after) := by
  have hbody : literalBody? '"' (text ++ '"' :: after) = some (text, after) := by
    induction text with
    | nil => rw [List.nil_append, literalBody?_cons (by decide), if_pos rfl]
    | cons c rest ih =>
      have hc := h c List.mem_cons_self
      simp only [List.mem_cons, List.not_mem_nil, or_false, not_or] at hc
      rw [List.cons_append, literalBody?_cons hc.2.1, if_neg hc.1, if_neg hc.2.2,
        ih fun d hd => h d (List.mem_cons_of_mem _ hd)]
      rfl
  rw [literal?, if_pos (by decide), hbody]
  rfl

theorem ofChars_append_of_plain {xs : List Char} (h : ∀ c ∈ xs, Escapes.isQuote c = false)
    (ys : List Char) : ofChars (xs ++ ys) = xs.map char ++ ofChars ys := by
  induction xs with
  | nil => rfl
  | cons c rest ih =>
    have hnone : literal? (c :: (rest ++ ys)) = none := by
      rw [literal?, if_neg (by simp [h c List.mem_cons_self])]
    rw [List.cons_append, ofChars]
    split
    · rename_i hsome
      rw [hnone] at hsome
      cases hsome
    · rw [ih fun d hd => h d (List.mem_cons_of_mem _ hd)]
      rfl

theorem ofChars_of_literal? {s text after : List Char} (h : literal? s = some (text, after)) :
    ofChars s = literal text :: ofChars after := by
  cases s with
  | nil => cases h
  | cons c rest =>
    rw [ofChars]
    split
    · rename_i hsome
      rw [h] at hsome
      cases hsome
      rfl
    · rename_i hnone
      rw [h] at hnone
      cases hnone

/-! ### Comments and edges -/

theorem dropComments_of_not_mem {glyphs : List Glyph} (h : char '/' ∉ glyphs) :
    dropComments false glyphs = glyphs := by
  induction glyphs with
  | nil => rfl
  | cons g rest ih =>
    rw [List.mem_cons, not_or] at h
    cases rest with
    | nil => rfl
    | cons k rest =>
      rw [dropComments, if_neg fun hg => h.1 hg.1.symm, ih h.2]

theorem dropComments_sublist (inside : Bool) (gs : List Glyph) :
    (dropComments inside gs).Sublist gs := by
  fun_induction dropComments inside gs with
  | case1 inside => exact List.nil_sublist _
  | case2 rest ih => exact ih.cons_cons _
  | case3 g rest hg ih => exact ih.cons _
  | case4 g => exact List.Sublist.refl _
  | case5 g k rest hg ih => exact (ih.cons _).cons _
  | case6 g k rest hg ih => exact ih.cons_cons _

theorem EndsInComment.cons {gs : List Glyph} (h : EndsInComment gs) (g : Glyph) :
    EndsInComment (g :: gs) := by
  obtain ⟨before, line, rfl, hline⟩ := h
  exact ⟨g :: before, line, rfl, hline⟩

/-- Comments are dropped on either side of a place outside of them, unless a slash on the one
side meets one on the other. The text may begin in a comment that ends in it. -/
theorem dropComments_append {inside : Bool} {gs back : List Glyph}
    (hinside : inside = true → char '\n' ∈ gs) (hend : ¬ EndsInComment gs)
    (hslash : ¬ (gs.getLast? = some (char '/') ∧ back.head? = some (char '/'))) :
    dropComments inside (gs ++ back) = dropComments inside gs ++ dropComments false back := by
  have htail : ∀ {g : Glyph} {rest : List Glyph},
      ¬ ((g :: rest).getLast? = some (char '/') ∧ back.head? = some (char '/')) →
      ¬ (rest.getLast? = some (char '/') ∧ back.head? = some (char '/')) := by
    rintro g rest h ⟨hlast, hhead⟩
    exact h ⟨by rw [List.getLast?_cons, hlast]; rfl, hhead⟩
  fun_induction dropComments inside gs with
  | case1 inside =>
    cases inside with
    | true => simp at hinside
    | false => rfl
  | case2 rest ih =>
    rw [List.cons_append, dropComments, if_pos rfl,
      ih (by simp) (fun h => hend (h.cons _)) (htail hslash), List.cons_append]
  | case3 g rest hg ih =>
    have hline : char '\n' ∈ rest := (List.mem_cons.1 (hinside rfl)).resolve_left (Ne.symm hg)
    rw [List.cons_append, dropComments, if_neg hg,
      ih (fun _ => hline) (fun h => hend (h.cons _)) (htail hslash)]
  | case4 g =>
    cases back with
    | nil => rfl
    | cons k back =>
      have hg : ¬ (g = char '/' ∧ k = char '/') := by simpa using hslash
      rw [List.singleton_append, dropComments, if_neg hg, List.singleton_append]
  | case5 g k rest hg ih =>
    have hline : char '\n' ∈ rest := by
      by_contra hn
      exact hend ⟨[], rest, by rw [hg.1, hg.2]; rfl, hn⟩
    rw [List.cons_append, List.cons_append, dropComments, if_pos hg,
      ih (fun _ => hline) (fun h => hend ((h.cons _).cons _)) (htail (htail hslash))]
  | case6 g k rest hg ih =>
    rw [List.cons_append, List.cons_append, dropComments, if_neg hg, ← List.cons_append,
      ih (by simp) (fun h => hend (h.cons _)) (htail hslash), List.cons_append]

/-- A text without comments does not end in one. -/
theorem not_endsInComment {gs : List Glyph} (h : dropComments false gs = gs) :
    ¬ EndsInComment gs := by
  have hdrop : ∀ {g k : Glyph} {rest : List Glyph}, dropComments true rest ≠ g :: k :: rest := by
    intro g k rest he
    have hlength := (dropComments_sublist true rest).length_le
    rw [he, List.length_cons, List.length_cons] at hlength
    omega
  rintro ⟨before, line, rfl, -⟩
  induction before with
  | nil =>
    rw [List.nil_append, dropComments, if_pos ⟨rfl, rfl⟩] at h
    exact hdrop h
  | cons g before ih =>
    obtain ⟨k, rest, hk⟩ := List.exists_cons_of_ne_nil
      (show before ++ char '/' :: char '/' :: line ≠ [] by simp)
    rw [List.cons_append, hk, dropComments] at h
    split at h
    · exact hdrop h
    · exact ih (hk ▸ (List.cons.inj h).2)

theorem trimOperators_eq_self {glyphs : List Glyph}
    (hhead : ∀ g ∈ glyphs.head?, g.isOperator = false)
    (hlast : ∀ g ∈ glyphs.getLast?, g.isOperator = false) : trimOperators glyphs = glyphs := by
  have hdrop : ∀ gs : List Glyph, (∀ g ∈ gs.head?, g.isOperator = false) →
      gs.dropWhile isOperator = gs := by
    intro gs hgs
    cases gs with
    | nil => rfl
    | cons g rest => rw [List.dropWhile_cons_of_neg (by simp [hgs g rfl])]
  rw [trimOperators, hdrop _ hhead, hdrop _ (by rwa [List.head?_reverse]), List.reverse_reverse]

/-! ### Replacing words -/

/-- A word that reaches over a border begins on the one side and ends on the other. -/
theorem exists_straddling {word : List Char} {xs ys : List Glyph} (hxs : xs ≠ [])
    (h : word.map char <+: xs ++ ys) (hn : ¬ word.map char <+: xs) :
    ∃ x ∈ xs.getLast?, ∃ y ∈ ys.head?, x ∈ word.dropLast.map char ∧ y ∈ word.tail.map char := by
  have hpre : xs <+: word.map char :=
    (List.prefix_or_prefix_of_prefix h (List.prefix_append xs ys)).resolve_left hn
  obtain ⟨zs, hz⟩ := hpre
  obtain ⟨u, v, rfl, rfl, rfl⟩ := List.map_eq_append_iff.1 hz.symm
  rw [List.map_append, List.prefix_append_right_inj] at h
  cases v with
  | nil => exact absurd (by simp) hn
  | cons c v =>
    obtain ⟨rest, rfl⟩ := h
    obtain rfl | ⟨u, d, rfl⟩ := List.eq_nil_or_concat' u
    · exact absurd rfl hxs
    · refine ⟨char d, by simp, char c, by simp, ?_, ?_⟩
      · rw [List.dropLast_append_of_ne_nil (by simp)]
        simp
      · rw [List.tail_append_of_ne_nil (by simp)]
        simp

/-- Words are replaced on either side of a border that none of them reaches over. -/
theorem replaceWord_append {word : List Char} {xs ys : List Glyph}
    (h : ∀ x ∈ xs.getLast?, ∀ y ∈ ys.head?,
      x ∉ word.dropLast.map char ∨ y ∉ word.tail.map char) (replacement : List Char) :
    replaceWord word replacement (xs ++ ys)
      = replaceWord word replacement xs ++ replaceWord word replacement ys := by
  suffices hskip : ∀ skip, skip ≤ xs.length → replaceFrom word replacement skip (xs ++ ys)
      = replaceFrom word replacement skip xs ++ replaceFrom word replacement 0 ys from
    hskip 0 (Nat.zero_le _)
  induction xs with
  | nil =>
    intro skip hs
    obtain rfl := Nat.le_zero.1 hs
    rfl
  | cons g rest ih =>
    have hrest := ih fun x hx y hy => h x (by
      rw [Option.mem_def] at hx ⊢
      rw [List.getLast?_cons, hx]
      rfl) y hy
    intro skip hs
    rw [List.length_cons] at hs
    cases skip with
    | succ skip =>
      rw [List.cons_append, replaceFrom, replaceFrom, hrest skip (by omega)]
    | zero =>
      rw [List.cons_append, replaceFrom, replaceFrom]
      by_cases hp : word.map char <+: g :: rest
      · have hlen := hp.length_le
        rw [List.length_map, List.length_cons] at hlen
        have hp' : word.map char <+: g :: (rest ++ ys) := hp.trans (List.prefix_append _ ys)
        rw [if_pos (List.isPrefixOf_iff_prefix.2 hp'), if_pos (List.isPrefixOf_iff_prefix.2 hp),
          hrest _ (by omega), List.append_assoc]
      · have hp' : ¬ word.map char <+: g :: (rest ++ ys) := by
          intro hp'
          obtain ⟨x, hx, y, hy, hxw, hyw⟩ := exists_straddling (by simp) hp' hp
          rcases h x hx y hy with hn | hn
          · exact hn hxw
          · exact hn hyw
        rw [if_neg fun hb => hp' (List.isPrefixOf_iff_prefix.1 hb),
          if_neg fun hb => hp (List.isPrefixOf_iff_prefix.1 hb), hrest 0 (Nat.zero_le _)]
        rfl

/-- A word with a character that does not occur is replaced nowhere. -/
theorem replaceWord_eq_self {word : List Char} {c : Char} (hc : c ∈ word) {xs : List Glyph}
    (h : char c ∉ xs) (replacement : List Char) : replaceWord word replacement xs = xs := by
  show replaceFrom word replacement 0 xs = xs
  induction xs with
  | nil => rfl
  | cons g rest ih =>
    have hp : ¬ word.map char <+: g :: rest := fun hp =>
      h (hp.subset (List.mem_map_of_mem hc))
    rw [replaceFrom, if_neg fun hb => hp (List.isPrefixOf_iff_prefix.1 hb),
      ih fun hm => h (List.mem_cons_of_mem _ hm)]

theorem replaceChar_append (c : Char) (replacement : List Char) (xs ys : List Glyph) :
    replaceChar c replacement (xs ++ ys)
      = replaceChar c replacement xs ++ replaceChar c replacement ys :=
  List.flatMap_append

theorem replaceChar_eq_self {c : Char} {xs : List Glyph} (h : char c ∉ xs)
    (replacement : List Char) : replaceChar c replacement xs = xs := by
  induction xs with
  | nil => rfl
  | cons g rest ih =>
    rw [List.mem_cons, not_or] at h
    have hrest := ih h.2
    rw [replaceChar] at hrest ⊢
    rw [List.flatMap_cons, if_neg (Ne.symm h.1), hrest]
    rfl

end Glyph

namespace MarkerForm

open Glyph

/-! ### Keys -/

attribute [local simp] quoteLiteralKeys quoteNameKeys

theorem quoteLiteralKeys_append {xs : List Glyph} (h : ∀ g ∈ xs, g.isLiteral = false)
    (ys : List Glyph) : quoteLiteralKeys (xs ++ ys) = xs ++ quoteLiteralKeys ys := by
  induction xs with
  | nil => rfl
  | cons g rest ih =>
    cases g with
    | literal t => cases h _ List.mem_cons_self
    | char c =>
      rw [List.cons_append, List.cons_append, quoteLiteralKeys,
        ih fun k hk => h k (List.mem_cons_of_mem _ hk)]
      exact fun _ _ _ hg => by cases hg

/-- A literal is no key unless a colon or a mark follows. -/
theorem quoteLiteralKeys_literal (text : List Char) {ys : List Glyph}
    (h : ∀ g ∈ ys.head?, g ≠ char ':' ∧ g ≠ char optionalMark) :
    quoteLiteralKeys (literal text :: ys) = literal text :: quoteLiteralKeys ys := by
  cases ys with
  | nil => rfl
  | cons g rest =>
    have hg := h g rfl
    rw [quoteLiteralKeys, if_neg hg.1, if_neg fun hm => hg.2 hm.1]

/-- Keys are respelled on either side of a border with no end of a key behind it. -/
theorem quoteLiteralKeys_cut (xs : List Glyph) {g : Glyph} (hc : g ≠ char ':')
    (hm : g ≠ char optionalMark) (ys : List Glyph) :
    quoteLiteralKeys (xs ++ g :: ys) = quoteLiteralKeys xs ++ quoteLiteralKeys (g :: ys) := by
  fun_induction quoteLiteralKeys xs with
  | case1 u rest ih =>
    rw [List.cons_append, List.cons_append, quoteLiteralKeys, if_pos rfl, ← List.cons_append, ih,
      List.cons_append]
  | case2 u k rest hk hmark ih =>
    obtain ⟨rest', rfl⟩ := List.head?_eq_some_iff.1 hmark.2
    rw [List.cons_append, List.cons_append, quoteLiteralKeys, if_neg hk, if_pos ⟨hmark.1, rfl⟩, ih,
      List.cons_append]
  | case3 u k rest hk hmark ih =>
    have hnext : ¬ (k = char optionalMark ∧ (rest ++ g :: ys).head? = some (char ':')) := by
      rintro ⟨hkm, hhead⟩
      cases rest with
      | nil => exact hc (Option.some.inj hhead)
      | cons l rest => exact hmark ⟨hkm, hhead⟩
    rw [List.cons_append, List.cons_append, quoteLiteralKeys, if_neg hk, if_neg hnext,
      ← List.cons_append, ih, List.cons_append]
  | case4 k rest hne ih =>
    cases k with
    | char c => simpa [quoteLiteralKeys] using ih
    | literal u =>
      cases rest with
      | nil => exact quoteLiteralKeys_literal u (by rintro k ⟨⟩; exact ⟨hc, hm⟩)
      | cons l rest => exact (hne u l rest rfl rfl).elim
  | case5 => rfl

/-- A text without colons holds no literal that is a key. -/
theorem quoteLiteralKeys_eq_self {xs : List Glyph} (hx : char ':' ∉ xs) :
    quoteLiteralKeys xs = xs := by
  fun_induction quoteLiteralKeys xs with
  | case1 u rest ih => exact absurd (by simp) hx
  | case2 u k rest hk hmark ih =>
    exact absurd (by simp [List.mem_of_mem_head? hmark.2]) hx
  | case3 u k rest hk hmark ih => rw [ih fun hm => hx (List.mem_cons_of_mem _ hm)]
  | case4 k rest hne ih => rw [ih fun hm => hx (List.mem_cons_of_mem _ hm)]
  | case5 => rfl

/-- A text without colons holds no literal that is a key, unless one lies across its end. -/
theorem quoteLiteralKeys_run {xs ys : List Glyph} (hx : char ':' ∉ xs)
    (hy : ∀ g ∈ ys.head?, g ≠ char ':' ∧ g ≠ char optionalMark) :
    quoteLiteralKeys (xs ++ ys) = xs ++ quoteLiteralKeys ys := by
  cases ys with
  | nil => rw [List.append_nil, quoteLiteralKeys_eq_self hx, quoteLiteralKeys, List.append_nil]
  | cons g rest =>
    have hg := hy g rfl
    rw [quoteLiteralKeys_cut xs hg.1 hg.2, quoteLiteralKeys_eq_self hx]

theorem quoteLiteralKeys_key (text : List Char) (ys : List Glyph) :
    quoteLiteralKeys (literal text :: char ':' :: ys)
      = literal (keyOfLiteral text false) :: char ':' :: quoteLiteralKeys ys := by
  rw [quoteLiteralKeys, if_pos rfl]
  exact congrArg _ (@quoteLiteralKeys_append [char ':'] (by simp [isLiteral]) ys)

theorem quoteLiteralKeys_markedKey (text : List Char) (ys : List Glyph) :
    quoteLiteralKeys (literal text :: char optionalMark :: char ':' :: ys)
      = literal (keyOfLiteral text true) :: char ':' :: quoteLiteralKeys ys := by
  rw [quoteLiteralKeys, if_neg (by decide), if_pos ⟨rfl, rfl⟩]
  exact congrArg _ (@quoteLiteralKeys_append [char ':'] (by simp [isLiteral]) ys)

/-- Where no name starts, it does not matter whether a literal stands before. -/
theorem quoteNameKeys_flag {ys : List Glyph} (h : ∀ g ∈ ys.head?, isKeyGlyph g = false)
    (flag other : Bool) : quoteNameKeys flag ys = quoteNameKeys other ys := by
  cases ys with
  | nil => simp
  | cons g rest => simp [h g rfl]

theorem quoteNameKeys_cons {g : Glyph} (h : isKeyGlyph g = false) (flag : Bool)
    (ys : List Glyph) : quoteNameKeys flag (g :: ys) = g :: quoteNameKeys g.isLiteral ys := by
  simp [h]

theorem span_append {p : Glyph → Bool} (xs : List Glyph) {ys : List Glyph}
    (h : ∀ g ∈ ys.head?, p g = false) :
    (xs ++ ys).takeWhile p = xs.takeWhile p ∧ (xs ++ ys).dropWhile p = xs.dropWhile p ++ ys := by
  induction xs with
  | nil =>
    cases ys with
    | nil => exact ⟨rfl, rfl⟩
    | cons g rest =>
      have hg : ¬ p g = true := by simp [h g rfl]
      exact ⟨List.takeWhile_cons_of_neg hg, List.dropWhile_cons_of_neg hg⟩
  | cons g rest ih =>
    by_cases hg : p g = true
    · simp [hg, ih]
    · simp [hg]

theorem quoteRun_of_head {after : List Glyph} (h : after.head? ≠ some (char ':')) (flag : Bool)
    (run : List Glyph) : quoteRun flag run after = run := by
  unfold quoteRun
  dsimp only
  rw [if_neg (by simp [h])]

/-- Whether a run is a key depends on the next glyph only. -/
theorem quoteRun_append (flag : Bool) (run after : List Glyph) {g : Glyph} (hg : g ≠ char ':')
    (ys : List Glyph) : quoteRun flag run (after ++ g :: ys) = quoteRun flag run after := by
  cases after with
  | nil => rw [quoteRun_of_head (by simpa using hg), quoteRun_of_head (by simp)]
  | cons k rest => rfl

/-- Names are put in quotes on either side of a border that no name and no colon is behind. -/
theorem quoteNameKeys_cut (flag : Bool) (xs : List Glyph) {g : Glyph}
    (hk : isKeyGlyph g = false) (hc : g ≠ char ':') (ys : List Glyph) :
    quoteNameKeys flag (xs ++ g :: ys)
      = quoteNameKeys flag xs ++ quoteNameKeys false (g :: ys) := by
  have hy : ∀ k ∈ (g :: ys).head?, isKeyGlyph k = false := by
    rintro k ⟨⟩
    exact hk
  induction hn : xs.length using Nat.strongRecOn generalizing xs flag with
  | ind n ih =>
    subst hn
    cases xs with
    | nil =>
      rw [quoteNameKeys, List.nil_append, List.nil_append]
      exact quoteNameKeys_flag hy flag false
    | cons k rest =>
      by_cases hkey : isKeyGlyph k = true
      · obtain ⟨htake, hdrop⟩ := span_append rest hy
        have hlen := (List.dropWhile_sublist (l := rest) isKeyGlyph).length_le
        rw [List.cons_append, quoteNameKeys, quoteNameKeys, if_pos hkey, if_pos hkey]
        dsimp only
        rw [htake, hdrop, quoteRun_append _ _ _ hc, ih _ (Nat.lt_succ_of_le hlen) _ _ rfl,
          List.append_assoc]
      · rw [List.cons_append, quoteNameKeys_cons (by simpa using hkey),
          quoteNameKeys_cons (by simpa using hkey), ih _ (Nat.lt_succ_self _) _ _ rfl]
        rfl

/-- A text without colons holds no key. -/
theorem quoteNameKeys_eq_self {xs : List Glyph} (hx : char ':' ∉ xs) (flag : Bool) :
    quoteNameKeys flag xs = xs := by
  fun_induction quoteNameKeys flag xs with
  | case1 => rfl
  | case2 flag g rest hg after ih =>
    have hafter : char ':' ∉ after := fun hm =>
      hx (List.mem_cons_of_mem _ ((List.dropWhile_sublist _).subset hm))
    rw [quoteRun_of_head fun hh => hafter (List.mem_of_mem_head? hh), ih hafter, List.cons_append,
      List.takeWhile_append_dropWhile]
  | case3 flag g rest hg ih => rw [ih fun hm => hx (List.mem_cons_of_mem _ hm)]

/-- A text without colons holds no key, unless one lies across its end. -/
theorem quoteNameKeys_append {xs ys : List Glyph} (hx : char ':' ∉ xs)
    (hy : ∀ g ∈ ys.head?, isKeyGlyph g = false ∧ g ≠ char ':') (flag : Bool) :
    quoteNameKeys flag (xs ++ ys) = xs ++ quoteNameKeys false ys := by
  cases ys with
  | nil => rw [List.append_nil, quoteNameKeys_eq_self hx, quoteNameKeys, List.append_nil]
  | cons g rest =>
    have hg := hy g rfl
    rw [quoteNameKeys_cut flag xs hg.1 hg.2, quoteNameKeys_eq_self hx]

/-- A run of key characters before a colon is a key. -/
theorem quoteNameKeys_key {run : List Glyph} (hne : run ≠ [])
    (h : ∀ g ∈ run, isKeyGlyph g = true) (ys : List Glyph) :
    quoteNameKeys false (run ++ char ':' :: ys)
      = char '"' :: (run ++ [char '"', char ':']) ++ quoteNameKeys false ys := by
  have hcolon : ∀ g ∈ (char ':' :: ys).head?, isKeyGlyph g = false := by
    rintro g ⟨⟩
    decide
  cases run with
  | nil => exact absurd rfl hne
  | cons g rest =>
    have hall : ∀ k ∈ rest, isKeyGlyph k = true := fun k hk => h k (List.mem_cons_of_mem _ hk)
    obtain ⟨htake, hdrop⟩ := span_append rest hcolon
    rw [List.takeWhile_eq_self_iff.2 hall] at htake
    rw [List.dropWhile_eq_nil_iff.2 hall, List.nil_append] at hdrop
    rw [List.cons_append, quoteNameKeys, if_pos (h g List.mem_cons_self)]
    dsimp only
    rw [htake, hdrop, quoteNameKeys_cons (hcolon _ rfl)]
    simp [quoteRun, isLiteral]

/-! ### Indexers -/

theorem closesAsIndexer_append {xs : List Glyph} (hne : xs ≠ [])
    (h : ∀ g ∈ xs, isBracket g = false) (ys : List Glyph) :
    closesAsIndexer (xs ++ char ']' :: char ':' :: ys) = true := by
  have hall : ∀ g ∈ xs, (!isBracket g) = true := fun g hg => by simp [h g hg]
  obtain ⟨htake, hdrop⟩ := @span_append (fun g => !isBracket g) xs
    (char ']' :: char ':' :: ys) (by rintro g ⟨⟩; decide)
  rw [List.takeWhile_eq_self_iff.2 hall] at htake
  rw [List.dropWhile_eq_nil_iff.2 hall, List.nil_append] at hdrop
  rw [closesAsIndexer, htake, hdrop]
  simpa using hne

theorem unwrapIndexers_append {xs : List Glyph} (h : ∀ g ∈ xs, isBracket g = false)
    (inside : Bool) (ys : List Glyph) :
    unwrapIndexers inside (xs ++ ys) = xs ++ unwrapIndexers inside ys := by
  induction xs with
  | nil => rfl
  | cons g rest ih =>
    have hg := h g List.mem_cons_self
    simp only [isBracket, Bool.or_eq_false_iff, beq_eq_false_iff_ne] at hg
    rw [List.cons_append, List.cons_append, unwrapIndexers, if_neg fun hb => hg.1 hb.1,
      if_neg fun hb => hg.2 hb.2, ih fun k hk => h k (List.mem_cons_of_mem _ hk)]

/-- The brackets of an indexer are dropped. -/
theorem unwrapIndexers_indexer {xs : List Glyph} (hne : xs ≠ [])
    (h : ∀ g ∈ xs, isBracket g = false) (ys : List Glyph) :
    unwrapIndexers false (char '[' :: (xs ++ char ']' :: char ':' :: ys))
      = xs ++ char ':' :: unwrapIndexers false ys := by
  rw [unwrapIndexers, if_pos ⟨rfl, closesAsIndexer_append hne h ys⟩, unwrapIndexers_append h,
    unwrapIndexers, if_neg (by simp), if_pos ⟨rfl, rfl⟩]
  exact congrArg _ (@unwrapIndexers_append [char ':'] (by simp [isBracket]) false ys)

theorem hasNamedIndexer_append {xs : List Glyph} (h : char '[' ∉ xs) (ys : List Glyph) :
    hasNamedIndexer (xs ++ ys) = hasNamedIndexer ys := by
  induction xs with
  | nil => rfl
  | cons g rest ih =>
    rw [List.mem_cons, not_or] at h
    rw [List.cons_append, hasNamedIndexer, startsNamedIndexer, ih h.2]
    simp [Ne.symm h.1]

end MarkerForm

namespace Token

open Glyph

/-! ### Tokens -/

theorem punctuation?_ne_name (c : Char) : punctuation? c ≠ some .name := by
  unfold punctuation?
  split <;> simp

theorem ofGlyphs_cons {g : Glyph} (h : ∀ c, g = char c → punctuation? c = none)
    (ys : List Glyph) : ofGlyphs (g :: ys) = prependName g.chars (ofGlyphs ys) := by
  cases g with
  | literal t => rfl
  | char c => rw [ofGlyphs, h c rfl, Glyph.chars]

/-- Text is a name in front of anything but a name. -/
theorem prependName_of_ne {kind : TokenKind} (h : kind ≠ .name) (text : List Char) (s : String)
    (rest : List Token) : prependName text (⟨kind, s⟩ :: rest)
      = ⟨.name, String.ofList text⟩ :: ⟨kind, s⟩ :: rest := by
  rw [prependName]
  rintro _ _ ⟨⟩
  exact h rfl

/-- Text put in front goes into a leading name, or else is a name. -/
theorem prependName_cases (tokens : List Token) :
    (∃ s rest, tokens = ⟨.name, s⟩ :: rest ∧ ∀ text, prependName text tokens
        = ⟨.name, String.ofList (text ++ s.toList)⟩ :: rest)
      ∨ ∀ text, prependName text tokens = ⟨.name, String.ofList text⟩ :: tokens := by
  cases tokens with
  | nil => exact .inr fun _ => rfl
  | cons t rest =>
    obtain ⟨kind, s⟩ := t
    by_cases hk : kind = .name
    · subst hk
      exact .inl ⟨s, rest, rfl, fun _ => rfl⟩
    · exact .inr fun text => prependName_of_ne hk text s rest

/-- What stands between two pieces of punctuation is one name. -/
theorem ofGlyphs_append {run ys : List Glyph} (hne : run ≠ [])
    (hrun : ∀ c, char c ∈ run → punctuation? c = none)
    (hy : ∀ g ∈ ys.head?, ∃ c kind, g = char c ∧ punctuation? c = some kind) :
    ofGlyphs (run ++ ys) = ⟨.name, String.ofList (textOf run)⟩ :: ofGlyphs ys := by
  have hlast : ∀ text, prependName text (ofGlyphs ys)
      = ⟨.name, String.ofList text⟩ :: ofGlyphs ys := by
    intro text
    cases ys with
    | nil => rfl
    | cons g rest =>
      obtain ⟨c, kind, rfl, hc⟩ := hy g rfl
      have hkind : kind ≠ .name := fun hk => punctuation?_ne_name c (hk ▸ hc)
      rw [ofGlyphs, hc]
      exact prependName_of_ne hkind text _ _
  induction run with
  | nil => exact absurd rfl hne
  | cons g rest ih =>
    rw [List.cons_append, ofGlyphs_cons fun c hc => hrun c (hc ▸ List.mem_cons_self)]
    cases rest with
    | nil =>
      rw [List.nil_append, hlast]
      simp [textOf]
    | cons k rest =>
      rw [ih (by simp) fun c hc => hrun c (List.mem_cons_of_mem _ hc), prependName,
        String.toList_ofList]
      simp [textOf]

end Token

end StructuralTypes

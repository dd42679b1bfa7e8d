import StructuralTypes.Proofs.Placeholders
import StructuralTypes.Token.Gap

/-! Layout is invisible. Outside of literals and comments a gap can be put in any place of an
annotation: its literals and comments are found where they were found before, and without
comments and blanks the source is the same. -/

namespace StructuralTypes

namespace Glyph

/-! ### Literals found again -/

theorem QuotesClosed.left {xs ys : List Glyph} (h : QuotesClosed (xs ++ ys)) : QuotesClosed xs :=
  fun c hc => h c (List.mem_append_left _ hc)

theorem QuotesClosed.right {xs ys : List Glyph} (h : QuotesClosed (xs ++ ys)) : QuotesClosed ys :=
  fun c hc => h c (List.mem_append_right _ hc)

/-- A text cut between two glyphs is found again in its parts. -/
theorem recognized_of_cut {s : List Char} {front back : List Glyph}
    (hcut : ofChars s = front ++ back) (hq : QuotesClosed (front ++ back)) :
    Recognized front ∧ Recognized back := by
  have hl : ∀ text, literal text ∈ front ++ back → literal? text = some (text, []) :=
    fun text ht => literal?_of_mem_ofChars (hcut ▸ ht)
  exact ⟨recognized_of_whole hq.left fun t ht => hl t (List.mem_append_left _ ht),
    recognized_of_whole hq.right fun t ht => hl t (List.mem_append_right _ ht)⟩

/-! ### Remarks -/

/-- No literal reaches over a line break. -/
theorem literalBody?_line {quote : Char} {s : List Char} (hq : quote ≠ '\n') (hs : '\n' ∉ s)
    (h : literalBody? quote s = none) (rest : List Char) :
    literalBody? quote (s ++ '\n' :: rest) = none := by
  fun_induction literalBody? quote s with
  | case1 => rw [List.nil_append, literalBody?_cons (by decide), if_neg hq.symm, if_pos rfl]
  | case2 => rfl
  | case3 => simp at hs
  | case4 c s hc ih =>
    simp only [List.mem_cons, not_or] at hs
    rw [List.cons_append, List.cons_append, literalBody?, if_neg hc,
      ih hs.2.2 (Option.map_eq_none_iff.1 h)]
    rfl
  | case5 => cases h
  | case6 => simp at hs
  | case7 c s hne hns hc hn ih =>
    simp only [List.mem_cons, not_or] at hs
    have hb : c ≠ '\\' := by
      rintro rfl
      cases s with
      | nil => exact hne rfl rfl
      | cons d s => exact hns d s rfl rfl
    rw [List.cons_append, literalBody?_cons hb, if_neg hc, if_neg hn,
      ih hs.2 (Option.map_eq_none_iff.1 h)]
    rfl

theorem literal?_line {c : Char} {s : List Char} (hs : '\n' ∉ c :: s)
    (h : literal? (c :: s) = none) (rest : List Char) :
    literal? (c :: (s ++ '\n' :: rest)) = none := by
  rw [literal?] at h ⊢
  split at h
  · rename_i hq
    have hne : c ≠ '\n' := by
      rintro rfl
      simp at hs
    rw [if_pos hq, literalBody?_line hne (fun hm => hs (List.mem_cons_of_mem _ hm))
      (Option.map_eq_none_iff.1 h)]
    rfl
  · rename_i hq
    rw [if_neg hq]

theorem ofChars_char {c : Char} {s : List Char} (h : literal? (c :: s) = none) :
    ofChars (c :: s) = char c :: ofChars s := by
  rw [ofChars]
  split
  · rename_i hl
    rw [h] at hl
    cases hl
  · rfl

/-- The glyphs of a line do not depend on the lines after it. -/
theorem ofChars_line {s : List Char} (hs : '\n' ∉ s) (rest : List Char) :
    ofChars (s ++ '\n' :: rest) = ofChars s ++ char '\n' :: ofChars rest := by
  fun_induction ofChars s with
  | case1 => exact ofChars_char rfl
  | case2 c s text after hl ih =>
    have hafter : '\n' ∉ after := by
      intro hm
      rw [literal?_eq_some hl] at hs
      exact hs (List.mem_append_right _ hm)
    rw [ofChars_of_literal? (literal?_append hl _), ih hafter, List.cons_append]
  | case3 c s hl ih =>
    rw [List.cons_append, ofChars_char (literal?_line hs hl rest),
      ih fun hm => hs (List.mem_cons_of_mem _ hm), List.cons_append]

/-! ### Comments -/

/-- A comment is dropped up to the end of its line. -/
theorem dropComments_line {line : List Glyph} (h : char '\n' ∉ line) (gs : List Glyph) :
    dropComments true (line ++ char '\n' :: gs) = char '\n' :: dropComments false gs := by
  induction line with
  | nil => rw [List.nil_append, dropComments, if_pos rfl]
  | cons g line ih =>
    rw [List.mem_cons, not_or] at h
    rw [List.cons_append, dropComments, if_neg (Ne.symm h.1), ih h.2]

theorem visible_append {front back : List Glyph} (hend : ¬ EndsInComment front)
    (hslash : ¬ (front.getLast? = some (char '/') ∧ back.head? = some (char '/'))) :
    visible (front ++ back) = visible front ++ visible back := by
  rw [visible, dropComments_append (by simp) hend hslash, dropLayout_append]
  rfl

theorem visible_layout {g : Glyph} (h : g.isLayout = true) (gs : List Glyph) :
    visible (g :: gs) = visible gs := by
  have hne : g ≠ char '/' := by
    rintro rfl
    exact absurd h (by decide)
  rw [visible, dropComments_cons hne, dropLayout, List.filter_cons, h]
  rfl

theorem visible_blanks {blanks : List Glyph} (h : ∀ g ∈ blanks, g.isLayout = true)
    (gs : List Glyph) : visible (blanks ++ gs) = visible gs := by
  induction blanks with
  | nil => rfl
  | cons g blanks ih =>
    rw [List.cons_append, visible_layout (h g List.mem_cons_self),
      ih fun k hk => h k (List.mem_cons_of_mem _ hk)]

theorem visible_comment {line : List Glyph} (h : char '\n' ∉ line) (gs : List Glyph) :
    visible (char '/' :: char '/' :: (line ++ char '\n' :: gs)) = visible gs := by
  have hdrop : dropComments false (char '/' :: char '/' :: (line ++ char '\n' :: gs))
      = char '\n' :: dropComments false gs := by
    rw [dropComments, if_pos ⟨rfl, rfl⟩, dropComments_line h]
  rw [visible, hdrop, dropLayout, List.filter_cons]
  rfl

/-- Blanks put between two parts of a source are not seen. -/
theorem visible_insert_blanks {front back blanks : List Glyph} (hend : ¬ EndsInComment front)
    (hmeet : ¬ (front.getLast? = some (char '/') ∧ back.head? = some (char '/')))
    (hlayout : ∀ g ∈ blanks, g.isLayout = true) :
    visible (front ++ (blanks ++ back)) = visible (front ++ back) := by
  cases blanks with
  | nil => rfl
  | cons g blanks =>
    have hapart : ¬ (front.getLast? = some (char '/')
        ∧ (g :: blanks ++ back).head? = some (char '/')) := by
      rintro ⟨-, hhead⟩
      have hg := hlayout g List.mem_cons_self
      rw [Option.some.inj hhead] at hg
      exact absurd hg (by decide)
    rw [visible_append hend hapart, visible_blanks hlayout, visible_append hend hmeet]

/-- Nor is a comment with its line break. -/
theorem visible_insert_comment {front back line : List Glyph} (hend : ¬ EndsInComment front)
    (hlast : front.getLast? ≠ some (char '/')) (hline : char '\n' ∉ line) :
    visible (front ++ char '/' :: char '/' :: (line ++ char '\n' :: back))
      = visible (front ++ back) := by
  rw [visible_append hend fun h => hlast h.1, visible_comment hline,
    visible_append hend fun h => hlast h.1]

theorem getLast?_textOf {gs : List Glyph} {c : Char} (h : gs.getLast? = some (char c)) :
    (textOf gs).getLast? = some c := by
  obtain ⟨before, rfl⟩ := List.getLast?_eq_some_iff.1 h
  simp [textOf, chars]

theorem head?_textOf {gs : List Glyph} {c : Char} (h : gs.head? = some (char c)) :
    (textOf gs).head? = some c := by
  cases gs with
  | nil => cases h
  | cons g rest =>
    cases h
    rfl

end Glyph

theorem Recognized.ofChars_textOf {gs : List Glyph} (h : Recognized gs) :
    Glyph.ofChars (Glyph.textOf gs) = gs := by
  have hnil := h []
  rwa [List.append_nil, Glyph.ofChars, List.append_nil] at hnil

/-! ### The source of a marker form -/

namespace MarkerForm

open Glyph

/-- The marker form of a source without comments and blanks. -/
def ofVisible (source : List Glyph) : Except Cause (List Glyph) :=
  let trimmed := danglingOperators.foldl (fun gs p => replaceWord p.1 [p.2] gs)
    (trimOperators source)
  if !(reservedIn trimmed).isEmpty then
    .error (.reservedCharacters (String.ofList (reservedIn trimmed)))
  else if hasNamedIndexer (markShapes (quoteKeys trimmed)) then .error .namedIndexer
  else .ok (markSequences (unwrapIndexers false (markShapes (quoteKeys trimmed))))

theorem ofText_eq {text : String} (h : Char.ofNat 0 ∉ text.toList) :
    ofText text = (ofVisible (visible (Glyph.ofChars text.toList))).mapError
      fun cause => ⟨cause, some text⟩ := by
  have hnul : text.toList.contains (Char.ofNat 0) = false := by simpa using h
  unfold ofText ofVisible squeeze visible
  simp only [hnul]
  generalize danglingOperators.foldl _ _ = trimmed
  by_cases hr : (!(reservedIn trimmed).isEmpty) = true
  · simp only [hr, if_true]
    rfl
  · by_cases hn : hasNamedIndexer (markShapes (quoteKeys trimmed)) = true
    · simp only [hr, hn, if_true]
      rfl
    · simp only [hr, hn]
      rfl

end MarkerForm

namespace Token

open Glyph MarkerForm

/-- Annotations that read the same apart from comments and blanks have the same tokens, or
are refused for the same cause. -/
theorem scan_of_visible {text other : String} (htext : Char.ofNat 0 ∉ text.toList)
    (hother : Char.ofNat 0 ∉ other.toList)
    (h : visible (Glyph.ofChars text.toList) = visible (Glyph.ofChars other.toList)) :
    (∃ tokens, scan text = .ok tokens ∧ scan other = .ok tokens)
      ∨ ∃ cause, scan text = .error ⟨cause, some text⟩
          ∧ scan other = .error ⟨cause, some other⟩ := by
  rw [scan, scan, ofText_eq htext, ofText_eq hother, h]
  cases ofVisible (visible (Glyph.ofChars other.toList)) with
  | ok glyphs => exact .inl ⟨_, rfl, rfl⟩
  | error cause => exact .inr ⟨cause, rfl, rfl⟩

end Token

/-- A gap between two parts of a source is not seen in it. -/
theorem Gap.visible_eq {s gap : List Char} {front back : List Glyph}
    (hcut : Glyph.ofChars s = front ++ back) (hq : Glyph.QuotesClosed (front ++ back))
    (hend : ¬ Glyph.EndsInComment front)
    (hgap : Gap (Glyph.textOf front) (Glyph.textOf back) gap) :
    Glyph.visible (Glyph.ofChars (Glyph.textOf front ++ (gap ++ Glyph.textOf back)))
      = Glyph.visible (front ++ back) := by
  obtain ⟨hfront, hback⟩ := Glyph.recognized_of_cut hcut hq
  rw [hfront]
  cases hgap with
  | blanks hblank hslash =>
    have hquote : ∀ c ∈ gap, Escapes.isQuote c = false := by
      have hblanks : ∀ c ∈ [' ', '\t', '\r', '\n'], Escapes.isQuote c = false := by decide
      exact fun c hc => hblanks c (hblank c hc)
    have hlayout : ∀ g ∈ gap.map Glyph.char, g.isLayout = true := by
      have hblanks : ∀ c ∈ [' ', '\t', '\r', '\n'], (Glyph.char c).isLayout = true := by decide
      intro g hg
      obtain ⟨c, hc, rfl⟩ := List.mem_map.1 hg
      exact hblanks c (hblank c hc)
    have hmeet : ¬ (front.getLast? = some (.char '/') ∧ back.head? = some (.char '/')) :=
      fun h => hslash ⟨Glyph.getLast?_textOf h.1, Glyph.head?_textOf h.2⟩
    rw [Glyph.ofChars_append_of_plain hquote, hback.ofChars_textOf,
      Glyph.visible_insert_blanks hend hmeet hlayout]
  | comment hline hnul hslash =>
    rename_i remark
    have hlast : front.getLast? ≠ some (.char '/') :=
      fun h => hslash (Glyph.getLast?_textOf h)
    have hremark : Glyph.char '\n' ∉ Glyph.ofChars remark := by
      intro hm
      have htext := Glyph.char_mem_textOf hm
      rw [Glyph.textOf_ofChars] at htext
      exact hline htext
    have hglyphs : Glyph.ofChars ('/' :: '/' :: (remark ++ ['\n']) ++ Glyph.textOf back)
        = .char '/' :: .char '/' :: (Glyph.ofChars remark ++ .char '\n' :: back) := by
      rw [List.cons_append, List.cons_append, List.append_assoc, List.singleton_append,
        Glyph.ofChars_char rfl, Glyph.ofChars_char rfl, Glyph.ofChars_line hline,
        hback.ofChars_textOf]
    rw [hglyphs, Glyph.visible_insert_comment hend hlast hremark]

theorem Gap.nul_not_mem {before after gap : List Char} (h : Gap before after gap) :
    Char.ofNat 0 ∉ gap := by
  cases h with
  | blanks hblank _ => exact fun hm => absurd (hblank _ hm) (by decide)
  | comment hline hnul _ => simpa using hnul

namespace Token

open Glyph

/-- A gap outside of literals and comments does not change the tokens of an annotation, nor
the cause for which it is refused. That holds for the text with placeholders as well, where a
literal in a comment shifts the numbers of those behind it. -/
theorem scan_gap {text : String} {front back : List Glyph} {gap : List Char}
    (hcut : ofChars text.toList = front ++ back) (hnul : Char.ofNat 0 ∉ text.toList)
    (hquotes : QuotesClosed (front ++ back)) (hcomment : ¬ EndsInComment front)
    (hgap : Gap (textOf front) (textOf back) gap) :
    let other := String.ofList (textOf front ++ (gap ++ textOf back))
    ((∃ tokens, scan text = .ok tokens ∧ scan other = .ok tokens)
        ∨ ∃ cause, scan text = .error ⟨cause, some text⟩ ∧ scan other = .error ⟨cause, some other⟩)
      ∧ Placeholder.scan text = (scan text).map some
      ∧ Placeholder.scan other = (scan other).map some := by
  intro other
  have htext : text.toList = textOf front ++ textOf back := by
    rw [← textOf_append, ← hcut, textOf_ofChars]
  have hnul' : Char.ofNat 0 ∉ textOf front ++ (gap ++ textOf back) := by
    rw [htext, List.mem_append, not_or] at hnul
    simp [hnul.1, hnul.2, hgap.nul_not_mem]
  refine ⟨scan_of_visible hnul (by rwa [String.toList_ofList]) ?_, Placeholder.scan_eq text,
    Placeholder.scan_eq other⟩
  rw [String.toList_ofList, Gap.visible_eq hcut hquotes hcomment hgap, hcut]

/-- A comment in the middle of a word, behind a literal with slashes in it. -/
theorem scan_gap_inWord :
    let text := "\"//\"|Array<x>/"
    let front := [literal "\"//\"".toList, char '|', char 'A', char 'r']
    let back := [char 'r', char 'a', char 'y', char '<', char 'x', char '>', char '/']
    let gap := "// it's [\n".toList
    let other := String.ofList (textOf front ++ (gap ++ textOf back))
    ofChars text.toList = front ++ back ∧ Char.ofNat 0 ∉ text.toList
      ∧ QuotesClosed (front ++ back) ∧ ¬ EndsInComment front
      ∧ Gap (textOf front) (textOf back) gap
      ∧ ((∃ tokens, scan text = .ok tokens ∧ scan other = .ok tokens)
        ∨ ∃ cause, scan text = .error ⟨cause, some text⟩ ∧ scan other = .error ⟨cause, some other⟩)
      ∧ Placeholder.scan text = (scan text).map some
      ∧ Placeholder.scan other = (scan other).map some := by
  intro text front back gap other
  have hcut : ofChars text.toList = front ++ back := by decide +kernel
  have hnul : Char.ofNat 0 ∉ text.toList := by decide
  have hquotes : QuotesClosed (front ++ back) := by
    intro c hc
    simp only [front, back, List.cons_append, List.nil_append, List.mem_cons, Glyph.char.injEq,
      reduceCtorEq, List.not_mem_nil, false_or, or_false] at hc
    rcases hc with rfl | rfl | rfl | rfl | rfl | rfl | rfl | rfl | rfl | rfl <;> rfl
  have hcomment : ¬ EndsInComment front := by
    rintro ⟨before, line, h, -⟩
    have hslash : char '/' ∈ front := by simp [h]
    exact absurd hslash (by decide)
  have hgap : Gap (textOf front) (textOf back) gap :=
    @Gap.comment _ _ " it's [".toList (by decide) (by decide) (by decide)
  exact ⟨hcut, hnul, hquotes, hcomment, hgap, scan_gap hcut hnul hquotes hcomment hgap⟩

end Token

end StructuralTypes

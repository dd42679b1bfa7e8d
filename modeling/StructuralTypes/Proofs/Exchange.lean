import StructuralTypes.Proofs.Gaps

/-! One string literal can be exchanged for another. A literal that is no key is carried
through all passes with surroundings that do not depend on its text, and ends up inside one
name. -/

namespace StructuralTypes

namespace Glyph

variable {t : List Char}

/-! ### The source without layout -/

theorem visible_literal (t : List Char) (gs : List Glyph) :
    visible (literal t :: gs) = literal t :: visible gs := by
  rw [visible, dropComments_cons (by simp)]
  rfl

theorem visible_context {front : List Glyph} (hend : ¬ EndsInComment front) (t : List Char)
    (back : List Glyph) :
    visible (front ++ literal t :: back) = visible front ++ literal t :: visible back := by
  rw [visible_append hend (by simp), visible_literal]

/-- Drops operators at the end. -/
def trimEnd (gs : List Glyph) : List Glyph :=
  (gs.reverse.dropWhile isOperator).reverse

theorem trimOperators_context (xs ys : List Glyph) (t : List Char) :
    trimOperators (xs ++ literal t :: ys) = xs.dropWhile isOperator ++ literal t :: trimEnd ys := by
  have hstop : ∀ zs : List Glyph, ∀ g ∈ (literal t :: zs).head?, isOperator g = false := by
    rintro zs g ⟨⟩
    rfl
  rw [trimOperators, (MarkerForm.span_append xs (hstop ys)).2, List.reverse_append,
    List.reverse_cons, List.append_assoc, List.singleton_append,
    (MarkerForm.span_append ys.reverse (hstop _)).2]
  simp [trimEnd]

theorem trimEnd_isPrefix (gs : List Glyph) : trimEnd gs <+: gs := by
  rw [← List.reverse_suffix, trimEnd, List.reverse_reverse]
  exact List.dropWhile_suffix _

end Glyph

namespace MarkerForm

open Glyph

/-! ### Ends of keys -/

/-- An operator without a left operand is dropped, which leaves the text beginning as before. -/
theorem head?_replaceWord (c d : Char) (gs : List Glyph) :
    (replaceWord [c, d] [c] gs).head? = gs.head? := by
  cases gs with
  | nil => rfl
  | cons g rest =>
    rw [replaceWord, replaceFrom]
    split
    · rename_i h
      obtain ⟨after, hafter⟩ := List.isPrefixOf_iff_prefix.1 h
      rw [← (List.cons.inj hafter).1]
      rfl
    · rfl

theorem isPrefix_of_replaceWord {c d e : Char} (hc : e ≠ c) {gs : List Glyph}
    (h : [e, ':'].map char <+: replaceWord [c, d] [c] gs) : [e, ':'].map char <+: gs := by
  cases gs with
  | nil => exact h
  | cons g rest =>
    rw [replaceWord, replaceFrom] at h
    split at h
    · obtain ⟨after, hafter⟩ := h
      exact absurd (Glyph.char.inj (List.cons.inj hafter).1) hc
    · obtain ⟨after, hafter⟩ := h
      obtain ⟨rfl, hrest⟩ := List.cons.inj hafter
      have hhead := head?_replaceWord c d rest
      rw [replaceWord, ← hrest] at hhead
      obtain ⟨rest', rfl⟩ := List.head?_eq_some_iff.1 hhead.symm
      exact ⟨rest', rfl⟩

/-- Whether a text begins as what follows a key. -/
def BeginsKeyEnd (gs : List Glyph) : Prop :=
  ∃ word ∈ keyEnds, word.map char <+: gs

theorem beginsKeyEnd_iff {gs : List Glyph} :
    BeginsKeyEnd gs ↔ gs.head? = some (char ':') ∨ ['?', ':'].map char <+: gs
      ∨ [optionalMark, ':'].map char <+: gs := by
  have hone : [':'].map char <+: gs ↔ gs.head? = some (char ':') := by
    cases gs <;> simp [eq_comm]
  simp [BeginsKeyEnd, keyEnds, ← hone]

theorem beginsKeyEnd_of_replaceWord {p : List Char × Char} (hp : p ∈ danglingOperators)
    {gs : List Glyph} (h : BeginsKeyEnd (replaceWord p.1 [p.2] gs)) : BeginsKeyEnd gs := by
  have hword : ∀ p ∈ danglingOperators, p.1 = [p.2, p.1.getLast!]
      ∧ '?' ≠ p.2 ∧ optionalMark ≠ p.2 := by decide
  obtain ⟨hw, hq, hm⟩ := hword p hp
  rw [hw] at h
  rw [beginsKeyEnd_iff] at h ⊢
  rw [head?_replaceWord] at h
  exact h.imp_right (Or.imp (isPrefix_of_replaceWord hq) (isPrefix_of_replaceWord hm))

/-- Without operators that have no left operand, the text after a literal begins a key end
only if it did before. -/
theorem foldl_dangling {ops : List (List Char × Char)} (hops : ∀ p ∈ ops, p ∈ danglingOperators)
    (xs ys : List Glyph) : ∃ xs' ys', (¬ BeginsKeyEnd ys → ¬ BeginsKeyEnd ys') ∧ ∀ t,
      ops.foldl (fun gs p => replaceWord p.1 [p.2] gs) (xs ++ literal t :: ys)
        = xs' ++ literal t :: ys' := by
  induction ops generalizing xs ys with
  | nil => exact ⟨xs, ys, id, fun _ => rfl⟩
  | cons p ops ih =>
    have hne : ∀ p ∈ danglingOperators, p.1 ≠ [] := by decide
    have hp := hops p List.mem_cons_self
    obtain ⟨xs', ys', hkey, hfold⟩ := ih (fun q hq => hops q (List.mem_cons_of_mem _ hq))
      (replaceWord p.1 [p.2] xs) (replaceWord p.1 [p.2] ys)
    refine ⟨xs', ys', fun hy => hkey fun h => hy (beginsKeyEnd_of_replaceWord hp h), fun t => ?_⟩
    rw [List.foldl_cons, replaceWord_context (hne p hp), hfold]

theorem BeginsKeyEnd.of_isPrefix {xs ys : List Glyph} (h : BeginsKeyEnd xs) (hp : xs <+: ys) :
    BeginsKeyEnd ys := by
  obtain ⟨word, hword, hxs⟩ := h
  exact ⟨word, hword, hxs.trans hp⟩

/-- A text begins with what no word that is put in begins with only if it did before. -/
theorem head?_of_replaceWord {word replacement : List Char} {c : Char} {gs : List Glyph}
    (hne : replacement ≠ []) (hc : replacement.head? ≠ some c)
    (h : (replaceWord word replacement gs).head? = some (char c)) : gs.head? = some (char c) := by
  obtain ⟨d, more, rfl⟩ := List.exists_cons_of_ne_nil hne
  cases gs with
  | nil => cases h
  | cons g rest =>
    rw [replaceWord, replaceFrom] at h
    split at h
    · exact absurd (congrArg some (Glyph.char.inj (Option.some.inj h))) hc
    · exact h

theorem beginsKeyEnd_of_markOptional {gs : List Glyph}
    (h : (replaceWord ['?', ':'] [optionalMark, ':'] gs).head? = some (char ':')
      ∨ [optionalMark, ':'].map char <+: replaceWord ['?', ':'] [optionalMark, ':'] gs) :
    BeginsKeyEnd gs := by
  rw [beginsKeyEnd_iff]
  rcases h with hhead | hmark
  · exact .inl (head?_of_replaceWord (by simp) (by decide) hhead)
  cases gs with
  | nil => exact .inr (.inr hmark)
  | cons g rest =>
    rw [replaceWord, replaceFrom] at hmark
    split at hmark
    · rename_i hp
      exact .inr (.inl (List.isPrefixOf_iff_prefix.1 hp))
    · obtain ⟨after, hafter⟩ := hmark
      obtain ⟨rfl, hrest⟩ := List.cons.inj hafter
      have hhead : (replaceWord ['?', ':'] [optionalMark, ':'] rest).head? = some (char ':') := by
        rw [replaceWord, ← hrest]
        rfl
      obtain ⟨rest', rfl⟩ := List.head?_eq_some_iff.1
        (head?_of_replaceWord (by simp) (by decide) hhead)
      exact .inr (.inr ⟨rest', rfl⟩)

/-! ### Keys -/

theorem quoteLiteralKeys_next (t : List Char) {ys : List Glyph}
    (h : ¬ (ys.head? = some (char ':') ∨ [optionalMark, ':'].map char <+: ys)) :
    quoteLiteralKeys (literal t :: ys) = literal t :: quoteLiteralKeys ys := by
  cases ys with
  | nil => simp [quoteLiteralKeys]
  | cons g rest =>
    rw [not_or] at h
    rw [quoteLiteralKeys, if_neg fun hg => h.1 (by rw [hg]; rfl), if_neg]
    rintro ⟨rfl, hrest⟩
    obtain ⟨after, rfl⟩ := List.head?_eq_some_iff.1 hrest
    exact h.2 ⟨after, rfl⟩

/-- Keys are respelled on either side of a literal that is none. -/
theorem quoteLiteralKeys_context (xs : List Glyph) {ys : List Glyph}
    (h : ¬ (ys.head? = some (char ':') ∨ [optionalMark, ':'].map char <+: ys)) (t : List Char) :
    quoteLiteralKeys (xs ++ literal t :: ys)
      = quoteLiteralKeys xs ++ literal t :: quoteLiteralKeys ys := by
  rw [quoteLiteralKeys_cut xs (by simp) (by simp), quoteLiteralKeys_next t h]

/-- Keys are put in quotes around a literal that is none. -/
theorem quoteKeys_context (xs : List Glyph) {ys : List Glyph} (h : ¬ BeginsKeyEnd ys) :
    ∃ xs' ys', ∀ t, quoteKeys (xs ++ literal t :: ys) = xs' ++ literal t :: ys' := by
  obtain ⟨xs', ys', hnames⟩ := (opaque_quoteNameKeys false).exists_context
    (quoteLiteralKeys (replaceWord ['?', ':'] [optionalMark, ':'] xs))
    (quoteLiteralKeys (replaceWord ['?', ':'] [optionalMark, ':'] ys))
  refine ⟨xs', ys', fun t => ?_⟩
  rw [quoteKeys, replaceWord_context (by decide),
    quoteLiteralKeys_context _ fun hkey => h (beginsKeyEnd_of_markOptional hkey), hnames]

/-! ### The whole form -/

/-- What is the same for any texts of literals is the same for any text of one of them. -/
theorem eq_of_relabel {α : Type} {look : List Glyph → α}
    (h : ∀ f gs, look (gs.map (relabel f)) = look gs) (xs ys : List Glyph) (t u : List Char) :
    look (xs ++ literal t :: ys) = look (xs ++ literal u :: ys) := by
  rw [← h (fun _ => []), ← h (fun _ => []) (xs ++ literal u :: ys)]
  simp

/-- A literal that is no key ends up in the marker form, in surroundings that do not depend on
its text; nor does the cause of a refusal. -/
theorem ofVisible_context (xs : List Glyph) {ys : List Glyph} (h : ¬ BeginsKeyEnd ys) :
    (∃ xs' ys', ∀ t, ofVisible (xs ++ literal t :: ys) = .ok (xs' ++ literal t :: ys'))
      ∨ ∃ cause, ∀ t, ofVisible (xs ++ literal t :: ys) = .error cause := by
  have hops : ∀ p ∈ danglingOperators, p ∈ danglingOperators := fun _ hp => hp
  obtain ⟨xs₁, ys₁, hkey, htrimmed⟩ :=
    foldl_dangling hops (xs.dropWhile isOperator) (trimEnd ys)
  have hkey₁ := hkey fun hy => h (hy.of_isPrefix (trimEnd_isPrefix ys))
  obtain ⟨xs₂, ys₂, hquoted⟩ := quoteKeys_context xs₁ hkey₁
  obtain ⟨xs₃, ys₃, hshaped⟩ := opaque_markShapes.exists_context xs₂ ys₂
  obtain ⟨xs₄, ys₄, hform⟩ :=
    (opaque_markSequences.comp (opaque_unwrapIndexers false)).exists_context xs₃ ys₃
  have hreserved := fun t => eq_of_relabel (fun _ => reservedIn_relabel) xs₁ ys₁ t []
  have hindexer := fun t => eq_of_relabel (fun _ => hasNamedIndexer_relabel) xs₃ ys₃ t []
  simp only [ofVisible, trimOperators_context, htrimmed, hquoted, hshaped, hform, hreserved,
    hindexer]
  split
  · exact .inr ⟨_, fun _ => rfl⟩
  · split
    · exact .inr ⟨_, fun _ => rfl⟩
    · exact .inl ⟨xs₄, ys₄, fun _ => rfl⟩

end MarkerForm

namespace Token

open Glyph MarkerForm

/-- Only the first token takes on text put in front. -/
theorem prependName_append (text : List Char) (t : Token) (xs ys : List Token) :
    prependName text (t :: xs ++ ys) = prependName text (t :: xs) ++ ys := by
  obtain ⟨kind, s⟩ := t
  by_cases hk : kind = .name
  · subst hk
    rfl
  · rw [List.cons_append, prependName_of_ne hk, prependName_of_ne hk, List.cons_append,
      List.cons_append]

theorem exists_prependName (tokens : List Token) :
    ∃ after r, ∀ text, prependName text tokens
      = ⟨.name, String.ofList (text ++ r)⟩ :: after := by
  rcases prependName_cases tokens with ⟨s, rest, -, hname⟩ | hname
  · exact ⟨rest, s.toList, hname⟩
  · exact ⟨tokens, [], fun text => by rw [hname, List.append_nil]⟩

/-- A literal in a marker form is part of the text of one name. -/
theorem ofGlyphs_context (xs ys : List Glyph) :
    ∃ before after l r, ∀ t, ofGlyphs (xs ++ literal t :: ys)
      = before ++ ⟨.name, String.ofList (l ++ (t ++ r))⟩ :: after := by
  induction xs with
  | nil =>
    obtain ⟨after, r, hname⟩ := exists_prependName (ofGlyphs ys)
    exact ⟨[], after, [], r, hname⟩
  | cons g xs ih =>
    obtain ⟨before, after, l, r, hxs⟩ := ih
    by_cases hg : ∀ c, g = char c → punctuation? c = none
    · cases before with
      | nil =>
        refine ⟨[], after, g.chars ++ l, r, fun t => ?_⟩
        rw [List.cons_append, ofGlyphs_cons hg, hxs, List.nil_append, prependName,
          String.toList_ofList, List.nil_append, List.append_assoc]
      | cons b before =>
        refine ⟨prependName g.chars (b :: before), after, l, r, fun t => ?_⟩
        rw [List.cons_append, ofGlyphs_cons hg, hxs, prependName_append]
    · simp only [not_forall] at hg
      obtain ⟨c, rfl, hc⟩ := hg
      obtain ⟨kind, hkind⟩ := Option.ne_none_iff_exists'.1 hc
      refine ⟨⟨kind, c.toString⟩ :: before, after, l, r, fun t => ?_⟩
      rw [List.cons_append, ofGlyphs, hkind, List.cons_append]
      exact congrArg _ (hxs t)

/-- The text of a literal can be exchanged without a change elsewhere. A literal outside of
comments that is no key stands in one name, and only there its text is another; or the
annotation is refused for a cause that does not depend on it. That holds for the text with
placeholders as well. -/
theorem scan_exchange {text : String} {front back : List Glyph} {q q' : List Char}
    (hcut : ofChars text.toList = front ++ literal q :: back)
    (hnul : Char.ofNat 0 ∉ text.toList) (hquotes : QuotesClosed (front ++ literal q :: back))
    (hcomment : ¬ EndsInComment front) (hkey : ¬ FollowsKey back)
    (hwhole : literal? q' = some (q', [])) (hnul' : Char.ofNat 0 ∉ q') :
    let other := String.ofList (textOf front ++ (q' ++ textOf back))
    ((∃ before after l r,
        scan text = .ok (before ++ ⟨.name, String.ofList (l ++ (q ++ r))⟩ :: after)
        ∧ scan other = .ok (before ++ ⟨.name, String.ofList (l ++ (q' ++ r))⟩ :: after))
      ∨ ∃ cause, scan text = .error ⟨cause, some text⟩ ∧ scan other = .error ⟨cause, some other⟩)
      ∧ Placeholder.scan text = (scan text).map some
      ∧ Placeholder.scan other = (scan other).map some := by
  intro other
  refine ⟨?_, Placeholder.scan_eq text, Placeholder.scan_eq other⟩
  have hback : Recognized back := (recognized_of_cut
    (hcut.trans (List.append_cons front (literal q) back)) (by simpa using hquotes)).2
  have hglyphs : ofChars (textOf front ++ (q' ++ textOf back)) = front ++ literal q' :: back := by
    rw [(recognized_of_cut hcut hquotes).1, ofChars_of_literal? (literal?_append hwhole _),
      List.nil_append, hback.ofChars_textOf]
  have htext : text.toList = textOf front ++ (q ++ textOf back) := by
    rw [← textOf_ofChars text.toList, hcut, textOf_append]
    rfl
  have hother : Char.ofNat 0 ∉ textOf front ++ (q' ++ textOf back) := by
    rw [htext] at hnul
    simp only [List.mem_append, not_or] at hnul ⊢
    exact ⟨hnul.1, hnul', hnul.2.2⟩
  rw [scan, scan, ofText_eq hnul, ofText_eq (by rwa [String.toList_ofList]), String.toList_ofList,
    hcut, hglyphs, visible_context hcomment, visible_context hcomment]
  rcases ofVisible_context (visible front) hkey with ⟨xs, ys, hform⟩ | ⟨cause, hform⟩
  · obtain ⟨before, after, l, r, htokens⟩ := ofGlyphs_context xs ys
    refine .inl ⟨before, after, l, r, ?_, ?_⟩ <;> rw [hform, ← htokens] <;> rfl
  · refine .inr ⟨cause, ?_, ?_⟩ <;> rw [hform] <;> rfl

/-- A literal between a digit and another literal takes on slashes, separators, brackets and
reserved characters. -/
theorem scan_exchange_besideDigit :
    let text := "\"x\"7'q''y'[]"
    let front := [literal "\"x\"".toList, char '7']
    let back := [literal "'y'".toList, char '[', char ']']
    let q := "'q'".toList
    let q' := "\"//$: ]'\"".toList
    let other := String.ofList (textOf front ++ (q' ++ textOf back))
    ofChars text.toList = front ++ literal q :: back ∧ Char.ofNat 0 ∉ text.toList
      ∧ QuotesClosed (front ++ literal q :: back) ∧ ¬ EndsInComment front ∧ ¬ FollowsKey back
      ∧ literal? q' = some (q', []) ∧ Char.ofNat 0 ∉ q'
      ∧ ((∃ before after l r,
          scan text = .ok (before ++ ⟨.name, String.ofList (l ++ (q ++ r))⟩ :: after)
          ∧ scan other = .ok (before ++ ⟨.name, String.ofList (l ++ (q' ++ r))⟩ :: after))
        ∨ ∃ cause, scan text = .error ⟨cause, some text⟩ ∧ scan other = .error ⟨cause, some other⟩)
      ∧ Placeholder.scan text = (scan text).map some
      ∧ Placeholder.scan other = (scan other).map some := by
  intro text front back q q' other
  have hcut : ofChars text.toList = front ++ literal q :: back := by decide +kernel
  have hnul : Char.ofNat 0 ∉ text.toList := by decide
  have hquotes : QuotesClosed (front ++ literal q :: back) := by
    intro c hc
    simp only [front, back, List.cons_append, List.nil_append, List.mem_cons, Glyph.char.injEq,
      reduceCtorEq, List.not_mem_nil, false_or, or_false] at hc
    rcases hc with rfl | rfl | rfl <;> rfl
  have hcomment : ¬ EndsInComment front := by
    rintro ⟨before, line, h, -⟩
    have hslash : char '/' ∈ front := by simp [h]
    exact absurd hslash (by decide)
  have hkey : ¬ FollowsKey back := by
    unfold FollowsKey
    decide
  have hwhole : literal? q' = some (q', []) := by decide
  have hnul' : Char.ofNat 0 ∉ q' := by decide
  exact ⟨hcut, hnul, hquotes, hcomment, hkey, hwhole, hnul',
    scan_exchange hcut hnul hquotes hcomment hkey hwhole hnul'⟩

end Token

end StructuralTypes

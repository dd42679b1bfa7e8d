import StructuralTypes.Proofs.Borders

/-! The first passes over a printed annotation, up to keys in quotes. Each pass turns
pieces in one style into pieces in the next. -/

namespace StructuralTypes

open Glyph MarkerForm

variable {σ τ : Style} {s t : Side} {ps : List Piece}

theorem Fits.valid (h : Fits s ps t) : ∀ p ∈ ps, p.Valid := by
  induction ps generalizing s with
  | nil => simp
  | cons p rest ih =>
    intro q hq
    rcases List.mem_cons.1 hq with rfl | hq
    · exact h.1
    · exact ih h.2.2 q hq

/-! ### Literals -/

theorem textOf_map_char (cs : List Char) : textOf (cs.map char) = cs := by
  induction cs with
  | nil => rfl
  | cons c rest ih =>
    rw [List.map_cons, textOf, List.flatMap_cons]
    exact congrArg (c :: ·) ih

theorem textOf_append (xs ys : List Glyph) : textOf (xs ++ ys) = textOf xs ++ textOf ys :=
  List.flatMap_append

/-- Glyphs that are found again in their text, whatever follows. -/
def Recognized (glyphs : List Glyph) : Prop :=
  ∀ after, ofChars (textOf glyphs ++ after) = glyphs ++ ofChars after

theorem Recognized.append {xs ys : List Glyph} (h : Recognized xs) (h' : Recognized ys) :
    Recognized (xs ++ ys) := by
  intro after
  rw [textOf_append, List.append_assoc, h, h', List.append_assoc]

theorem recognized_chars {cs : List Char} (h : ∀ c ∈ cs, Escapes.isQuote c = false) :
    Recognized (cs.map char) := by
  intro after
  rw [textOf_map_char, ofChars_append_of_plain h]

theorem recognized_literal {text : List Char}
    (h : ∀ after, literal? (text ++ after) = some (text, after)) : Recognized [literal text] := by
  intro after
  have htext : textOf [literal text] = text := by simp [textOf, chars]
  rw [htext, ofChars_of_literal? (h after)]
  rfl

/-- Literals by themselves, and characters that are no quotes, are found again. -/
theorem recognized_of_whole {gs : List Glyph} (hq : QuotesClosed gs)
    (hl : ∀ text, literal text ∈ gs → literal? text = some (text, [])) : Recognized gs := by
  induction gs with
  | nil => exact fun _ => rfl
  | cons g rest ih =>
    have hrest := ih (fun c hc => hq c (List.mem_cons_of_mem _ hc))
      fun t ht => hl t (List.mem_cons_of_mem _ ht)
    have hg : Recognized [g] := by
      cases g with
      | char c => exact @recognized_chars [c] (by simpa using hq c List.mem_cons_self)
      | literal t =>
        apply recognized_literal
        intro after
        simpa using literal?_append (hl t List.mem_cons_self) after
    exact hg.append hrest

theorem recognized_nameGlyphs {text : String} (h : Node.isLegibleName text = true) :
    Recognized (nameGlyphs text) := by
  refine recognized_of_whole (fun c hc => ?_) fun t ht => literal?_of_mem_ofChars ht
  by_contra hq
  rw [Bool.not_eq_false, Escapes.isQuote, Bool.or_eq_true, beq_iff_eq, beq_iff_eq] at hq
  refine not_mem_nameGlyphs h ?_ hc
  rcases hq with rfl | rfl <;> decide

theorem recognized_keyGlyphs {key : String} (h : Node.isQuotableKey key = true) :
    Recognized (keyGlyphs key) := by
  unfold keyGlyphs
  split
  · rename_i hb
    refine recognized_chars fun c hc => Bool.eq_false_iff.2 fun hq => ?_
    rw [Escapes.isQuote, Bool.or_eq_true, beq_iff_eq, beq_iff_eq] at hq
    refine not_mem_specials ((bareKey_chars h hb).2 c hc) ?_
    rcases hq with rfl | rfl <;> decide
  · refine recognized_literal fun after => ?_
    have hlit := literal?_append (Node.isQuotableKey_iff.1 h).2.2 after
    simpa [quotedKey] using hlit

theorem recognized_spell {p : Piece} (hp : p.Valid) : Recognized (Style.printed.spell p) := by
  cases p with
  | sign s =>
    have hs : ∀ s : Sign, ∀ c ∈ s.printed, Escapes.isQuote c = false :=
      Sign.forall_of_all (by decide)
    exact recognized_chars (hs s)
  | name text => exact recognized_nameGlyphs hp
  | key k optional =>
    refine (recognized_keyGlyphs hp).append (recognized_chars ?_)
    cases optional <;> decide
  | indexer name =>
    have hopen : Recognized (['['].map char) := recognized_chars (by decide)
    have hclose : Recognized ([']', ':', ' '].map char) := recognized_chars (by decide)
    exact hopen.append ((recognized_nameGlyphs hp.1).append hclose)

/-- The text of printed pieces. -/
def printedText (ps : List Piece) : List Char :=
  textOf (ps.flatMap Style.printed.spell)

theorem ofChars_printedText (h : Fits s ps t) :
    ofChars (printedText ps) = ps.flatMap Style.printed.spell := by
  have hall : ∀ p ∈ ps, p.Valid := h.valid
  clear h
  have hrec : Recognized (ps.flatMap Style.printed.spell) := by
    induction ps with
    | nil => exact fun _ => rfl
    | cons p rest ih =>
      exact (recognized_spell (hall p List.mem_cons_self)).append
        (ih fun q hq => hall q (List.mem_cons_of_mem _ hq))
  have hnil := hrec []
  rw [List.append_nil, ofChars, List.append_nil] at hnil
  exact hnil

/-! ### What is not found in a piece -/

variable {c : Char} {p : Piece}

theorem not_mem_spell (hc : c ∈ Node.nameBreakers) (hsign : ∀ s, c ∉ σ.sign s)
    (hkey : ∀ k optional, Node.isQuotableKey k = true → char c ∉ σ.key k optional)
    (hindexer : ∀ name, (Piece.indexer name).Valid → char c ∉ σ.indexer name) (hp : p.Valid) :
    char c ∉ σ.spell p := by
  cases p with
  | sign s =>
    rw [Style.spell, char_mem_map]
    exact hsign s
  | name text => exact not_mem_nameGlyphs hp hc
  | key k optional => exact hkey k optional hp
  | indexer name => exact hindexer name hp

theorem not_mem_keyGlyphs_append {k : String} (h : Node.isQuotableKey k = true)
    (hc : c ∈ specials) {cs : List Char} (hn : c ∉ cs) : char c ∉ keyGlyphs k ++ cs.map char := by
  rw [List.mem_append, not_or, char_mem_map]
  exact ⟨not_mem_keyGlyphs h hc, hn⟩

theorem not_mem_squeezed_key (hc : c ∈ specials) (hn : c ∉ ['?', ':']) (k : String)
    (optional : Bool) (h : Node.isQuotableKey k = true) :
    char c ∉ Style.squeezed.key k optional := by
  refine not_mem_keyGlyphs_append h hc fun hm => hn ?_
  cases optional with
  | true => exact hm
  | false => exact List.mem_cons_of_mem _ hm

theorem not_mem_quoted_key (hc : c ∈ specials) (hn : c ∉ ['"', optionalMark, ':']) (k : String)
    (optional : Bool) (h : Node.isQuotableKey k = true) :
    char c ∉ Style.quoted.key k optional := by
  simp only [List.mem_cons, List.not_mem_nil, or_false, not_or] at hn
  unfold Style.quoted quotedRun quotedKey
  dsimp only
  split
  · rename_i hb
    have hk : c ∉ k.toList := fun hm =>
      not_mem_specials ((bareKey_chars h hb).2 c hm) hc
    cases optional <;> simp [hn, hk]
  · simp [hn]

theorem not_mem_squeezed_indexer (hc : c ∈ Node.nameBreakers) (hn : c ∉ ['[', ']', ':']) (name : String)
    (h : (Piece.indexer name).Valid) : char c ∉ Style.squeezed.indexer name := by
  simp only [List.mem_cons, List.not_mem_nil, or_false, not_or] at hn
  simp [Style.squeezed, hn, not_mem_nameGlyphs h.1 hc]

theorem not_mem_unwrapped_indexer (hc : c ∈ Node.nameBreakers) (hn : c ≠ ':') (name : String)
    (h : (Piece.indexer name).Valid) : char c ∉ Style.unwrapped.indexer name := by
  simp [Style.unwrapped, hn, not_mem_nameGlyphs h.1 hc]

/-! ### Blanks and stray operators -/

/-- A slash is printed in names alone, and no two of them meet at the end of one. -/
theorem slash_border {p : Piece} (h : Fits p.before (p :: ps) t) :
    ¬ ((Style.printed.spell p).getLast? = some (char '/')
      ∧ (ps.flatMap Style.printed.spell).head? = some (char '/')) := by
  obtain ⟨-, -, hrest⟩ := h
  rintro ⟨hlast, hhead⟩
  cases p with
  | sign s =>
    have hs : ∀ s : Sign, (s.printed.map char).getLast? ≠ some (char '/') :=
      Sign.forall_of_all (by decide)
    exact hs s hlast
  | name text =>
    cases ps with
    | nil => cases hhead
    | cons q qs =>
      obtain ⟨-, hq, -⟩ := hrest
      cases q with
      | sign s =>
        have hs : ∀ s : Sign, s.printed ≠ [] ∧ (s.printed.map char).head? ≠ some (char '/') :=
          Sign.forall_of_all (by decide)
        have hne : Style.printed.spell (.sign s) ≠ [] := List.map_eq_nil_iff.not.2 (hs s).1
        rw [List.flatMap_cons, List.head?_append_of_ne_nil _ hne] at hhead
        exact (hs s).2 hhead
      | name other => cases hq
      | key k optional => cases hq
      | indexer name => cases hq
  | key k optional =>
    have hend : (Style.printed.key k optional).getLast? = some (char ' ') := by
      cases optional <;> simp [Style.printed]
    rw [Style.spell, hend] at hlast
    cases hlast
  | indexer name =>
    have hend : (Style.printed.indexer name).getLast? = some (char ' ') := by
      simp [Style.printed, List.getLast?_cons, List.getLast?_append]
    rw [Style.spell, hend] at hlast
    cases hlast

/-- No piece is printed with a comment in it. -/
theorem dropComments_spell (hp : p.Valid) :
    dropComments false (Style.printed.spell p) = Style.printed.spell p := by
  have hplain : ∀ {cs : List Char}, '/' ∉ cs → dropComments false (cs.map char) = cs.map char :=
    fun hcs => dropComments_of_not_mem fun hm => hcs (char_mem_map.1 hm)
  cases p with
  | sign s =>
    have hs : ∀ s : Sign, '/' ∉ s.printed := Sign.forall_of_all (by decide)
    exact hplain (hs s)
  | name text => exact dropComments_nameGlyphs hp
  | key k optional =>
    refine dropComments_of_not_mem (not_mem_keyGlyphs_append hp (by decide) ?_)
    cases optional <;> decide
  | indexer name =>
    have hname := dropComments_nameGlyphs hp.1
    have hclose := @hplain [']', ':', ' '] (by decide)
    show dropComments false ([char '['] ++ (nameGlyphs name ++ [']', ':', ' '].map char)) = _
    rw [dropComments_append (by simp) (not_endsInComment rfl) (by simp),
      dropComments_append (by simp) (not_endsInComment hname) (by simp), hname, hclose]
    rfl

theorem dropComments_printed (h : Fits s ps t) :
    dropComments false (ps.flatMap Style.printed.spell) = ps.flatMap Style.printed.spell := by
  refine pass_pieces rfl (fun p rest u hp hrest => ?_) h
  have hself := dropComments_spell hp
  rw [dropComments_append (by simp) (not_endsInComment hself)
    (slash_border ⟨hp, rfl, hrest⟩), hself]

theorem dropLayout_eq_self {gs : List Glyph} (h : ∀ c ∈ Node.nameBreakers, char c ∉ gs) :
    dropLayout gs = gs := by
  refine List.filter_eq_self.2 fun g hg => ?_
  have hsub : ∀ c ∈ [' ', '\t', '\r', '\n'], c ∈ Node.nameBreakers := by decide
  cases g with
  | literal t => rfl
  | char c =>
    rw [Bool.not_eq_true', ← Bool.not_eq_true]
    intro hl
    refine h c (hsub c ?_) hg
    simpa [isLayout, or_assoc] using hl

theorem dropLayout_append (xs ys : List Glyph) :
    dropLayout (xs ++ ys) = dropLayout xs ++ dropLayout ys :=
  List.filter_append ..

theorem dropLayout_spell (hp : p.Valid) :
    dropLayout (Style.printed.spell p) = Style.squeezed.spell p := by
  cases p with
  | sign s =>
    have hs : ∀ s : Sign, dropLayout (s.printed.map char) = s.squeezed.map char :=
      Sign.forall_of_all (by decide)
    exact hs s
  | name text => exact dropLayout_eq_self fun c hc => not_mem_nameGlyphs hp hc
  | key k optional =>
    have hkey := dropLayout_eq_self fun c hc => not_mem_keyGlyphs (c := c) hp (mem_specials hc)
    simp only [Style.spell, Style.printed, Style.squeezed, dropLayout_append, hkey]
    cases optional <;> rfl
  | indexer name =>
    have hname := dropLayout_eq_self fun c hc => not_mem_nameGlyphs (c := c) hp.1 hc
    show dropLayout ([char '['] ++ (nameGlyphs name ++ [char ']', char ':', char ' '])) = _
    rw [dropLayout_append, dropLayout_append, hname]
    rfl

theorem dropLayout_printed (h : Fits s ps t) :
    dropLayout (ps.flatMap Style.printed.spell) = ps.flatMap Style.squeezed.spell := by
  refine pass_pieces rfl (fun p rest u hp _ => ?_) h
  rw [dropLayout_append, dropLayout_spell hp]

/-- What a text of pieces ends in belongs before the place it leads to. -/
theorem Fits.follows (hb : σ.Bordered) (h : Fits s ps t) :
    ∀ g ∈ (ps.flatMap σ.spell).getLast?, t.follows g = true := by
  induction ps generalizing s with
  | nil => simp
  | cons p rest ih =>
    intro g hg
    rw [List.flatMap_cons, List.getLast?_append] at hg
    cases hr : (rest.flatMap σ.spell).getLast? with
    | some k =>
      rw [hr] at hg
      obtain rfl : k = g := Option.some.inj hg
      exact ih h.2.2 k hr
    | none =>
      rw [hr] at hg
      cases rest with
      | cons q qs =>
        obtain ⟨k, hk, -⟩ := (Option.any_eq_true _ _).1 (hb.bridges h.2.2.1).2
        rw [List.flatMap_cons, List.getLast?_append, hk, Option.or_eq_none_iff] at hr
        cases hr.2
      | nil =>
        obtain rfl : p.after = t := h.2.2
        obtain ⟨k, hk, hf⟩ := (Option.any_eq_true _ _).1 (hb.bridges h.1).2
        obtain rfl : k = g := Option.some.inj (hk.symm.trans hg)
        exact hf

theorem isOperator_eq_true {g : Glyph} (h : g.isOperator = true) : g = char '|' ∨ g = char '&' := by
  cases g with
  | literal t => cases h
  | char c => simpa [isOperator] using h

theorem trimOperators_squeezed (h : Fits .wanted ps .ended) :
    trimOperators (ps.flatMap Style.squeezed.spell) = ps.flatMap Style.squeezed.spell := by
  refine trimOperators_eq_self (fun g hg => ?_) fun g hg => ?_
  · have ha := h.admits bordered_squeezed g hg
    rw [← Bool.not_eq_true]
    intro ho
    rcases isOperator_eq_true ho with rfl | rfl
    · exact absurd ha (by decide)
    · exact absurd ha (by decide)
  · have hf := h.follows bordered_squeezed g hg
    rw [← Bool.not_eq_true]
    intro ho
    rcases isOperator_eq_true ho with rfl | rfl
    · exact absurd hf (by decide)
    · exact absurd hf (by decide)

/-- A word that is found in punctuation at most is replaced there. -/
theorem replaceWord_spell {word replacement : List Char} (hc : c ∈ word)
    (hs : c ∈ Node.nameBreakers)
    (hsign : ∀ s, replaceWord word replacement ((σ.sign s).map char) = (τ.sign s).map char)
    (hkey : ∀ k optional, Node.isQuotableKey k = true → char c ∉ σ.key k optional)
    (hindexer : ∀ name, (Piece.indexer name).Valid → char c ∉ σ.indexer name)
    (hkeys : τ.key = σ.key) (hindexers : τ.indexer = σ.indexer) (p : Piece) (hp : p.Valid) :
    replaceWord word replacement (σ.spell p) = τ.spell p := by
  cases p with
  | sign s => exact hsign s
  | name text => exact replaceWord_eq_self hc (not_mem_nameGlyphs hp hs) replacement
  | key k optional =>
    rw [Style.spell, Style.spell, hkeys]
    exact replaceWord_eq_self hc (hkey k optional hp) replacement
  | indexer name =>
    rw [Style.spell, Style.spell, hindexers]
    exact replaceWord_eq_self hc (hindexer name hp) replacement

/-- No operator stands without an operand on its left. -/
theorem replaceWord_dangling (h : Fits s ps t) {d : List Char × Char}
    (hd : d ∈ danglingOperators) :
    replaceWord d.1 [d.2] (ps.flatMap Style.squeezed.spell)
      = ps.flatMap Style.squeezed.spell := by
  have hword : ∀ d ∈ danglingOperators, Separates d.1
      ∧ (∃ c ∈ d.1, c ∈ Node.nameBreakers ∧ c ∉ ['?', ':'] ∧ c ∉ ['[', ']', ':'])
      ∧ ∀ s ∈ Sign.all, replaceWord d.1 [d.2] (s.squeezed.map char) = s.squeezed.map char := by
    decide
  obtain ⟨hsep, ⟨c, hc, hs, hk, hi⟩, hsign⟩ := hword d hd
  exact replaceWord_pieces bordered_squeezed hsep (replaceWord_spell hc hs
    (Sign.forall_of_all hsign) (not_mem_squeezed_key (mem_specials hs) hk) (not_mem_squeezed_indexer hs hi)
    rfl rfl) h

theorem squeeze_printed (h : Fits .wanted ps .ended) :
    squeeze (ps.flatMap Style.printed.spell) = ps.flatMap Style.squeezed.spell := by
  rw [squeeze, dropComments_printed h, dropLayout_printed h, trimOperators_squeezed h]
  have hfold : ∀ ds : List (List Char × Char), (∀ d ∈ ds, d ∈ danglingOperators) →
      ds.foldl (fun gs d => replaceWord d.1 [d.2] gs) (ps.flatMap Style.squeezed.spell)
        = ps.flatMap Style.squeezed.spell := by
    intro ds
    induction ds with
    | nil => exact fun _ => rfl
    | cons d rest ih =>
      intro hds
      rw [List.foldl_cons, replaceWord_dangling h (hds d List.mem_cons_self),
        ih fun e he => hds e (List.mem_cons_of_mem _ he)]
  exact hfold _ fun _ hd => hd

theorem reservedIn_squeezed (h : Fits s ps t) :
    reservedIn (ps.flatMap Style.squeezed.spell) = [] := by
  have hreserved : ∀ c ∈ reserved, c ∈ Node.nameBreakers ∧ c ∉ ['?', ':'] ∧ c ∉ ['[', ']', ':']
      ∧ ∀ s ∈ Sign.all, c ∉ s.squeezed := by decide
  rw [reservedIn, List.filter_eq_nil_iff]
  intro c hc hm
  rw [List.contains_eq_mem, decide_eq_true_eq] at hm
  obtain ⟨p, hp, hm⟩ := List.mem_flatMap.1 hm
  obtain ⟨hs, hk, hi, hsign⟩ := hreserved c hc
  exact not_mem_spell hs (Sign.forall_of_all hsign) (not_mem_squeezed_key (mem_specials hs) hk)
    (not_mem_squeezed_indexer hs hi) (h.valid p hp) hm

/-! ### Keys -/

theorem replaceWord_mark (p : Piece) (hp : p.Valid) :
    replaceWord ['?', ':'] [optionalMark, ':'] (Style.squeezed.spell p)
      = Style.masked.spell p := by
  cases p with
  | sign s =>
    have hs : ∀ s : Sign, replaceWord ['?', ':'] [optionalMark, ':'] (s.squeezed.map char)
        = s.squeezed.map char := Sign.forall_of_all (by decide)
    exact hs s
  | name text =>
    exact @replaceWord_eq_self _ '?' (by decide) _ (not_mem_nameGlyphs hp (by decide)) _
  | key k optional =>
    have hk : char '?' ∉ keyGlyphs k := not_mem_keyGlyphs hp (by decide)
    cases optional with
    | true =>
      show replaceWord _ _ (keyGlyphs k ++ ['?', ':'].map char) = _
      rw [replaceWord_append, @replaceWord_eq_self _ '?' (by decide) _ hk]
      · rfl
      · intro x hx y hy
        left
        intro hm
        obtain rfl : x = char '?' := by simpa using hm
        exact hk (List.mem_of_getLast? hx)
    | false =>
      refine @replaceWord_eq_self _ '?' (by decide) _ ?_ _
      exact not_mem_keyGlyphs_append hp (by decide) (by decide)
  | indexer name =>
    refine @replaceWord_eq_self _ '?' (by decide) _ ?_ _
    exact not_mem_squeezed_indexer (by decide) (by decide) name hp

theorem isLiteral_map_char {cs : List Char} : ∀ g ∈ cs.map char, g.isLiteral = false := by
  intro g hg
  obtain ⟨c, -, rfl⟩ := List.mem_map.1 hg
  rfl

theorem keyOfLiteral_quotedKey {k : String} (h : Node.isQuotableKey k = true)
    (optional : Bool) : keyOfLiteral (quotedKey k false) optional = quotedKey k optional := by
  simp [keyOfLiteral, quotedKey, Escapes.unescape_of_not_mem (Node.isQuotableKey_iff.1 h).1]

theorem quoteLiteralKeys_masked (h : Fits s ps t) :
    quoteLiteralKeys (ps.flatMap Style.masked.spell) = ps.flatMap Style.taken.spell := by
  refine pass_pieces rfl (fun p rest u hp hrest => ?_) h
  cases p with
  | sign s => exact quoteLiteralKeys_append isLiteral_map_char _
  | name text =>
    have hstops : ∀ c ∈ Side.stops, char c ≠ char ':' ∧ char c ≠ char optionalMark := by decide
    refine quoteLiteralKeys_run (not_mem_nameGlyphs hp (by decide)) fun g hg => ?_
    obtain ⟨c, hc, rfl⟩ := exists_of_admits_ended (hrest.admits bordered_masked g hg)
    exact hstops c hc
  | key k optional =>
    have hkey : Style.taken.key k optional = if Node.isBareKey k then Style.masked.key k optional
      else [literal (quotedKey k optional), char ':'] := rfl
    rw [Style.spell, Style.spell, hkey]
    unfold Style.masked keyGlyphs
    dsimp only
    split
    · rw [← List.map_append]
      exact quoteLiteralKeys_append isLiteral_map_char _
    · rw [← keyOfLiteral_quotedKey hp optional]
      cases optional with
      | true => exact quoteLiteralKeys_markedKey _ _
      | false => exact quoteLiteralKeys_key _ _
  | indexer name =>
    have hindexer : ∀ ys, Style.masked.spell (.indexer name) ++ ys
        = ['['].map char ++ (nameGlyphs name ++ ([']', ':'].map char ++ ys)) := by
      intro ys
      simp [Style.spell, Style.masked, Style.squeezed]
    rw [hindexer, quoteLiteralKeys_append isLiteral_map_char,
      quoteLiteralKeys_run (not_mem_nameGlyphs hp.1 (by decide)) (by rintro g ⟨⟩; decide),
      quoteLiteralKeys_append isLiteral_map_char, ← hindexer]
    rfl

/-- A word and the mark behind it are one run of key characters. -/
theorem isKeyGlyph_markedKey {k : String} (h : Node.isQuotableKey k = true)
    (hb : Node.isBareKey k = true) (optional : Bool) :
    ∀ g ∈ (k.toList ++ (if optional then [optionalMark] else [])).map char,
      isKeyGlyph g = true := by
  intro g hg
  obtain ⟨c, hc, rfl⟩ := List.mem_map.1 hg
  rcases List.mem_append.1 hc with hc | hc
  · simp [isKeyGlyph, isKeyChar, (bareKey_chars h hb).2 c hc]
  · cases optional with
    | true =>
      obtain rfl := List.mem_singleton.1 hc
      decide
    | false => cases hc

theorem quoteNameKeys_signs {cs : List Char} (h : ∀ c ∈ cs, isKeyChar c = false)
    (ys : List Glyph) : quoteNameKeys false (cs.map char ++ ys)
      = cs.map char ++ quoteNameKeys false ys := by
  induction cs with
  | nil => rfl
  | cons c rest ih =>
    have hc : isKeyGlyph (char c) = false := h c List.mem_cons_self
    rw [List.map_cons, List.cons_append, quoteNameKeys_cons hc,
      show (char c).isLiteral = false from rfl, ih fun d hd => h d (List.mem_cons_of_mem _ hd)]
    rfl

theorem quoteNameKeys_takenKey {k : String} (h : Node.isQuotableKey k = true) (optional : Bool)
    (ys : List Glyph) : quoteNameKeys false (Style.taken.key k optional ++ ys)
      = Style.quoted.key k optional ++ quoteNameKeys false ys := by
  have htaken : Style.taken.key k optional = if Node.isBareKey k then Style.masked.key k optional
    else [literal (quotedKey k optional), char ':'] := rfl
  rw [htaken, show Style.quoted.key k optional = quotedRun k optional ++ [char ':'] from rfl,
    quotedRun]
  split
  · rename_i hb
    have hne := (bareKey_chars h hb).1
    have hkey := @quoteNameKeys_key
      ((k.toList ++ (if optional then [optionalMark] else [])).map char) (by simp [hne])
      (isKeyGlyph_markedKey h hb optional) ys
    have hmasked : Style.masked.key k optional
        = (k.toList ++ (if optional then [optionalMark] else [])).map char ++ [char ':'] := by
      simp [Style.masked, keyGlyphs, hb]
    rw [hmasked, List.append_assoc]
    refine hkey.trans ?_
    simp [quotedKey]
  · have hcolon : isKeyGlyph (char ':') = false := by decide
    show quoteNameKeys false (literal _ :: char ':' :: _) = _
    rw [quoteNameKeys_cons rfl, quoteNameKeys_cons hcolon]
    rfl

theorem quoteNameKeys_indexer {name : String} (h : (Piece.indexer name).Valid)
    (ys : List Glyph) : quoteNameKeys false (Style.squeezed.indexer name ++ ys)
      = Style.squeezed.indexer name ++ quoteNameKeys false ys := by
  have hname : char ':' ∉ nameGlyphs name := not_mem_nameGlyphs h.1 (by decide)
  have hopen := fun zs => @quoteNameKeys_signs ['['] (by decide) zs
  have hclose := fun zs => @quoteNameKeys_signs [']', ':'] (by decide) zs
  have hindexer : ∀ zs, Style.squeezed.indexer name ++ zs
      = ['['].map char ++ (nameGlyphs name ++ ([']', ':'].map char ++ zs)) := by
    intro zs
    simp [Style.squeezed]
  rw [hindexer, hindexer, hopen, quoteNameKeys_append hname, hclose]
  rintro g ⟨⟩
  decide

theorem quoteNameKeys_taken (h : Fits s ps t) :
    quoteNameKeys false (ps.flatMap Style.taken.spell) = ps.flatMap Style.quoted.spell := by
  refine pass_pieces (by rw [quoteNameKeys]) (fun p rest u hp hrest => ?_) h
  have hafter : p.after = .ended →
      ∀ g ∈ (rest.flatMap Style.taken.spell).head?, isKeyGlyph g = false ∧ g ≠ char ':' := by
    have hstops : ∀ c ∈ Side.stops, isKeyGlyph (char c) = false ∧ char c ≠ char ':' := by decide
    intro he g hg
    rw [he] at hrest
    obtain ⟨c, hc, rfl⟩ := exists_of_admits_ended (hrest.admits bordered_taken g hg)
    exact hstops c hc
  cases p with
  | sign s =>
    have hs : ∀ s : Sign, (s.after = .ended ∧ ':' ∉ s.squeezed)
        ∨ ∀ c ∈ s.squeezed, isKeyChar c = false := Sign.forall_of_all (by decide)
    rcases hs s with ⟨he, hc⟩ | hsign
    · refine quoteNameKeys_append ?_ (hafter he) false
      rw [Style.spell, char_mem_map]
      exact hc
    · exact quoteNameKeys_signs hsign _
  | name text =>
    exact quoteNameKeys_append (not_mem_nameGlyphs hp (by decide)) (hafter rfl) false
  | key k optional => exact quoteNameKeys_takenKey hp optional _
  | indexer name => exact quoteNameKeys_indexer hp _

theorem quoteKeys_squeezed (h : Fits s ps t) :
    quoteKeys (ps.flatMap Style.squeezed.spell) = ps.flatMap Style.quoted.spell := by
  rw [quoteKeys, replaceWord_pieces bordered_squeezed (by decide) replaceWord_mark h,
    quoteLiteralKeys_masked h, quoteNameKeys_taken h]

end StructuralTypes

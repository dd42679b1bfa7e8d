import StructuralTypes.Grammar
import StructuralTypes.Proofs.Spelling

/-! The last passes over a printed annotation, up to its marker form, and the tokens that
the marker form is split into: those of its pieces. -/

namespace StructuralTypes

open Glyph MarkerForm

variable {σ τ : Style} {s t : Side} {ps : List Piece} {p : Piece} {c : Char}

/-! ### Shapes and indexers -/

theorem replaceChar_pieces {c : Char} {replacement : List Char}
    (hτ : ∀ p : Piece, p.Valid → replaceChar c replacement (σ.spell p) = τ.spell p)
    (h : Fits s ps t) :
    replaceChar c replacement (ps.flatMap σ.spell) = ps.flatMap τ.spell := by
  refine pass_pieces rfl (fun p rest u hp _ => ?_) h
  rw [replaceChar_append, hτ p hp]

/-- A character that is found in punctuation at most is replaced there. -/
theorem replaceChar_spell {replacement : List Char} (hs : c ∈ Node.nameBreakers)
    (hsign : ∀ s, replaceChar c replacement ((σ.sign s).map char) = (τ.sign s).map char)
    (hkey : ∀ k optional, Node.isQuotableKey k = true → char c ∉ σ.key k optional)
    (hindexer : ∀ name, (Piece.indexer name).Valid → char c ∉ σ.indexer name)
    (hkeys : τ.key = σ.key) (hindexers : τ.indexer = σ.indexer) (p : Piece) (hp : p.Valid) :
    replaceChar c replacement (σ.spell p) = τ.spell p := by
  cases p with
  | sign s => exact hsign s
  | name text => exact replaceChar_eq_self (not_mem_nameGlyphs hp hs) replacement
  | key k optional =>
    rw [Style.spell, Style.spell, hkeys]
    exact replaceChar_eq_self (hkey k optional hp) replacement
  | indexer name =>
    rw [Style.spell, Style.spell, hindexers]
    exact replaceChar_eq_self (hindexer name hp) replacement

/-- With the openings of shapes marked, and the ends of inexact ones left. -/
def Style.halfShaped : Style :=
  { Style.quoted with
    sign := fun s => match s with
      | .openShape false => ['@', '(']
      | .emptyShape false => ['@', '(', '\x7d']
      | s => s.closed }

theorem markShapes_quoted (h : Fits s ps t) :
    markShapes (ps.flatMap Style.quoted.spell) = ps.flatMap Style.shaped.spell := by
  have hopened := @replaceWord_spell Style.quoted Style.opened '|' ['\x7b', '|'] ['#', '(']
    (by decide) (by decide) (Sign.forall_of_all (by decide))
    (not_mem_quoted_key (by decide) (by decide)) (not_mem_squeezed_indexer (by decide) (by decide))
    rfl rfl
  have hclosed := @replaceWord_spell Style.opened Style.closed '|' ['|', '\x7d'] [')']
    (by decide) (by decide) (Sign.forall_of_all (by decide))
    (not_mem_quoted_key (by decide) (by decide)) (not_mem_squeezed_indexer (by decide) (by decide))
    rfl rfl
  have hhalf := @replaceChar_spell Style.closed Style.halfShaped '\x7b' ['@', '(']
    (by decide) (Sign.forall_of_all (by decide))
    (not_mem_quoted_key (by decide) (by decide)) (not_mem_squeezed_indexer (by decide) (by decide))
    rfl rfl
  have hshaped := @replaceChar_spell Style.halfShaped Style.shaped '\x7d' [')']
    (by decide) (Sign.forall_of_all (by decide))
    (not_mem_quoted_key (by decide) (by decide)) (not_mem_squeezed_indexer (by decide) (by decide))
    rfl rfl
  rw [markShapes, replaceWord_pieces bordered_quoted (by decide) hopened h,
    replaceWord_pieces bordered_opened (by decide) hclosed h, replaceChar_pieces hhalf h,
    replaceChar_pieces hshaped h]

theorem isBracket_eq_false {gs : List Glyph} (h : char '[' ∉ gs) (h' : char ']' ∉ gs) :
    ∀ g ∈ gs, isBracket g = false := by
  intro g hg
  rw [isBracket, Bool.or_eq_false_iff, beq_eq_false_iff_ne, beq_eq_false_iff_ne]
  exact ⟨fun he => h (he ▸ hg), fun he => h' (he ▸ hg)⟩

/-- The pieces that are spelled with brackets. -/
theorem Piece.Valid.bracket_cases (hp : p.Valid) :
    (∀ g ∈ Style.shaped.spell p, isBracket g = false) ∨ p = .sign .openTuple
      ∨ p = .sign .closeTuple ∨ p = .sign .suffix ∨ ∃ name, p = .indexer name := by
  cases p with
  | sign s =>
    have hs : ∀ s : Sign, (∀ g ∈ s.shaped.map char, isBracket g = false) ∨ s = .openTuple
        ∨ s = .closeTuple ∨ s = .suffix := Sign.forall_of_all (by decide)
    rcases hs s with h | rfl | rfl | rfl <;> simp_all [Style.spell, Style.shaped]
  | name text =>
    exact .inl (isBracket_eq_false (not_mem_nameGlyphs hp (by decide))
      (not_mem_nameGlyphs hp (by decide)))
  | key k optional =>
    exact .inl (isBracket_eq_false (not_mem_quoted_key (by decide) (by decide) k optional hp)
      (not_mem_quoted_key (by decide) (by decide) k optional hp))
  | indexer name => exact .inr (.inr (.inr (.inr ⟨name, rfl⟩)))

/-- Brackets are followed by a colon in indexers alone. -/
theorem closesAsIndexer_shaped (h : Fits s ps t) :
    closesAsIndexer (ps.flatMap Style.shaped.spell) = false := by
  suffices hdrop : ¬ [char ']', char ':'] <+:
      (ps.flatMap Style.shaped.spell).dropWhile (!isBracket ·) by
    rw [closesAsIndexer, Bool.and_eq_false_iff]
    exact .inr (Bool.eq_false_iff.2 fun hp => hdrop (List.isPrefixOf_iff_prefix.1 hp))
  induction ps generalizing s with
  | nil => simp
  | cons p rest ih =>
    obtain ⟨hp, rfl, hrest⟩ := h
    have hopen : ∀ ys, ¬ [char ']', char ':'] <+: (char '[' :: ys).dropWhile (!isBracket ·) := by
      intro ys
      rw [List.dropWhile_cons_of_neg (by decide), List.cons_prefix_cons]
      exact fun hy => absurd hy.1 (by decide)
    rw [List.flatMap_cons]
    rcases hp.bracket_cases with hplain | rfl | rfl | rfl | ⟨name, rfl⟩
    · rw [List.dropWhile_append_of_pos fun g hg => by simp [hplain g hg]]
      exact ih hrest
    · exact hopen _
    · show ¬ _ <+: (char ']' :: rest.flatMap Style.shaped.spell).dropWhile (!isBracket ·)
      rw [List.dropWhile_cons_of_neg (by decide), List.cons_prefix_cons]
      rintro ⟨-, ys, hy⟩
      have hcolon := hrest.admits bordered_shaped (char ':') (by rw [← hy]; rfl)
      exact absurd hcolon (by decide)
    · exact hopen _
    · exact hopen _

/-- A key begins with a quote. -/
theorem afterKey?_chars {cs : List Char} (hne : cs ≠ []) (h : '"' ∉ cs) (ys : List Glyph) :
    afterKey? (cs.map char ++ ys) = none := by
  cases cs with
  | nil => exact absurd rfl hne
  | cons c rest =>
    have hc : char c ≠ char '"' := fun he => h (by cases he; exact List.mem_cons_self)
    rw [List.map_cons, List.cons_append, afterKey?, if_neg fun he => hc he.1]
    exact fun _ he => by cases he

/-- The key of a property is read up to its colon. -/
theorem afterKey?_key {k : String} (h : Node.isQuotableKey k = true) (optional : Bool)
    (ys : List Glyph) :
    afterKey? (Style.quoted.key k optional ++ ys) = some (char ':' :: ys) := by
  unfold Style.quoted quotedRun
  dsimp only
  split
  · rename_i hb
    have hne := (bareKey_chars h hb).1
    have hrun := isKeyGlyph_markedKey h hb optional
    obtain ⟨htake, hdrop⟩ := @span_append isKeyGlyph
      ((k.toList ++ (if optional then [optionalMark] else [])).map char)
      (char '"' :: char ':' :: ys) (by rintro g ⟨⟩; decide)
    rw [List.takeWhile_eq_self_iff.2 hrun] at htake
    rw [List.dropWhile_eq_nil_iff.2 hrun, List.nil_append] at hdrop
    have hspell : (quotedKey k optional).map char ++ [char ':'] ++ ys
        = char '"' :: ((k.toList ++ (if optional then [optionalMark] else [])).map char
          ++ char '"' :: char ':' :: ys) := by
      simp [quotedKey]
    rw [hspell, afterKey?, htake, hdrop, if_pos ⟨rfl, by simp [hne]⟩]
    · rfl
    · exact fun _ hc => by cases hc
  · rfl

/-- A name is no key: no colon follows what may be one in it. -/
theorem startsNamedIndexer_name {text : String} (h : Node.isLegibleName text = true)
    {ys : List Glyph} (hy : ys.head? ≠ some (char ':')) :
    startsNamedIndexer (char '[' :: (nameGlyphs text ++ ys)) = false := by
  have hcolon : char ':' ∉ nameGlyphs text := not_mem_nameGlyphs h (by decide)
  have hquote : char '"' ∉ nameGlyphs text := not_mem_nameGlyphs h (by decide)
  obtain ⟨g, rest, hg⟩ := List.exists_cons_of_ne_nil (nameGlyphs_ne_nil h)
  rw [hg] at hcolon hquote ⊢
  cases g with
  | char c =>
    have hc : char c ≠ char '"' := fun he => hquote (he ▸ List.mem_cons_self)
    have hkey : afterKey? (char c :: (rest ++ ys)) = none := by
      rw [afterKey?, if_neg fun he => hc he.1]
      exact fun _ he => by cases he
    rw [List.cons_append, startsNamedIndexer, hkey, Bool.and_false]
  | literal t =>
    have hhead : (rest ++ ys).head? ≠ some (char ':') := by
      cases rest with
      | nil => exact hy
      | cons k rest =>
        rintro ⟨⟩
        simp at hcolon
    have hkey : afterKey? (literal t :: (rest ++ ys)) = some (rest ++ ys) := rfl
    rw [List.cons_append, startsNamedIndexer, hkey]
    cases hr : rest ++ ys with
    | nil => rfl
    | cons k after =>
      have hk : k ≠ char ':' := fun he => hhead (by rw [hr, he]; rfl)
      show (_ && (k == char ':' && closesAsIndexer after)) = false
      rw [beq_eq_false_iff_ne.2 hk, Bool.false_and, Bool.and_false]

/-- No indexer with a name begins where a tuple does. -/
theorem startsNamedIndexer_shaped (h : Fits .wanted ps t) :
    startsNamedIndexer (char '[' :: ps.flatMap Style.shaped.spell) = false := by
  have hnone : ∀ {ys}, afterKey? ys = none → startsNamedIndexer (char '[' :: ys) = false := by
    intro ys hys
    rw [startsNamedIndexer, hys, Bool.and_false]
  cases ps with
  | nil => rfl
  | cons p rest =>
    obtain ⟨hp, hs, hrest⟩ := h
    rw [List.flatMap_cons]
    cases p with
    | sign s =>
      have hsign : ∀ s : Sign, s.shaped ≠ [] ∧ '"' ∉ s.shaped := Sign.forall_of_all (by decide)
      exact hnone (afterKey?_chars (hsign s).1 (hsign s).2 _)
    | name text =>
      refine startsNamedIndexer_name hp fun hh => ?_
      have hcolon : Side.ended.admits (char ':') = true :=
        hrest.admits bordered_shaped (char ':') hh
      exact absurd hcolon (by decide)
    | key k optional =>
      have hkey := afterKey?_key hp optional (rest.flatMap Style.shaped.spell)
      rw [startsNamedIndexer, show Style.shaped.spell (.key k optional)
        = Style.quoted.key k optional from rfl, hkey]
      show (_ && (char ':' == char ':' && closesAsIndexer _)) = false
      rw [closesAsIndexer_shaped hrest, Bool.and_false, Bool.and_false]
    | indexer name => exact hnone (@afterKey?_chars ['['] (by decide) (by decide) _)

theorem hasNamedIndexer_shaped (h : Fits s ps t) :
    hasNamedIndexer (ps.flatMap Style.shaped.spell) = false := by
  induction ps generalizing s with
  | nil => rfl
  | cons p rest ih =>
    obtain ⟨hp, rfl, hrest⟩ := h
    have hih := ih hrest
    rw [List.flatMap_cons]
    rcases hp.bracket_cases with hplain | rfl | rfl | rfl | ⟨name, rfl⟩
    · rw [hasNamedIndexer_append fun hm => absurd (hplain _ hm) (by decide)]
      exact hih
    · show (startsNamedIndexer (char '[' :: rest.flatMap Style.shaped.spell)
        || hasNamedIndexer (rest.flatMap Style.shaped.spell)) = false
      rw [startsNamedIndexer_shaped hrest, hih, Bool.or_false]
    · exact hih
    · exact hih
    · have hspell : ∀ ys, Style.shaped.spell (.indexer name) ++ ys
          = char '[' :: (nameGlyphs name ++ ([char ']', char ':'] ++ ys)) := by
        intro ys
        show char '[' :: (nameGlyphs name ++ _) ++ ys = _
        rw [List.cons_append, List.append_assoc]
      have hopen : char '[' ∉ nameGlyphs name := not_mem_nameGlyphs hp.1 (by decide)
      rw [hspell, hasNamedIndexer, startsNamedIndexer_name hp.1 (by simp),
        hasNamedIndexer_append hopen, hasNamedIndexer_append (by decide), hih]
      rfl

theorem unwrapIndexers_shaped (h : Fits s ps t) :
    unwrapIndexers false (ps.flatMap Style.shaped.spell) = ps.flatMap Style.unwrapped.spell := by
  refine pass_pieces rfl (fun p rest u hp hrest => ?_) h
  rcases hp.bracket_cases with hplain | rfl | rfl | rfl | ⟨name, rfl⟩
  · rw [unwrapIndexers_append hplain]
    cases p with
    | indexer name => exact absurd (hplain (char '[') List.mem_cons_self) (by decide)
    | _ => rfl
  · show unwrapIndexers false (char '[' :: rest.flatMap Style.shaped.spell) = _
    rw [unwrapIndexers, closesAsIndexer_shaped hrest]
    rfl
  · rfl
  · rfl
  · have hplain := isBracket_eq_false (not_mem_nameGlyphs hp.1 (c := '[') (by decide))
      (not_mem_nameGlyphs hp.1 (by decide))
    have hspell : ∀ ys, Style.shaped.spell (.indexer name) ++ ys
        = char '[' :: (nameGlyphs name ++ char ']' :: char ':' :: ys) := by
      intro ys
      show char '[' :: (nameGlyphs name ++ [char ']', char ':']) ++ ys = _
      simp
    rw [hspell, unwrapIndexers_indexer (nameGlyphs_ne_nil hp.1) hplain]
    simp [Style.spell, Style.unwrapped]

/-! ### Arrays and tuples -/

/-- With the ends of arrays marked. -/
def Style.bounded : Style :=
  { Style.unwrapped with
    sign := fun s => match s with
      | .existentials => ['~', '(', '*', ')']
      | s => s.suffixed }

/-- With the openings of tuples marked as well. -/
def Style.halfMarked : Style :=
  { Style.unwrapped with
    sign := fun s => match s with
      | .openTuple => ['^', '(']
      | s => bounded.sign s }

/-- The word for arrays is found where it is printed, and in no name. -/
theorem replaceWord_array (p : Piece) (hp : p.Valid) :
    replaceWord "Array<".toList ['~', '('] (Style.suffixed.spell p) = Style.arrayed.spell p := by
  have hself : ∀ {gs : List Glyph}, char '<' ∉ gs →
      replaceWord "Array<".toList ['~', '('] gs = gs := fun h =>
    @replaceWord_eq_self _ '<' (by decide) _ h _
  have hname : ∀ {name}, Node.isLegibleName name = true →
      replaceWord "Array<".toList ['~', '('] (nameGlyphs name) = nameGlyphs name :=
    fun h => (Node.isLegibleName_iff.1 h).2.2.2.2
  cases p with
  | sign s =>
    have hs : ∀ s : Sign, replaceWord "Array<".toList ['~', '('] (s.suffixed.map char)
        = s.arrayed.map char := Sign.forall_of_all (by decide)
    exact hs s
  | name text => exact hname hp
  | key k optional => exact hself (not_mem_quoted_key (by decide) (by decide) k optional hp)
  | indexer name =>
    show replaceWord _ _ (nameGlyphs name ++ [char ':']) = nameGlyphs name ++ [char ':']
    rw [replaceWord_append fun _ _ y hy => .inr ?_, hname hp.1, hself (by decide)]
    intro hm
    obtain rfl : y = char ':' := by simpa using hy.symm
    exact absurd hm (by decide)

theorem markSequences_unwrapped (h : Fits s ps t) :
    markSequences (ps.flatMap Style.unwrapped.spell) = ps.flatMap Style.marked.spell := by
  have hsuffixed := @replaceWord_spell Style.unwrapped Style.suffixed '[' ['[', ']'] ['$']
    (by decide) (by decide) (Sign.forall_of_all (by decide))
    (not_mem_quoted_key (by decide) (by decide)) (not_mem_unwrapped_indexer (by decide) (by decide))
    rfl rfl
  have hbounded := @replaceChar_spell Style.arrayed Style.bounded '>' [')']
    (by decide) (Sign.forall_of_all (by decide))
    (not_mem_quoted_key (by decide) (by decide)) (not_mem_unwrapped_indexer (by decide) (by decide))
    rfl rfl
  have hhalf := @replaceChar_spell Style.bounded Style.halfMarked '[' ['^', '(']
    (by decide) (Sign.forall_of_all (by decide))
    (not_mem_quoted_key (by decide) (by decide)) (not_mem_unwrapped_indexer (by decide) (by decide))
    rfl rfl
  have hmarked := @replaceChar_spell Style.halfMarked Style.marked ']' [')']
    (by decide) (Sign.forall_of_all (by decide))
    (not_mem_quoted_key (by decide) (by decide)) (not_mem_unwrapped_indexer (by decide) (by decide))
    rfl rfl
  rw [markSequences, replaceWord_pieces bordered_unwrapped (by decide) hsuffixed h,
    replaceWord_pieces bordered_suffixed (by decide) replaceWord_array h, replaceChar_pieces hbounded h,
    replaceChar_pieces hhalf h, replaceChar_pieces hmarked h]

/-! ### The whole form -/

theorem nul_not_mem_key {k : String} (h : Node.isQuotableKey k = true) :
    Char.ofNat 0 ∉ textOf (keyGlyphs k) := by
  have hk := (Node.isQuotableKey_iff.1 h).2.1
  unfold keyGlyphs
  split
  · rwa [textOf_map_char]
  · simp [textOf, chars, quotedKey, hk]

theorem nul_not_mem_printed (hp : p.Valid) :
    Char.ofNat 0 ∉ textOf (Style.printed.spell p) := by
  cases p with
  | sign s =>
    have hs : ∀ s : Sign, Char.ofNat 0 ∉ s.printed := Sign.forall_of_all (by decide)
    rw [Style.spell, textOf_map_char]
    exact hs s
  | name text =>
    rw [Style.spell, textOf_nameGlyphs]
    exact (Node.isLegibleName_iff.1 hp).2.1
  | key k optional =>
    rw [Style.spell, Style.printed, textOf_append, textOf_map_char, List.mem_append, not_or]
    exact ⟨nul_not_mem_key hp, by cases optional <;> decide⟩
  | indexer name =>
    have htext : textOf (Style.printed.indexer name) = '[' :: (name.toList ++ [']', ':', ' ']) := by
      show '[' :: textOf (nameGlyphs name ++ [']', ':', ' '].map char) = _
      rw [textOf_append, textOf_nameGlyphs, textOf_map_char]
    rw [Style.spell, htext]
    simp [(Node.isLegibleName_iff.1 hp.1).2.1]

theorem nul_not_mem_printedText (h : Fits s ps t) : Char.ofNat 0 ∉ printedText ps := by
  intro hm
  obtain ⟨g, hg, hc⟩ := List.mem_flatMap.1 hm
  obtain ⟨p, hp, hg⟩ := List.mem_flatMap.1 hg
  exact nul_not_mem_printed (h.valid p hp) (List.mem_flatMap.2 ⟨g, hg, hc⟩)

/-- Printed annotations have a marker form. -/
theorem ofText_printed (h : Fits .wanted ps .ended) :
    MarkerForm.ofText (String.ofList (printedText ps)) = .ok (ps.flatMap Style.marked.spell) := by
  unfold MarkerForm.ofText
  have hnul := nul_not_mem_printedText h
  simp only [String.toList_ofList, ofChars_printedText h, squeeze_printed h, reservedIn_squeezed h,
    quoteKeys_squeezed h, markShapes_quoted h, hasNamedIndexer_shaped h, unwrapIndexers_shaped h,
    markSequences_unwrapped h]
  simp [hnul]
  rfl

/-! ### Tokens -/

/-- The tokens that punctuation stands for. -/
def Sign.tokens : Sign → List Token
  | union => [⟨.union, "|"⟩]
  | intersection => [⟨.intersection, "&"⟩]
  | comma => [⟨.comma, ","⟩]
  | openGroup => [Grammar.openGroup]
  | closeGroup | closeTuple | closeShape _ => [Grammar.closeGroup]
  | openTuple => [⟨.tuple, "^"⟩, Grammar.openGroup]
  | suffix => [⟨.arraySuffix, "$"⟩]
  | existentials => [⟨.array, "~"⟩, Grammar.openGroup, Grammar.word "*", Grammar.closeGroup]
  | openShape exact => [if exact then ⟨.exactShape, "#"⟩ else ⟨.shape, "@"⟩, Grammar.openGroup]
  | emptyShape exact =>
    [if exact then ⟨.exactShape, "#"⟩ else ⟨.shape, "@"⟩, Grammar.openGroup, Grammar.closeGroup]

def Piece.tokens : Piece → List Token
  | sign s => s.tokens
  | name text => [Grammar.word text]
  | key k optional => [Grammar.keyWord k optional, ⟨.colon, ":"⟩]
  | indexer text => [Grammar.word text, ⟨.colon, ":"⟩]

theorem ofGlyphs_sign (s : Sign) (ys : List Glyph) :
    Token.ofGlyphs (s.marked.map char ++ ys) = s.tokens ++ Token.ofGlyphs ys := by
  cases s with
  | openShape exact => cases exact <;> rfl
  | closeShape exact => cases exact <;> rfl
  | emptyShape exact => cases exact <;> rfl
  | _ => rfl

theorem punctuation?_eq_none (h : c ∉ Node.nameBreakers) : Token.punctuation? c = none := by
  unfold Token.punctuation?
  split
  case h_13 => rfl
  all_goals exact absurd (by decide) h

theorem quotedRun_ne_nil (k : String) (optional : Bool) : quotedRun k optional ≠ [] := by
  unfold quotedRun
  split <;> simp [quotedKey]

theorem textOf_quotedRun (k : String) (optional : Bool) :
    textOf (quotedRun k optional) = quotedKey k optional := by
  unfold quotedRun
  split
  · exact textOf_map_char _
  · simp [textOf, chars]

theorem punctuation?_quotedRun {k : String} (h : Node.isQuotableKey k = true) (optional : Bool) :
    ∀ c, char c ∈ quotedRun k optional → Token.punctuation? c = none := by
  intro c hc
  unfold quotedRun at hc
  split at hc
  · rename_i hb
    rw [Glyph.char_mem_map] at hc
    have hchars : c = '"' ∨ c ∈ k.toList ∨ c = optionalMark := by
      cases optional <;> simp [quotedKey] at hc <;> tauto
    rcases hchars with rfl | hc | rfl
    · rfl
    · exact punctuation?_eq_none fun hm =>
        not_mem_specials ((bareKey_chars h hb).2 c hc) (mem_specials hm)
    · rfl
  · simp at hc

/-- A type is followed by punctuation. -/
theorem punctuation?_head (hp : p.before = .ended) (ys : List Glyph) :
    ∀ g ∈ (Style.marked.spell p ++ ys).head?,
      ∃ c kind, g = char c ∧ Token.punctuation? c = some kind := by
  cases p with
  | sign s =>
    have hs : ∀ s : Sign, s.before = .ended →
        s.marked.head?.any (fun c => (Token.punctuation? c).isSome) = true :=
      Sign.forall_of_all (by decide)
    obtain ⟨c, hc, hkind⟩ := (Option.any_eq_true _ _).1 (hs s hp)
    obtain ⟨kind, hkind⟩ := Option.isSome_iff_exists.1 hkind
    intro g hg
    have hhead : (Style.marked.spell (.sign s) ++ ys).head? = some (char c) := by
      rw [List.head?_append, show Style.marked.spell (.sign s) = s.marked.map char from rfl,
        List.head?_map, hc]
      rfl
    exact ⟨c, kind, Option.some.inj (hg.symm.trans hhead), hkind⟩
  | name text => cases hp
  | key k optional => cases hp
  | indexer text => cases hp

/-- A text in front of a colon is one name. -/
theorem ofGlyphs_colon {run : List Glyph} (hne : run ≠ [])
    (hrun : ∀ c, char c ∈ run → Token.punctuation? c = none) (ys : List Glyph) :
    Token.ofGlyphs (run ++ char ':' :: ys)
      = ⟨.name, String.ofList (textOf run)⟩ :: ⟨.colon, ":"⟩ :: Token.ofGlyphs ys := by
  rw [Token.ofGlyphs_append hne hrun]
  · rfl
  · rintro g ⟨⟩
    exact ⟨':', .colon, rfl, rfl⟩

theorem ofGlyphs_marked (h : Fits s ps t) :
    Token.ofGlyphs (ps.flatMap Style.marked.spell) = ps.flatMap Piece.tokens := by
  refine pass_pieces rfl (fun p rest u hp hrest => ?_) h
  have hname : ∀ {text : String}, Node.isLegibleName text = true →
      ∀ c, char c ∈ nameGlyphs text → Token.punctuation? c = none := fun ht c hc =>
    punctuation?_eq_none fun hs => not_mem_nameGlyphs ht hs hc
  cases p with
  | sign s => exact ofGlyphs_sign s _
  | name text =>
    rw [Style.spell, Token.ofGlyphs_append (nameGlyphs_ne_nil hp) (hname hp)]
    · rw [textOf_nameGlyphs, String.ofList_toList]
      rfl
    · -- a type is followed by punctuation
      cases rest with
      | nil => simp
      | cons q qs => exact punctuation?_head hrest.2.1 _
  | key k optional =>
    have hspell : Style.marked.spell (.key k optional) ++ rest.flatMap Style.marked.spell
        = quotedRun k optional ++ char ':' :: rest.flatMap Style.marked.spell := by
      show quotedRun k optional ++ [char ':'] ++ _ = _
      rw [List.append_assoc]
      rfl
    rw [hspell, ofGlyphs_colon (quotedRun_ne_nil k optional) (punctuation?_quotedRun hp optional),
      textOf_quotedRun]
    rfl
  | indexer name =>
    have hspell : Style.marked.spell (.indexer name) ++ rest.flatMap Style.marked.spell
        = nameGlyphs name ++ char ':' :: rest.flatMap Style.marked.spell := by
      show nameGlyphs name ++ [char ':'] ++ _ = _
      rw [List.append_assoc]
      rfl
    rw [hspell, ofGlyphs_colon (nameGlyphs_ne_nil hp.1) (hname hp.1), textOf_nameGlyphs,
      String.ofList_toList]
    rfl

/-- The tokens of a printed annotation are those of its pieces. -/
theorem scan_printed (h : Fits .wanted ps .ended) :
    Token.scan (String.ofList (printedText ps)) = .ok (ps.flatMap Piece.tokens) := by
  rw [Token.scan, ofText_printed h, ← ofGlyphs_marked h]
  rfl

end StructuralTypes

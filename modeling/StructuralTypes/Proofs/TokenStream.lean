import StructuralTypes.Proofs.Outcomes
import StructuralTypes.Proofs.Placeholders

/-! The tokens of an annotation are the pieces of its marker form. A marker stands right before
its group, and a name has nothing structural outside of its literals. -/

namespace StructuralTypes

/-! ### Markers and their groups -/

namespace Glyph

/-- The markers of composite types, which take a group. -/
def openers : List Char :=
  ['#', '@', '~', '^']

/-- Each of those markers has the beginning of a group right behind it. -/
def Opened : List Glyph → Prop
  | [] => True
  | g :: rest => (∀ c ∈ openers, g = char c → rest.head? = some (char '(')) ∧ Opened rest

variable {gs hs : List Glyph}

theorem opened_of_not_mem (h : ∀ c ∈ openers, char c ∉ gs) : Opened gs := by
  induction gs with
  | nil => trivial
  | cons g rest ih =>
    refine ⟨fun c hc hg => absurd (hg ▸ List.mem_cons_self) (h c hc), ih fun c hc hm => ?_⟩
    exact h c hc (List.mem_cons_of_mem _ hm)

theorem Opened.append (hg : Opened gs) (hh : Opened hs) : Opened (gs ++ hs) := by
  induction gs with
  | nil => exact hh
  | cons g rest ih =>
    refine ⟨fun c hc he => ?_, ih hg.2⟩
    obtain ⟨rest', hrest⟩ := List.head?_eq_some_iff.1 (hg.1 c hc he)
    rw [hrest]
    rfl

/-- A word without the beginning of a group eats none. -/
theorem head?_replaceFrom {word : List Char} (hword : '(' ∉ word) (hne : word ≠ [])
    (replacement : List Char) (h : gs.head? = some (char '(')) :
    (replaceFrom word replacement 0 gs).head? = some (char '(') := by
  obtain ⟨rest, rfl⟩ := List.head?_eq_some_iff.1 h
  have hp : ¬ (word.map char).isPrefixOf (char '(' :: rest) = true := by
    intro hp
    cases word with
    | nil => exact hne rfl
    | cons c word =>
      obtain ⟨after, hafter⟩ := List.isPrefixOf_iff_prefix.1 hp
      rw [← char.inj (List.cons.inj hafter).1] at hword
      exact hword List.mem_cons_self
  rw [replaceFrom, if_neg hp]
  rfl

/-- A replacement that neither eats the beginning of a group nor leaves a marker without one. -/
theorem Opened.replaceWord {word replacement : List Char} (hword : '(' ∉ word)
    (hr : Opened (replacement.map char)) (h : Opened gs) :
    Opened (replaceWord word replacement gs) := by
  suffices hskip : ∀ skip, Opened (replaceFrom word replacement skip gs) from hskip 0
  induction gs with
  | nil => exact fun skip => by cases skip <;> trivial
  | cons g rest ih =>
    intro skip
    cases skip with
    | succ skip => exact ih h.2 skip
    | zero =>
      rw [replaceFrom]
      split
      · exact hr.append (ih h.2 _)
      · rename_i hp
        have hne : word ≠ [] := by
          rintro rfl
          exact hp rfl
        exact ⟨fun c hc hg => head?_replaceFrom hword hne replacement (h.1 c hc hg), ih h.2 0⟩

theorem Opened.replaceChar {c : Char} {replacement : List Char} (hc : c ≠ '(')
    (hr : Opened (replacement.map char)) (h : Opened gs) :
    Opened (replaceChar c replacement gs) := by
  induction gs with
  | nil => trivial
  | cons g rest ih =>
    have hrest := ih h.2
    rw [Glyph.replaceChar] at hrest ⊢
    rw [List.flatMap_cons]
    split
    · exact hr.append hrest
    · refine ⟨fun d hd hg => ?_, hrest⟩
      obtain ⟨rest', rfl⟩ := List.head?_eq_some_iff.1 (h.1 d hd hg)
      have hkept : char '(' ≠ char c := by simpa using hc.symm
      rw [List.flatMap_cons, if_neg hkept]
      rfl

end Glyph

namespace MarkerForm

open Glyph

variable {gs : List Glyph}

theorem opened_unwrapIndexers {inside : Bool} (h : Opened gs) :
    Opened (unwrapIndexers inside gs) := by
  fun_induction unwrapIndexers inside gs with
  | case1 inside => trivial
  | case2 inside g rest hg ih => exact ih h.2
  | case3 inside g rest hg hg' ih => exact ih h.2
  | case4 inside g rest hg hg' ih =>
    refine ⟨fun c hc he => ?_, ih h.2⟩
    obtain ⟨rest', rfl⟩ := List.head?_eq_some_iff.1 (h.1 c hc he)
    rw [unwrapIndexers, if_neg (by simp), if_neg (by simp)]
    rfl

theorem opened_markShapes (h : Opened gs) : Opened (markShapes gs) := by
  unfold markShapes
  apply Opened.replaceChar (by decide) (by simp [Opened, openers])
  apply Opened.replaceChar (by decide) (by simp [Opened, openers])
  apply Opened.replaceWord (by decide) (by simp [Opened, openers])
  exact Opened.replaceWord (by decide) (by simp [Opened, openers]) h

theorem opened_markSequences (h : Opened gs) : Opened (markSequences gs) := by
  unfold markSequences
  apply Opened.replaceChar (by decide) (by simp [Opened, openers])
  apply Opened.replaceChar (by decide) (by simp [Opened, openers])
  apply Opened.replaceChar (by decide) (by simp [Opened, openers])
  apply Opened.replaceWord (by decide) (by simp [Opened, openers])
  exact Opened.replaceWord (by decide) (by simp [Opened, openers]) h

/-! ### What is left of the source -/

theorem mem_replaceWord {word replacement : List Char} {c : Char}
    (h : char c ∈ replaceWord word replacement gs) : c ∈ replacement ∨ char c ∈ gs := by
  rcases mem_replaceFrom h with h | h
  · exact .inr h
  · exact .inl (by simpa using h)

theorem char_mem_replaceChar {replacement : List Char} {c d : Char}
    (h : char c ∈ replaceChar d replacement gs) : c ∈ replacement ∨ (char c ∈ gs ∧ c ≠ d) := by
  rcases mem_replaceChar h with ⟨h, hne⟩ | h
  · exact .inr ⟨h, fun he => hne (congrArg char he)⟩
  · exact .inl (by simpa using h)

theorem mem_quoteLiteralKeys {c : Char} (h : char c ∈ quoteLiteralKeys gs) : char c ∈ gs := by
  fun_induction quoteLiteralKeys gs with
  | case1 t rest ih =>
    rw [List.mem_cons, or_iff_right (by simp)] at h
    exact List.mem_cons_of_mem _ (ih h)
  | case2 t g rest hg hmark ih =>
    rw [List.mem_cons, or_iff_right (by simp)] at h
    exact List.mem_cons_of_mem _ (List.mem_cons_of_mem _ (ih h))
  | case3 t g rest hg hmark ih =>
    rw [List.mem_cons, or_iff_right (by simp)] at h
    exact List.mem_cons_of_mem _ (ih h)
  | case4 g rest hne ih =>
    rcases List.mem_cons.1 h with h | h
    · exact h ▸ List.mem_cons_self
    · exact List.mem_cons_of_mem _ (ih h)
  | case5 => exact h

theorem mem_quoteKeys {c : Char} (h : char c ∈ quoteKeys gs) :
    c ∈ [optionalMark, ':', '"'] ∨ char c ∈ gs := by
  rcases mem_quoteNameKeys h with h | h
  · rcases mem_replaceWord (mem_quoteLiteralKeys h) with h | h
    · exact .inl (List.mem_of_mem_dropLast (by simpa using h))
    · exact .inr h
  · exact .inl (by simp [Glyph.char.inj h])

theorem mem_markShapes {c : Char} (h : char c ∈ markShapes gs) :
    c ∈ ['#', '(', ')', '@'] ∨ (char c ∈ gs ∧ c ∉ ['\x7b', '\x7d']) := by
  have hnew : ∀ {new : List Char}, c ∈ new → (∀ d ∈ new, d ∈ ['#', '(', ')', '@']) →
      c ∈ ['#', '(', ')', '@'] ∨ (char c ∈ gs ∧ c ∉ ['\x7b', '\x7d']) :=
    fun hc hsub => .inl (hsub c hc)
  rcases char_mem_replaceChar h with h | ⟨h, hclose⟩
  · exact hnew h (by decide)
  rcases char_mem_replaceChar h with h | ⟨h, hopen⟩
  · exact hnew h (by decide)
  rcases mem_replaceWord h with h | h
  · exact hnew h (by decide)
  rcases mem_replaceWord h with h | h
  · exact hnew h (by decide)
  · exact .inr ⟨h, by simp [hopen, hclose]⟩

theorem mem_markSequences {c : Char} (h : char c ∈ markSequences gs) :
    c ∈ ['$', '~', '(', ')', '^'] ∨ (char c ∈ gs ∧ c ∉ ['>', '[', ']']) := by
  have hnew : ∀ {new : List Char}, c ∈ new → (∀ d ∈ new, d ∈ ['$', '~', '(', ')', '^']) →
      c ∈ ['$', '~', '(', ')', '^'] ∨ (char c ∈ gs ∧ c ∉ ['>', '[', ']']) :=
    fun hc hsub => .inl (hsub c hc)
  rcases char_mem_replaceChar h with h | ⟨h, hclose⟩
  · exact hnew h (by decide)
  rcases char_mem_replaceChar h with h | ⟨h, hopen⟩
  · exact hnew h (by decide)
  rcases char_mem_replaceChar h with h | ⟨h, hangle⟩
  · exact hnew h (by decide)
  rcases mem_replaceWord h with h | h
  · exact hnew h (by decide)
  rcases mem_replaceWord h with h | h
  · exact hnew h (by decide)
  · exact .inr ⟨h, by simp [hopen, hclose, hangle]⟩

theorem mem_dangling {ops : List (List Char × Char)} {c : Char}
    (h : char c ∈ ops.foldl (fun gs p => replaceWord p.1 [p.2] gs) gs) :
    c ∈ ops.map (·.2) ∨ char c ∈ gs := by
  induction ops generalizing gs with
  | nil => exact .inr h
  | cons p ops ih =>
    rcases ih h with h | h
    · exact .inl (List.mem_cons_of_mem _ h)
    · rcases mem_replaceWord h with h | h
      · exact .inl (by simp [List.mem_singleton.1 h])
      · exact .inr h

theorem mem_squeeze {c : Char} (h : char c ∈ squeeze gs) :
    c ∈ danglingOperators.map (·.2) ∨ (char c).isLayout = false := by
  refine (mem_dangling h).imp_right fun h => ?_
  rw [trimOperators_eq] at h
  have hlayout := (List.dropWhile_suffix _).subset ((List.rdropWhile_prefix _ _).subset h)
  simpa using (List.mem_filter.1 hlayout).2

/-- The passes that an accepted annotation goes through. -/
theorem ofText_eq_ok {text : String} (h : ofText text = .ok gs) :
    reservedIn (squeeze (ofChars text.toList)) = []
      ∧ gs = markSequences (unwrapIndexers false
          (markShapes (quoteKeys (squeeze (ofChars text.toList))))) := by
  simp only [ofText] at h
  split at h
  · cases h
  · split at h
    · cases h
    · rename_i hreserved
      split at h
      · cases h
      · cases h
        exact ⟨by simpa using hreserved, rfl⟩

/-- Of blanks and of the brackets of the source nothing is left. -/
def dropped : List Char :=
  [' ', '\t', '\r', '\n', '\x7b', '\x7d', '[', ']', '>']

theorem not_mem_form {text : String} {c : Char} (hc : c ∈ dropped) (h : ofText text = .ok gs) :
    char c ∉ gs := by
  obtain ⟨-, rfl⟩ := ofText_eq_ok h
  have hgone : ∀ c ∈ dropped, c ∈ ['>', '[', ']'] ∨ c ∈ ['\x7b', '\x7d']
      ∨ (c ∉ danglingOperators.map (·.2) ∧ (char c).isLayout = true) := by decide
  have hnew : ∀ c ∈ dropped, c ∉ ['$', '~', '(', ')', '^'] ∧ c ∉ ['#', '(', ')', '@']
      ∧ c ∉ [optionalMark, ':', '"'] := by decide
  obtain ⟨hsequences, hshapes, hkeys⟩ := hnew c hc
  intro hm
  obtain ⟨hm, hbracket⟩ := (mem_markSequences hm).resolve_left hsequences
  obtain ⟨hm, hbrace⟩ :=
    (mem_markShapes ((unwrapIndexers_sublist _ _).subset hm)).resolve_left hshapes
  have hsource := mem_squeeze ((mem_quoteKeys hm).resolve_left hkeys)
  rcases hgone c hc with hc | hc | ⟨hoperator, hlayout⟩
  · exact hbracket hc
  · exact hbrace hc
  · rw [hsource.resolve_left hoperator] at hlayout
    cases hlayout

/-- In an accepted annotation each marker of a composite type has its group. -/
theorem opened_form {text : String} (h : ofText text = .ok gs) : Opened gs := by
  obtain ⟨hreserved, rfl⟩ := ofText_eq_ok h
  apply opened_markSequences
  apply opened_unwrapIndexers
  apply opened_markShapes
  apply opened_of_not_mem
  intro c hc hm
  have hfresh : ∀ c ∈ openers, c ∈ reserved ∧ c ∉ [optionalMark, ':', '"'] := by decide
  obtain ⟨hres, hnew⟩ := hfresh c hc
  have hsource := (mem_quoteKeys hm).resolve_left hnew
  have hmem : c ∈ reservedIn (squeeze (ofChars text.toList)) :=
    List.mem_filter.2 ⟨hres, List.contains_iff_mem.2 hsource⟩
  rw [hreserved] at hmem
  cases hmem

end MarkerForm

/-! ### Tokens -/

namespace Token

open Glyph MarkerForm

variable {gs : List Glyph}

theorem spelled_cons (t : Token) (rest : List Token) :
    spelled (t :: rest) = t.text.toList ++ spelled rest := by
  rw [spelled, List.flatMap_cons, spelled]

theorem spelled_prependName (text : List Char) (tokens : List Token) :
    spelled (prependName text tokens) = text ++ spelled tokens := by
  rcases prependName_cases tokens with ⟨s, rest, rfl, hname⟩ | hname
  · rw [hname, spelled_cons, spelled_cons, String.toList_ofList, List.append_assoc]
  · rw [hname, spelled_cons, String.toList_ofList]

theorem spelled_ofGlyphs (gs : List Glyph) : spelled (ofGlyphs gs) = textOf gs := by
  induction gs with
  | nil => rfl
  | cons g rest ih =>
    cases g with
    | literal t => rw [ofGlyphs, spelled_prependName, ih, textOf_literal]
    | char c =>
      cases hc : punctuation? c with
      | none =>
        rw [ofGlyphs, hc, spelled_prependName, ih, textOf_char]
        rfl
      | some kind =>
        rw [ofGlyphs, hc, spelled_cons, ih, textOf_char]
        simp

theorem ne_empty_prependName {text : List Char} (hne : text ≠ []) {tokens : List Token}
    (h : ∀ t ∈ tokens, t.text ≠ "") : ∀ t ∈ prependName text tokens, t.text ≠ "" := by
  have hname : ∀ r : List Char, String.ofList (text ++ r) ≠ "" := by
    intro r he
    have hempty := congrArg String.toList he
    rw [String.toList_ofList] at hempty
    exact hne (List.append_eq_nil_iff.1 hempty).1
  intro t ht
  rcases prependName_cases tokens with ⟨s, rest, rfl, hprepend⟩ | hprepend
  · rw [hprepend] at ht
    rcases List.mem_cons.1 ht with rfl | ht
    · exact hname _
    · exact h t (List.mem_cons_of_mem _ ht)
  · rw [hprepend] at ht
    rcases List.mem_cons.1 ht with rfl | ht
    · simpa using hname []
    · exact h t ht

theorem ne_empty_ofGlyphs (h : ∀ t, literal t ∈ gs → t ≠ []) :
    ∀ t ∈ ofGlyphs gs, t.text ≠ "" := by
  induction gs with
  | nil => simp [ofGlyphs]
  | cons g rest ih =>
    have hrest := ih fun t ht => h t (List.mem_cons_of_mem _ ht)
    cases g with
    | literal t => exact ne_empty_prependName (h t List.mem_cons_self) hrest
    | char c =>
      cases hc : punctuation? c with
      | none =>
        rw [ofGlyphs, hc]
        exact ne_empty_prependName (by simp) hrest
      | some kind =>
        rw [ofGlyphs, hc]
        simpa using hrest

theorem mem_openers {c : Char} {kind : TokenKind} (h : punctuation? c = some kind)
    (hkind : kind ∈ [TokenKind.exactShape, .shape, .array, .tuple]) : c ∈ openers := by
  unfold punctuation? at h
  split at h <;> cases h <;> first | decide | exact absurd hkind (by decide)

/-- Where markers have their groups, so have their tokens. -/
theorem groupOpen_of_opened (h : Opened gs) {before after : List Token} {t : Token}
    (htokens : ofGlyphs gs = before ++ t :: after)
    (hkind : t.kind ∈ [TokenKind.exactShape, .shape, .array, .tuple]) :
    ∃ u rest, after = u :: rest ∧ u.kind = .groupOpen := by
  induction gs generalizing before with
  | nil => simp [ofGlyphs] at htokens
  | cons g rest ih =>
    by_cases hg : ∀ c, g = char c → punctuation? c = none
    · have hname : t.kind ≠ .name := by
        intro hname
        rw [hname] at hkind
        exact absurd hkind (by decide)
      rw [ofGlyphs_cons hg] at htokens
      rcases prependName_cases (ofGlyphs rest) with ⟨s, tail, hrest, hprepend⟩ | hprepend
      · rw [hprepend] at htokens
        cases before with
        | nil =>
          obtain ⟨rfl, -⟩ := List.cons.inj htokens
          exact absurd rfl hname
        | cons b before =>
          obtain ⟨-, rfl⟩ := List.cons.inj htokens
          exact @ih h.2 (⟨.name, s⟩ :: before) hrest
      · rw [hprepend] at htokens
        cases before with
        | nil =>
          obtain ⟨rfl, -⟩ := List.cons.inj htokens
          exact absurd rfl hname
        | cons b before => exact ih h.2 (List.cons.inj htokens).2
    · simp only [not_forall] at hg
      obtain ⟨c, rfl, hc⟩ := hg
      obtain ⟨kind, hsome⟩ := Option.ne_none_iff_exists'.1 hc
      rw [ofGlyphs, hsome] at htokens
      cases before with
      | cons b before => exact ih h.2 (List.cons.inj htokens).2
      | nil =>
        obtain ⟨rfl, rfl⟩ := List.cons.inj htokens
        obtain ⟨rest, rfl⟩ := List.head?_eq_some_iff.1 (h.1 c (mem_openers hsome hkind) rfl)
        exact ⟨⟨.groupOpen, "("⟩, ofGlyphs rest, rfl, rfl⟩

end Token

namespace Placeholder

open Glyph MarkerForm

variable {table : List (List Char)} {gs : List Glyph}

/-! ### Pieces -/

/-- A piece is a punctuation character, or has none. -/
theorem mem_pieces {s piece : List Char} (h : piece ∈ pieces s) :
    piece ⊆ s ∧ ((∃ c kind, piece = [c] ∧ Token.punctuation? c = some kind)
      ∨ ∀ c ∈ piece, Token.punctuation? c = none) := by
  fun_induction pieces s with
  | case1 => cases h
  | case2 c rest hc ih =>
    rcases List.mem_cons.1 h with rfl | h
    · obtain ⟨kind, hkind⟩ := Option.isSome_iff_exists.1 hc
      exact ⟨by simp, .inl ⟨c, kind, rfl, hkind⟩⟩
    · exact ⟨List.subset_cons_of_subset _ (ih h).1, (ih h).2⟩
  | case3 c rest hc ih =>
    rcases List.mem_cons.1 h with rfl | h
    · refine ⟨List.cons_subset_cons _ (List.takeWhile_prefix _).subset, .inr fun d hd => ?_⟩
      rcases List.mem_cons.1 hd with rfl | hd
      · simpa using hc
      · simpa using List.all_eq_true.1 List.all_takeWhile d hd
    · obtain ⟨hsub, hpiece⟩ := ih h
      refine ⟨fun d hd => List.mem_cons_of_mem _ ?_, hpiece⟩
      exact (List.dropWhile_suffix _).subset (hsub hd)

theorem forall₂_of_mapM {α β : Type} {f : α → Option β} {R : α → β → Prop} {xs : List α}
    {ys : List β} (h : xs.mapM f = some ys)
    (hR : ∀ x ∈ xs, ∀ y ∈ ys, f x = some y → R x y) : List.Forall₂ R xs ys := by
  induction xs generalizing ys with
  | nil =>
    cases h
    exact .nil
  | cons x xs ih =>
    rw [List.mapM_cons] at h
    obtain ⟨y, hy, h⟩ := Option.bind_eq_some_iff.1 h
    obtain ⟨zs, hzs, h⟩ := Option.bind_eq_some_iff.1 h
    cases h
    refine .cons (hR x List.mem_cons_self y List.mem_cons_self hy) (ih hzs fun x hx z hz => ?_)
    exact hR x (List.mem_cons_of_mem _ hx) z (List.mem_cons_of_mem _ hz)

theorem text_classify (s : List Char) : (classify s).text = String.ofList s := by
  unfold classify
  split <;> rfl

theorem Restorable.mark_not_mem (h : Restorable table gs) :
    mark ∉ textOf (gs.map (relabel (look table))) := by
  intro hm
  obtain ⟨g, hg, hmg⟩ := List.mem_flatMap.1 hm
  obtain ⟨k, hk, rfl⟩ := List.mem_map.1 hg
  cases k with
  | char c =>
    obtain rfl := List.mem_singleton.1 hmg
    exact h.masked.char _ hk rfl
  | literal t =>
    obtain ⟨n, rfl⟩ := h.masked.literal t hk
    obtain ⟨text, -, hlook, hwhole⟩ := h.exists_literal hk
    rw [relabel_literal, hlook] at hmg
    exact hwhole.2 hmg

/-- Of structure a name has nothing, since its literals are set aside. -/
theorem not_structural (h : Masked gs) (hgone : ∀ c ∈ dropped, char c ∉ gs) {c : Char}
    (hc : c ∈ textOf gs) (hnone : Token.punctuation? c = none) : c ∉ structural := by
  have hcases : ∀ c ∈ structural, (Token.punctuation? c).isSome = true
      ∨ (c ∈ dropped ∧ c ≠ mark ∧ c.isDigit = false) := by decide
  intro hs
  rcases hcases c hs with hsome | ⟨hdropped, hmark, hdigit⟩
  · rw [hnone] at hsome
    cases hsome
  · obtain ⟨g, hg, hcg⟩ := List.mem_flatMap.1 hc
    cases g with
    | char d =>
      obtain rfl := List.mem_singleton.1 hcg
      exact hgone c hdropped hg
    | literal t =>
      obtain ⟨k, rfl⟩ := h.literal t hg
      exact not_mem_write hmark hdigit k hcg

theorem yields_of_mem (h : Masked gs) (hgone : ∀ c ∈ dropped, char c ∉ gs) {piece : List Char}
    (hpiece : piece ∈ pieces (textOf gs)) {t : Token}
    (ht : (restore? table piece).map classify = some t) (hne : t.text ≠ "") :
    Yields table piece t := by
  obtain ⟨s, hs, rfl⟩ := Option.map_eq_some_iff.1 ht
  obtain ⟨hsub, ⟨c, kind, rfl, hkind⟩ | hnone⟩ := mem_pieces hpiece
  · have hmark : c ≠ mark := by
      rintro rfl
      cases hkind
    rw [restore?_char hmark, restore?] at hs
    obtain rfl := Option.some.inj hs
    refine ⟨?_, fun hname => ?_⟩
    · rw [restore?_char hmark, restore?, text_classify, String.toList_ofList]
      rfl
    · rw [classify_sign hkind] at hname
      cases hname
      exact absurd hkind (Token.punctuation?_ne_name c)
  · refine ⟨by rw [hs, text_classify, String.toList_ofList], fun _ => ⟨hne, fun c hc => ?_⟩⟩
    exact not_structural h hgone (hsub hc) (hnone c hc)

end Placeholder

namespace Token

open Glyph MarkerForm

/-- The tokens of an accepted annotation are well formed. Put together they are its marker form,
with all literals put back, and so is each by itself for its piece of the form; they have no
mark of a placeholder, and a marker of a composite type has its group right behind it. -/
theorem scan_wellFormed {text : String} {tokens : List Token} (h : scan text = .ok tokens) :
    MarkerForm.render text = .ok (String.ofList (spelled tokens))
      ∧ Placeholder.render text = .ok (some (String.ofList (spelled tokens)))
      ∧ Placeholder.scan text = .ok (some tokens)
      ∧ (∃ form : Placeholder.Form, Placeholder.rewrite text = .ok (some form)
        ∧ List.Forall₂ (Placeholder.Yields form.literals) (Placeholder.pieces form.source) tokens)
      ∧ (∀ t ∈ tokens, Char.ofNat 0 ∉ t.text.toList)
      ∧ ∀ before t after, tokens = before ++ t :: after →
        t.kind ∈ [TokenKind.exactShape, .shape, .array, .tuple] →
          ∃ u rest, after = u :: rest ∧ u.kind = .groupOpen := by
  have hscan : Placeholder.scan text = .ok (some tokens) := by
    rw [Placeholder.scan_eq, h]
    rfl
  rcases Placeholder.rewrite_cases text with ⟨fault, -, hform⟩ | ⟨form, table, hrewrite, hr, hform⟩
  · rw [scan, hform] at h
    cases h
  · rw [scan, hform] at h
    obtain rfl := Except.ok.inj h
    have hgone : ∀ c ∈ dropped, char c ∉ form :=
      fun c hc hm => not_mem_form hc hform (char_mem_map_relabel.2 hm)
    have hne := ne_empty_ofGlyphs fun t => hr.ne_nil
    have hrender : MarkerForm.render text
        = .ok (String.ofList (textOf (form.map (relabel (Placeholder.look table))))) := by
      rw [MarkerForm.render, hform]
      rfl
    rw [spelled_ofGlyphs]
    refine ⟨hrender, ?_, hscan, ⟨⟨textOf form, table⟩, hrewrite, ?_⟩, ?_, ?_⟩
    · rw [Placeholder.render_eq, hrender]
      rfl
    · apply Placeholder.forall₂_of_mapM (Placeholder.tokens_textOf hr)
      intro piece hpiece t ht hyield
      exact Placeholder.yields_of_mem hr.masked hgone hpiece hyield (hne t ht)
    · intro t ht hm
      apply hr.mark_not_mem
      rw [← spelled_ofGlyphs]
      exact List.mem_flatMap.2 ⟨t, ht, hm⟩
    · intro before t after htokens hkind
      exact groupOpen_of_opened (opened_form hform) htokens hkind

/-- A literal behind a digit, with a bracket in it. -/
theorem scan_wellFormed_besideDigit :
    let tokens : List Token :=
      [⟨.tuple, "^"⟩, ⟨.groupOpen, "("⟩, ⟨.name, "7'('"⟩, ⟨.groupClose, ")"⟩]
    scan "[7'(']" = .ok tokens ∧ MarkerForm.render "[7'(']" = .ok (String.ofList (spelled tokens))
      ∧ Placeholder.render "[7'(']" = .ok (some (String.ofList (spelled tokens)))
      ∧ Placeholder.scan "[7'(']" = .ok (some tokens)
      ∧ (∃ form : Placeholder.Form, Placeholder.rewrite "[7'(']" = .ok (some form)
        ∧ List.Forall₂ (Placeholder.Yields form.literals) (Placeholder.pieces form.source) tokens)
      ∧ (∀ t ∈ tokens, Char.ofNat 0 ∉ t.text.toList)
      ∧ ∀ before t after, tokens = before ++ t :: after →
        t.kind ∈ [TokenKind.exactShape, .shape, .array, .tuple] →
          ∃ u rest, after = u :: rest ∧ u.kind = .groupOpen := by
  intro tokens
  have hscan : scan "[7'(']" = .ok tokens := Outcome.ok_of_toOption (by decide +kernel)
  exact ⟨hscan, scan_wellFormed hscan⟩

end Token

end StructuralTypes

import StructuralTypes.Proofs.MaskedNames

/-! An annotation is read as its placeholders are. The literals set aside come back one by one,
in the whole marker form and in each piece of it, and what was done to plain text is what was
done to glyphs. -/

namespace StructuralTypes

/-! ### The first passes -/

namespace MarkerForm

open Glyph

theorem opaque_dangling {ops : List (List Char × Char)} (hops : ∀ p ∈ ops, p ∈ danglingOperators) :
    Opaque fun gs => ops.foldl (fun gs p => replaceWord p.1 [p.2] gs) gs := by
  have hne : ∀ p ∈ danglingOperators, p.1 ≠ [] := by decide
  induction ops with
  | nil => exact ⟨fun _ _ => rfl, fun _ => rfl⟩
  | cons p ops ih =>
    exact (ih fun q hq => hops q (List.mem_cons_of_mem _ hq)).comp
      (opaque_replaceWord (hne p (hops p List.mem_cons_self)) [p.2])

/-- What is left once comments are dropped. -/
theorem opaque_trim : Opaque fun gs => danglingOperators.foldl
    (fun gs p => replaceWord p.1 [p.2] gs) (trimOperators (dropLayout gs)) :=
  (opaque_dangling fun _ hp => hp).comp (opaque_trimOperators.comp opaque_dropLayout)

theorem squeeze_relabel (f : List Char → List Char) (gs : List Glyph) :
    squeeze (gs.map (relabel f)) = (squeeze gs).map (relabel f) := by
  rw [squeeze, dropComments_relabel]
  exact opaque_trim.relabel f _

/-- Literals are dropped with the comments they stand in, and not otherwise. -/
theorem literals_squeeze_sublist (gs : List Glyph) :
    (literals (squeeze gs)).Sublist (literals gs) := by
  have hrest : literals (squeeze gs) = literals (dropComments false gs) := opaque_trim.literals _
  rw [hrest]
  exact (dropComments_sublist false gs).filterMap text?

end MarkerForm

namespace Placeholder

open Glyph MarkerForm

/-! ### Literals set aside -/

theorem masked_mask {gs : List Glyph} (h : char mark ∉ gs) (n : Nat) : Masked (mask n gs) := by
  induction gs generalizing n with
  | nil => exact ⟨by simp [mask], by simp [mask]⟩
  | cons g rest ih =>
    rw [List.mem_cons, not_or] at h
    cases g with
    | char c =>
      refine masked_cons ⟨fun d hd => ?_, by simp⟩ (ih h.2 n)
      rintro rfl
      exact h.1 (List.mem_singleton.1 hd)
    | literal t => exact masked_cons (masked_write n) (ih h.2 (n + 1))

theorem literals_mask (n : Nat) (gs : List Glyph) :
    literals (mask n gs) = (List.range' n (literals gs).length).map write := by
  induction gs generalizing n with
  | nil => rfl
  | cons g rest ih =>
    cases g with
    | char c => exact ih n
    | literal t =>
      rw [mask, literals_literal, literals_literal, ih, List.length_cons, List.range'_succ,
        List.map_cons]

/-- Numbers stand for the literals in their order. -/
theorem mask_relabel (before : List (List Char)) (gs : List Glyph) :
    (mask before.length gs).map (relabel (look (before ++ literals gs))) = gs := by
  induction gs generalizing before with
  | nil => rfl
  | cons g rest ih =>
    cases g with
    | char c => rw [mask, List.map_cons, literals_char, ih, relabel_char]
    | literal t =>
      have hrest := ih (before ++ [t])
      have ht : (before ++ t :: literals rest)[before.length]? = some t := by simp
      rw [List.length_append, List.length_singleton, List.append_assoc,
        List.singleton_append] at hrest
      rw [mask, List.map_cons, literals_literal, relabel_literal, look_write, ht, hrest]
      rfl

theorem write_injective : Function.Injective write := by
  intro a b h
  have ha := read?_write a []
  rw [h, read?_write] at ha
  cases ha
  rfl

/-- A literal has at least its two quotes, and no mark. -/
def IsWhole (t : List Char) : Prop :=
  2 ≤ t.length ∧ mark ∉ t

theorem mem_unescape {q c : Char} {s : List Char} (h : c ∈ Escapes.unescape q s) :
    c = q ∨ c ∈ s := by
  rw [Escapes.unescape] at h
  fun_induction Escapes.replaceQuotes q [q] s with
  | case1 rest ih =>
    rcases List.mem_append.1 h with h | h
    · exact .inl (List.mem_singleton.1 h)
    · exact (ih h).imp_right fun hc => List.mem_cons_of_mem _ (List.mem_cons_of_mem _ hc)
  | case2 d rest hd ih =>
    rcases List.mem_cons.1 h with rfl | h
    · exact .inr List.mem_cons_self
    · exact (ih h).imp_right (List.mem_cons_of_mem _)
  | case3 d rest hd ih =>
    rcases List.mem_cons.1 h with rfl | h
    · exact .inr List.mem_cons_self
    · exact (ih h).imp_right (List.mem_cons_of_mem _)
  | case4 => cases h

/-- A key has quotes of its own, and else what its literal has, and the optional mark. -/
theorem IsWhole.keyOfLiteral {t : List Char} (h : IsWhole t) (isOptional : Bool) :
    IsWhole (keyOfLiteral t isOptional) := by
  obtain ⟨hlong, hmark⟩ := h
  cases t with
  | nil => cases hlong
  | cons q rest =>
    rw [List.mem_cons, not_or] at hmark
    have hquote : mark ≠ '"' := by decide
    have hoptional : mark ≠ optionalMark := by decide
    constructor
    · simp only [MarkerForm.keyOfLiteral, List.length_cons, List.length_append]
      omega
    · intro hm
      simp only [MarkerForm.keyOfLiteral, List.mem_cons, List.mem_append, List.not_mem_nil,
        or_false] at hm
      rcases hm with hm | (hm | hm) | hm
      · exact hquote hm
      · rcases mem_unescape hm with hm | hm
        · exact hmark.1 hm
        · exact hmark.2 (List.mem_of_mem_dropLast hm)
      · cases isOptional with
        | true => exact hoptional (List.mem_singleton.1 hm)
        | false => cases hm
      · exact hquote hm

/-- A text whose placeholders have their literals. -/
structure Restorable (table : List (List Char)) (gs : List Glyph) : Prop where
  masked : Masked gs
  inRange : ∀ k, write k ∈ literals gs → k < table.length
  whole : ∀ t ∈ table, IsWhole t

theorem two_le_length_of_literal? {s text after : List Char}
    (h : literal? s = some (text, after)) : 2 ≤ text.length := by
  cases s with
  | nil => cases h
  | cons q rest =>
    rw [literal?] at h
    split at h
    · obtain ⟨p, -, he⟩ := Option.map_eq_some_iff.1 h
      cases he
      simp
    · cases h

theorem isWhole_of_mem_ofChars {s text : List Char} (hs : mark ∉ s)
    (h : literal text ∈ ofChars s) : IsWhole text := by
  fun_induction ofChars s with
  | case1 => cases h
  | case2 c rest t after hl ih =>
    rw [literal?_eq_some hl, List.mem_append, not_or] at hs
    rcases List.mem_cons.1 h with he | hm
    · cases he
      exact ⟨two_le_length_of_literal? hl, hs.1⟩
    · exact ih hs.2 hm
  | case3 c rest hl ih =>
    rcases List.mem_cons.1 h with he | hm
    · cases he
    · exact ih (fun hm => hs (List.mem_cons_of_mem _ hm)) hm

variable {table : List (List Char)} {gs : List Glyph}

theorem Restorable.of_subset {hs : List Glyph} (h : Restorable table gs) (hsub : hs ⊆ gs) :
    Restorable table hs where
  masked := h.masked.of_subset hsub
  inRange k hk := h.inRange k (mem_literals.2 (hsub (mem_literals.1 hk)))
  whole := h.whole

theorem Restorable.exists_literal {k : Nat} (h : Restorable table gs)
    (hk : literal (write k) ∈ gs) :
    ∃ text, table[k]? = some text ∧ look table (write k) = text ∧ IsWhole text := by
  have hlt := h.inRange k (mem_literals.2 hk)
  have htext := List.getElem?_eq_getElem hlt
  refine ⟨_, htext, ?_, h.whole _ (List.getElem_mem hlt)⟩
  rw [look_write, htext]
  rfl

/-! ### Literals put back -/

theorem restore?_char {c : Char} (h : c ≠ mark) (s : List Char) :
    restore? table (c :: s) = (restore? table s).map (c :: ·) := by
  rw [restore?]
  split
  · rename_i hr
    rw [read?_of_ne h] at hr
    cases hr
  · cases restore? table s <;> rfl

theorem restore?_write (k : Nat) (s : List Char) :
    restore? table (write k ++ s)
      = table[k]?.bind fun text => (restore? table s).map (text ++ ·) := by
  have hread := read?_write k s
  rw [write_append] at hread ⊢
  rw [restore?]
  split
  · rename_i hr
    rw [hread] at hr
    cases hr
    cases table[k]? with
    | none => rfl
    | some text => cases restore? table s <;> rfl
  · rename_i hr
    rw [hread] at hr
    cases hr

theorem restore?_textOf (h : Restorable table gs) :
    restore? table (textOf gs) = some (textOf (gs.map (relabel (look table)))) := by
  induction gs with
  | nil => rw [textOf_nil, restore?]; rfl
  | cons g rest ih =>
    have hrest := ih (h.of_subset (List.subset_cons_self g rest))
    cases g with
    | char c =>
      rw [textOf_char, restore?_char (h.masked.char c List.mem_cons_self), hrest]
      rfl
    | literal t =>
      obtain ⟨k, rfl⟩ := h.masked.literal t List.mem_cons_self
      obtain ⟨text, htext, hlook, -⟩ := h.exists_literal List.mem_cons_self
      rw [textOf_literal, restore?_write, hrest, htext, List.map_cons, relabel_literal, hlook]
      rfl

/-! ### Pieces -/

theorem pieces_sign {c : Char} (h : (Token.punctuation? c).isSome = true) (s : List Char) :
    pieces (c :: s) = [c] :: pieces s := by
  rw [pieces, if_pos h]

/-- What stands between two pieces of punctuation is one piece. -/
theorem pieces_run {cs s : List Char} (hne : cs ≠ [])
    (hcs : ∀ c ∈ cs, Token.punctuation? c = none)
    (hs : ∀ c ∈ s.head?, (Token.punctuation? c).isSome = true) :
    pieces (cs ++ s) = cs :: pieces s := by
  cases cs with
  | nil => exact absurd rfl hne
  | cons c cs =>
    have hall : ∀ d ∈ cs, (Token.punctuation? d).isNone = true := by
      intro d hd
      rw [hcs d (List.mem_cons_of_mem _ hd)]
      rfl
    have hc : ¬ (Token.punctuation? c).isSome = true := by simp [hcs c List.mem_cons_self]
    rw [List.cons_append, pieces, if_neg hc, List.takeWhile_append_of_pos hall,
      List.dropWhile_append_of_pos hall]
    cases s with
    | nil => simp
    | cons d s =>
      obtain ⟨kind, hd⟩ := Option.isSome_iff_exists.1 (hs d rfl)
      simp [hd]

theorem classify_sign {c : Char} {kind : TokenKind} (h : Token.punctuation? c = some kind) :
    classify [c] = ⟨kind, String.ofList [c]⟩ := by
  rw [classify, h]
  rfl

theorem classify_name {s : List Char} (h : ∀ c, s = [c] → Token.punctuation? c = none) :
    classify s = ⟨.name, String.ofList s⟩ := by
  cases s with
  | nil => rfl
  | cons c rest =>
    cases rest with
    | nil =>
      rw [classify, h c rfl]
      rfl
    | cons d rest => rfl

theorem punctuation?_write {c : Char} {k : Nat} (h : c ∈ write k) :
    Token.punctuation? c = none := by
  rcases mem_write h with rfl | hd
  · rfl
  · unfold Token.punctuation?
    split <;> first | rfl | exact absurd hd (by decide)

/-- Behind a run nothing comes, or punctuation does. -/
def EndsRun (after : List Glyph) : Prop :=
  ∀ g ∈ after.head?, ∃ c kind, g = char c ∧ Token.punctuation? c = some kind

/-- Glyphs begin with a run of others than punctuation. -/
theorem exists_run (gs : List Glyph) :
    ∃ run after, gs = run ++ after ∧ (∀ c, char c ∈ run → Token.punctuation? c = none)
      ∧ EndsRun after := by
  induction gs with
  | nil => exact ⟨[], [], rfl, by simp, by simp [EndsRun]⟩
  | cons g rest ih =>
    obtain ⟨run, after, rfl, hrun, hafter⟩ := ih
    by_cases hg : ∀ c, g = char c → Token.punctuation? c = none
    · refine ⟨g :: run, after, rfl, fun c hc => ?_, hafter⟩
      rcases List.mem_cons.1 hc with rfl | hc
      · exact hg c rfl
      · exact hrun c hc
    · simp only [not_forall] at hg
      obtain ⟨c, rfl, hc⟩ := hg
      obtain ⟨kind, hkind⟩ := Option.ne_none_iff_exists'.1 hc
      refine ⟨[], char c :: (run ++ after), rfl, by simp, ?_⟩
      rintro g ⟨⟩
      exact ⟨c, kind, rfl, hkind⟩

variable {run : List Glyph}

theorem punctuation?_textOf (h : Masked run)
    (hrun : ∀ c, char c ∈ run → Token.punctuation? c = none) :
    ∀ c ∈ textOf run, Token.punctuation? c = none := by
  intro c hc
  obtain ⟨g, hg, hcg⟩ := List.mem_flatMap.1 hc
  cases g with
  | char d =>
    obtain rfl := List.mem_singleton.1 hcg
    exact hrun c hg
  | literal t =>
    obtain ⟨k, rfl⟩ := h.literal t hg
    exact punctuation?_write hcg

theorem textOf_ne_nil (hne : run ≠ []) (h : ∀ t, literal t ∈ run → t ≠ []) : textOf run ≠ [] := by
  cases run with
  | nil => exact absurd rfl hne
  | cons g rest =>
    cases g with
    | char c => simp
    | literal t => simp [h t List.mem_cons_self]

theorem Restorable.ne_nil (h : Restorable table run) {t : List Char}
    (ht : literal t ∈ run.map (relabel (look table))) : t ≠ [] := by
  obtain ⟨g, hg, hgt⟩ := List.mem_map.1 ht
  cases g with
  | char c => cases hgt
  | literal u =>
    obtain ⟨k, rfl⟩ := h.masked.literal u hg
    obtain ⟨text, -, hlook, hwhole⟩ := h.exists_literal hg
    rw [relabel_literal, hlook] at hgt
    rintro rfl
    cases hgt
    exact absurd hwhole.1 (by decide)

/-- A restored piece that is one character is no literal. -/
theorem eq_char_of_textOf (h : Restorable table run) {c : Char}
    (hc : textOf (run.map (relabel (look table))) = [c]) : run = [char c] := by
  cases run with
  | nil => cases hc
  | cons g rest =>
    cases g with
    | char d =>
      rw [List.map_cons, relabel_char, textOf_char, List.cons.injEq] at hc
      obtain ⟨rfl, hrest⟩ := hc
      have hwhole := h.of_subset (List.subset_cons_self _ _)
      by_cases hne : rest = []
      · rw [hne]
      · exact absurd hrest (textOf_ne_nil (by simpa using hne) fun t => hwhole.ne_nil)
    | literal t =>
      obtain ⟨k, rfl⟩ := h.masked.literal t List.mem_cons_self
      obtain ⟨text, -, hlook, hwhole⟩ := h.exists_literal List.mem_cons_self
      rw [List.map_cons, relabel_literal, hlook, textOf_literal] at hc
      have hlong := hwhole.1
      have hlen := congrArg List.length hc
      rw [List.length_append, List.length_singleton] at hlen
      omega

/-- A run without punctuation is one piece, and one name. -/
theorem classify_run (h : Restorable table run)
    (hrun : ∀ c, char c ∈ run → Token.punctuation? c = none) :
    (restore? table (textOf run)).map classify
      = some ⟨.name, String.ofList (textOf (run.map (relabel (look table))))⟩ := by
  rw [restore?_textOf h, Option.map_some, classify_name]
  intro c hc
  rw [eq_char_of_textOf h hc] at hrun
  exact hrun c List.mem_cons_self

/-- Punctuation is a piece and a token by itself. -/
theorem tokens_sign {c : Char} {kind : TokenKind} (hc : c ≠ mark)
    (hkind : Token.punctuation? c = some kind) (rest : List Glyph) :
    ((pieces (textOf (char c :: rest))).mapM fun piece => (restore? table piece).map classify)
      = ((pieces (textOf rest)).mapM fun piece => (restore? table piece).map classify).map
        (⟨kind, String.ofList [c]⟩ :: ·) := by
  have hpiece : (restore? table [c]).map classify = some ⟨kind, String.ofList [c]⟩ := by
    rw [restore?_char hc, restore?]
    exact congrArg some (classify_sign hkind)
  rw [textOf_char, pieces_sign (by simp [hkind]), List.mapM_cons, hpiece]
  cases (pieces (textOf rest)).mapM fun piece => (restore? table piece).map classify <;> rfl

variable {after : List Glyph}

theorem EndsRun.relabel (h : EndsRun after) (f : List Char → List Char) :
    EndsRun (after.map (relabel f)) := by
  cases after with
  | nil => exact h
  | cons g rest =>
    obtain ⟨c, kind, rfl, hkind⟩ := h g rfl
    rintro g ⟨⟩
    exact ⟨c, kind, rfl, hkind⟩

theorem EndsRun.isSome (h : EndsRun after) :
    ∀ c ∈ (textOf after).head?, (Token.punctuation? c).isSome = true := by
  cases after with
  | nil => simp
  | cons g rest =>
    obtain ⟨d, kind, rfl, hkind⟩ := h g rfl
    rintro c ⟨⟩
    rw [hkind]
    rfl

/-- A run without punctuation is one piece and one token. -/
theorem tokens_run (h : Restorable table run) (hne : run ≠ [])
    (hrun : ∀ c, char c ∈ run → Token.punctuation? c = none) (hafter : EndsRun after) :
    ((pieces (textOf (run ++ after))).mapM fun piece => (restore? table piece).map classify)
      = ((pieces (textOf after)).mapM fun piece => (restore? table piece).map classify).map
        (⟨.name, String.ofList (textOf (run.map (relabel (look table))))⟩ :: ·) := by
  have hfull : textOf run ≠ [] := by
    apply textOf_ne_nil hne
    intro t ht
    obtain ⟨k, rfl⟩ := h.masked.literal t ht
    exact write_ne_nil k
  rw [textOf_append, pieces_run hfull (punctuation?_textOf h.masked hrun) hafter.isSome,
    List.mapM_cons, classify_run h hrun]
  cases (pieces (textOf after)).mapM fun piece => (restore? table piece).map classify <;> rfl

/-- The pieces of a form with placeholders become the tokens of the form with its literals. -/
theorem tokens_textOf (h : Restorable table gs) :
    ((pieces (textOf gs)).mapM fun piece => (restore? table piece).map classify)
      = some (Token.ofGlyphs (gs.map (relabel (look table)))) := by
  induction hn : gs.length using Nat.strongRecOn generalizing gs with
  | ind n ih =>
    subst hn
    obtain ⟨run, after, rfl, hrun, hafter⟩ := exists_run gs
    by_cases hne : run = []
    · subst hne
      cases after with
      | nil =>
        rw [List.append_nil, textOf_nil, pieces]
        rfl
      | cons g rest =>
        obtain ⟨c, kind, rfl, hkind⟩ := hafter g rfl
        have hrest := ih rest.length (by simp) (h.of_subset (List.subset_cons_self _ _)) rfl
        rw [List.nil_append, tokens_sign (h.masked.char c List.mem_cons_self) hkind, hrest,
          List.map_cons, relabel_char, Token.ofGlyphs, hkind]
        rfl
    · have hleft : Restorable table run := h.of_subset (List.subset_append_left _ _)
      have hright : Restorable table after := h.of_subset (List.subset_append_right _ _)
      have hpos := List.length_pos_iff.2 hne
      have hrest := ih after.length (by simpa using hpos) hright rfl
      have hrun' : ∀ c, char c ∈ run.map (relabel (look table)) → Token.punctuation? c = none :=
        fun c hc => hrun c (char_mem_map_relabel.1 hc)
      rw [tokens_run hleft hne hrun hafter, hrest, List.map_append,
        Token.ofGlyphs_append (by simpa using hne) hrun' (hafter.relabel _)]
      rfl

/-! ### The whole form -/

theorem masked_ofChars {s : List Char} (h : mark ∉ s) : Masked (mask 0 (ofChars s)) := by
  apply masked_mask
  intro hm
  have htext := char_mem_textOf hm
  rw [textOf_ofChars] at htext
  exact h htext

theorem mem_literals_mask {k : Nat} (h : write k ∈ literals (mask 0 gs)) :
    k < (literals gs).length := by
  rw [literals_mask] at h
  obtain ⟨j, hj, hjk⟩ := List.mem_map.1 h
  obtain rfl := write_injective hjk
  simpa using hj

theorem nodup_literals_mask (gs : List Glyph) : (literals (mask 0 gs)).Nodup := by
  rw [literals_mask]
  exact List.Nodup.map write_injective List.nodup_range'

/-- The source before keys are looked for, with optional keys marked. -/
def beforeKeys (gs : List Glyph) : List Glyph :=
  replaceWord ['?', ':'] [optionalMark, ':'] (squeeze gs)

theorem literals_beforeKeys_sublist (gs : List Glyph) :
    (literals (beforeKeys gs)).Sublist (literals gs) := by
  rw [beforeKeys, (opaque_replaceWord (by decide) _).literals]
  exact literals_squeeze_sublist gs

/-- The placeholders of keys are respelled as their literals are. -/
theorem respelled_beforeKeys {s : List Char} (h : mark ∉ s) :
    ∃ form table, respellKeys? (literals (ofChars s)) (textOf (beforeKeys (mask 0 (ofChars s))))
        = some (textOf form, table) ∧ Restorable table form
      ∧ quoteLiteralKeys (beforeKeys (ofChars s)) = form.map (relabel (look table)) := by
  have hmask := masked_ofChars h
  have hsub := literals_beforeKeys_sublist (mask 0 (ofChars s))
  obtain ⟨form, table, hrespell, hform⟩ := exists_respelled
    (blind_markOptional.masked (blind_squeeze.masked hmask))
    ((nodup_literals_mask _).sublist hsub) fun k hk => mem_literals_mask (hsub.subset hk)
  refine ⟨form, table, hrespell, ⟨hform.masked, fun k hk => ?_, ?_⟩, ?_⟩
  · rw [hform.literals] at hk
    rw [hform.length]
    exact mem_literals_mask (hsub.subset hk)
  · have hliterals : ∀ t ∈ literals (ofChars s), IsWhole t :=
      fun t ht => isWhole_of_mem_ofChars h (mem_literals.1 ht)
    intro t ht
    obtain ⟨k, hk⟩ := List.mem_iff_getElem?.1 ht
    rcases hform.entries k t hk with hold | ⟨u, isOptional, hu, rfl⟩
    · exact hliterals t (List.mem_of_getElem? hold)
    · exact (hliterals u (List.mem_of_getElem? hu)).keyOfLiteral isOptional
  · have hsource : beforeKeys (ofChars s)
        = (beforeKeys (mask 0 (ofChars s))).map (relabel (look (literals (ofChars s)))) := by
      have hlook := mask_relabel [] (ofChars s)
      rw [List.length_nil, List.nil_append] at hlook
      rw [beforeKeys, beforeKeys, ← (opaque_replaceWord (by decide) _).relabel, ← squeeze_relabel,
        hlook]
    rw [hsource]
    exact hform.relabelled

/-- The passes behind the keys give the same for a form and for its placeholders. -/
theorem shaped_eq (h : Restorable table gs) :
    onText markShapes (quoteNames none (textOf gs))
        = textOf (markShapes (quoteNameKeys false gs))
      ∧ Restorable table (markShapes (quoteNameKeys false gs))
      ∧ markShapes (quoteNameKeys false (gs.map (relabel (look table))))
        = (markShapes (quoteNameKeys false gs)).map (relabel (look table)) := by
  have hnames := masked_quoteNameKeys false h.masked
  have hpass := opaque_markShapes.comp (opaque_quoteNameKeys false)
  have hstart : startsName none = true := rfl
  refine ⟨?_, ⟨blind_markShapes.masked hnames, ?_, h.whole⟩, hpass.relabel _ gs⟩
  · rw [@quoteNames_textOf gs h.masked false none fun _ _ _ => hstart,
      blind_markShapes.onText hnames]
  · rw [hpass.literals gs]
    exact h.inRange

theorem sequenced_eq (h : Restorable table gs) :
    onText markSequences (onText (unwrapIndexers false) (textOf gs))
        = textOf (markSequences (unwrapIndexers false gs))
      ∧ Restorable table (markSequences (unwrapIndexers false gs))
      ∧ markSequences (unwrapIndexers false (gs.map (relabel (look table))))
        = (markSequences (unwrapIndexers false gs)).map (relabel (look table)) := by
  have hunwrap := blind_unwrapIndexers false
  have hpass := opaque_markSequences.comp (opaque_unwrapIndexers false)
  refine ⟨?_, ⟨blind_markSequences.masked (hunwrap.masked h.masked), ?_, h.whole⟩,
    hpass.relabel _ gs⟩
  · rw [hunwrap.onText h.masked, blind_markSequences.onText (hunwrap.masked h.masked)]
  · rw [hpass.literals gs]
    exact h.inRange

/-- Both ways of reading refuse an annotation for the same reason, or one form is that of the
other with its placeholders for literals. -/
theorem rewrite_cases (text : String) :
    (∃ fault, rewrite text = .error fault ∧ ofText text = .error fault)
      ∨ ∃ form table, rewrite text = .ok (some ⟨textOf form, table⟩) ∧ Restorable table form
        ∧ ofText text = .ok (form.map (relabel (look table))) := by
  by_cases hnul : mark ∈ text.toList
  · refine .inl ⟨⟨.nulCharacter, some text⟩, ?_, ?_⟩
    · simp only [rewrite, List.contains_iff_mem.2 hnul]
      rfl
    · simp only [ofText, show text.toList.contains (Char.ofNat 0) = true from
        List.contains_iff_mem.2 hnul]
      rfl
  have hplain : text.toList.contains mark = false := by simpa using hnul
  obtain ⟨form, table, hrespell, hform, hkeys⟩ := respelled_beforeKeys hnul
  have hmask := masked_ofChars hnul
  have hsqueezed := blind_squeeze.masked hmask
  have hsource := blind_squeeze.onText hmask
  have hmarked := blind_markOptional.onText hsqueezed
  rw [← beforeKeys] at hmarked
  have hreserved : reservedIn ((textOf (squeeze (mask 0 (ofChars text.toList)))).map .char)
      = reservedIn (squeeze (ofChars text.toList)) := by
    have hlook := mask_relabel [] (ofChars text.toList)
    rw [List.length_nil, List.nil_append] at hlook
    rw [← spread, reservedIn_spread hsqueezed, ← hlook, squeeze_relabel, reservedIn_relabel, hlook]
  obtain ⟨hshaped, hshapedForm, hshapedLook⟩ := shaped_eq hform
  obtain ⟨hlast, hlastForm, hlastLook⟩ := sequenced_eq hshapedForm
  have hindexer := hasIndexer_textOf hshapedForm.masked
  have hglyphs : markShapes (quoteKeys (squeeze (ofChars text.toList)))
      = (markShapes (quoteNameKeys false form)).map (relabel (look table)) := by
    rw [quoteKeys, ← beforeKeys, hkeys, hshapedLook]
  unfold rewrite ofText
  simp only [hplain, show text.toList.contains (Char.ofNat 0) = false from hplain, hsource,
    hreserved, hmarked, hrespell, hshaped, hindexer, hlast, hglyphs, hasNamedIndexer_relabel,
    hlastLook]
  generalize reservedIn (squeeze (ofChars text.toList)) = reserved
  by_cases hr : (!reserved.isEmpty) = true
  · refine .inl ⟨⟨.reservedCharacters (String.ofList reserved), some text⟩, ?_, ?_⟩ <;>
      simp only [hr] <;> rfl
  by_cases hn : hasNamedIndexer (markShapes (quoteNameKeys false form)) = true
  · refine .inl ⟨⟨.namedIndexer, some text⟩, ?_, ?_⟩ <;> simp only [hr, hn] <;> rfl
  · refine .inr ⟨_, table, ?_, hlastForm, ?_⟩ <;> simp only [hr, hn] <;> rfl

/-- The text of the form is restored as a whole. -/
theorem render_eq (text : String) : render text = (MarkerForm.render text).map some := by
  unfold render MarkerForm.render
  rcases rewrite_cases text with ⟨fault, hrewrite, hform⟩ | ⟨form, table, hrewrite, h, hform⟩
  · rw [hrewrite, hform]
    rfl
  · rw [hrewrite, hform]
    simp only [bind, Except.bind, Option.bind, restore?_textOf h]
    rfl

/-- The tokens of an annotation are those of its placeholders, restored piece by piece. -/
theorem scan_eq (text : String) : scan text = (Token.scan text).map some := by
  unfold scan Token.scan
  rcases rewrite_cases text with ⟨fault, hrewrite, hform⟩ | ⟨form, table, hrewrite, h, hform⟩
  · rw [hrewrite, hform]
    rfl
  · rw [hrewrite, hform]
    simp only [bind, Except.bind, Option.bind, tokens_textOf h]
    rfl

end Placeholder

end StructuralTypes

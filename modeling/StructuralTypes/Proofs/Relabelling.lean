import Mathlib.Data.List.Basic
import Mathlib.Data.List.TakeWhile
import Mathlib.Data.Fintype.EquivFin
import StructuralTypes.Proofs.Glyphs
import StructuralTypes.Token.Placeholder

/-! String literals are opaque to the passes over an annotation. A pass does the same whatever
the texts of the literals are, and keeps the literals in their order; so a literal in its
result stands in surroundings that do not depend on its text. -/

namespace StructuralTypes

namespace Glyph

/-- Puts another text into each literal. -/
def relabel (f : List Char → List Char) : Glyph → Glyph
  | char c => char c
  | literal text => literal (f text)

variable {f : List Char → List Char} {g : Glyph} {c : Char} {gs : List Glyph}

@[simp] theorem relabel_char : relabel f (char c) = char c := rfl

@[simp] theorem relabel_literal (text : List Char) :
    relabel f (literal text) = literal (f text) := rfl

@[simp] theorem relabel_eq_char : relabel f g = char c ↔ g = char c := by
  cases g <;> simp [relabel]

@[simp] theorem isLiteral_relabel : (relabel f g).isLiteral = g.isLiteral := by
  cases g <;> rfl

@[simp] theorem isLayout_relabel : (relabel f g).isLayout = g.isLayout := by
  cases g <;> rfl

@[simp] theorem isOperator_relabel : (relabel f g).isOperator = g.isOperator := by
  cases g <;> rfl

theorem char_mem_map_relabel : char c ∈ gs.map (relabel f) ↔ char c ∈ gs := by
  simp

@[simp] theorem literals_nil : literals [] = [] := rfl

@[simp] theorem literals_char (rest : List Glyph) : literals (char c :: rest) = literals rest := rfl

@[simp] theorem literals_literal (text : List Char) (rest : List Glyph) :
    literals (literal text :: rest) = text :: literals rest := rfl

@[simp] theorem literals_append (xs ys : List Glyph) :
    literals (xs ++ ys) = literals xs ++ literals ys :=
  List.filterMap_append

@[simp] theorem literals_map_char (cs : List Char) : literals (cs.map char) = [] := by
  induction cs with
  | nil => rfl
  | cons c cs ih => simpa using ih

theorem mem_literals {text : List Char} : text ∈ literals gs ↔ literal text ∈ gs := by
  simp only [literals, List.mem_filterMap]
  constructor
  · rintro ⟨g, hg, htext⟩
    cases g with
    | char c => cases htext
    | literal t =>
      cases htext
      exact hg
  · exact fun h => ⟨_, h, rfl⟩

theorem map_relabel_congr {f' : List Char → List Char}
    (h : ∀ text ∈ literals gs, f text = f' text) :
    gs.map (relabel f) = gs.map (relabel f') := by
  apply List.map_congr_left
  intro g hg
  cases g with
  | char c => rfl
  | literal text => rw [relabel_literal, relabel_literal, h text (mem_literals.2 hg)]

/-- Relabelling changes no literal whose text stays. -/
theorem map_relabel_eq_self (h : ∀ text ∈ literals gs, f text = text) :
    gs.map (relabel f) = gs := by
  have hid : gs.map (relabel id) = gs := by
    have hglyph : ∀ g, relabel id g = g := fun g => by cases g <;> rfl
    rw [funext hglyph, List.map_id']
  exact (map_relabel_congr h).trans hid

theorem isPrefixOf_relabel (word : List Char) (gs : List Glyph) :
    (word.map char).isPrefixOf (gs.map (relabel f)) = (word.map char).isPrefixOf gs := by
  induction word generalizing gs with
  | nil => simp
  | cons c word ih =>
    cases gs with
    | nil => rfl
    | cons g rest =>
      have hg : (char c == relabel f g) = (char c == g) := by cases g <;> rfl
      rw [List.map_cons, List.map_cons, List.isPrefixOf, List.isPrefixOf, ih, hg]

/-! ### Opaque passes -/

/-- A pass that neither looks into literals nor drops, adds or moves any. -/
structure Opaque (pass : List Glyph → List Glyph) : Prop where
  relabel : ∀ f gs, pass (gs.map (relabel f)) = (pass gs).map (Glyph.relabel f)
  literals : ∀ gs, literals (pass gs) = Glyph.literals gs

theorem Opaque.comp {pass next : List Glyph → List Glyph} (hn : Opaque next) (hp : Opaque pass) :
    Opaque fun gs => next (pass gs) where
  relabel f gs := by rw [hp.relabel, hn.relabel]
  literals gs := by rw [hn.literals, hp.literals]

theorem exists_split_of_literals {gs : List Glyph} {text : List Char}
    {before after : List (List Char)} (h : literals gs = before ++ text :: after) :
    ∃ xs ys, gs = xs ++ literal text :: ys ∧ literals xs = before ∧ literals ys = after := by
  induction gs generalizing before with
  | nil => simp at h
  | cons g rest ih =>
    cases g with
    | char c =>
      obtain ⟨xs, ys, rfl, hx, hy⟩ := ih h
      exact ⟨char c :: xs, ys, rfl, hx, hy⟩
    | literal t =>
      cases before with
      | nil =>
        obtain ⟨rfl, hrest⟩ := List.cons.inj h
        exact ⟨[], rest, rfl, rfl, hrest⟩
      | cons b before =>
        obtain ⟨rfl, hrest⟩ := List.cons.inj h
        obtain ⟨xs, ys, rfl, hx, hy⟩ := ih hrest
        exact ⟨literal t :: xs, ys, rfl, by simp [hx], hy⟩

/-- The surroundings of a literal in the result do not depend on its text. -/
theorem Opaque.exists_context {pass : List Glyph → List Glyph} (h : Opaque pass)
    (front back : List Glyph) :
    ∃ xs ys, ∀ text, pass (front ++ literal text :: back) = xs ++ literal text :: ys := by
  -- a text that no other literal has marks the place
  obtain ⟨tag, htag⟩ :=
    Infinite.exists_notMem_finset (Glyph.literals front ++ Glyph.literals back).toFinset
  rw [List.mem_toFinset, List.mem_append, not_or] at htag
  have hliterals : Glyph.literals (pass (front ++ literal tag :: back))
      = Glyph.literals front ++ tag :: Glyph.literals back := by
    rw [h.literals, literals_append, literals_literal]
  obtain ⟨xs, ys, hpass, hx, hy⟩ := exists_split_of_literals hliterals
  refine ⟨xs, ys, fun text => ?_⟩
  have hkept : ∀ {zs : List Glyph}, tag ∉ Glyph.literals zs →
      zs.map (Glyph.relabel fun t => if t = tag then text else t) = zs := by
    intro zs hz
    apply map_relabel_eq_self
    intro t ht
    rw [if_neg]
    rintro rfl
    exact hz ht
  have hrelabel := h.relabel (fun t => if t = tag then text else t) (front ++ literal tag :: back)
  rw [hpass] at hrelabel
  simpa [hkept htag.1, hkept htag.2, hkept (hx ▸ htag.1), hkept (hy ▸ htag.2)] using hrelabel

/-! ### Comments, blanks and edges -/

theorem dropComments_cons {g : Glyph} (h : g ≠ char '/') (gs : List Glyph) :
    dropComments false (g :: gs) = g :: dropComments false gs := by
  cases gs with
  | nil => rfl
  | cons k gs => rw [dropComments, if_neg fun hg => h hg.1]

theorem dropComments_relabel (inside : Bool) (gs : List Glyph) :
    dropComments inside (gs.map (relabel f)) = (dropComments inside gs).map (relabel f) := by
  fun_induction dropComments inside gs with
  | case1 inside => rw [List.map_nil, dropComments]
  | case2 rest ih => simp [dropComments, ih]
  | case3 g rest hg ih => simp [dropComments, hg, ih]
  | case4 g => rfl
  | case5 g k rest hg ih => simpa [dropComments, hg] using ih
  | case6 g k rest hg ih =>
    rw [List.map_cons, List.map_cons, dropComments, if_neg (by simpa using hg), List.map_cons,
      ← ih, List.map_cons]

theorem opaque_dropLayout : Opaque dropLayout where
  relabel f gs := by
    simp [dropLayout, List.filter_map, Function.comp_def]
  literals gs := by
    induction gs with
    | nil => rfl
    | cons g rest ih =>
      cases g with
      | char c =>
        simp [dropLayout, List.filter_cons]
        split <;> simpa [dropLayout] using ih
      | literal text => simpa [dropLayout, isLayout] using ih

theorem opaque_trimOperators : Opaque trimOperators where
  relabel f gs := by
    simp [trimOperators, List.dropWhile_map, Function.comp_def, ← List.map_reverse]
  literals gs := by
    have hdrop : ∀ gs : List Glyph, literals (gs.dropWhile isOperator) = literals gs := by
      intro gs
      induction gs with
      | nil => rfl
      | cons g rest ih =>
        cases g with
        | char c =>
          rw [List.dropWhile_cons]
          split
          · simpa using ih
          · rfl
        | literal text => rfl
    have hreverse : ∀ gs : List Glyph, literals gs.reverse = (literals gs).reverse :=
      fun gs => List.filterMap_reverse
    simp [trimOperators, hreverse, hdrop]

/-! ### Replacing -/

theorem literals_replaceFrom {word : List Char} (hne : word ≠ []) (replacement : List Char)
    (skip : Nat) (gs : List Glyph) (h : literals (gs.take skip) = []) :
    literals (replaceFrom word replacement skip gs) = literals gs := by
  induction gs generalizing skip with
  | nil => rfl
  | cons g rest ih =>
    cases skip with
    | succ skip =>
      cases g with
      | char c => simpa [replaceFrom] using ih skip (by simpa using h)
      | literal text => simp at h
    | zero =>
      rw [replaceFrom]
      split
      · rename_i hp
        obtain ⟨after, hafter⟩ := List.isPrefixOf_iff_prefix.1 hp
        cases word with
        | nil => exact absurd rfl hne
        | cons c word =>
          obtain ⟨rfl, hrest⟩ := List.cons.inj hafter
          rw [literals_append, literals_map_char, List.nil_append]
          apply ih
          simp [← hrest]
      · cases g with
        | char c => simpa using ih 0 rfl
        | literal text => simpa using ih 0 rfl

theorem opaque_replaceWord {word : List Char} (hne : word ≠ []) (replacement : List Char) :
    Opaque (replaceWord word replacement) where
  relabel f gs := by
    suffices hskip : ∀ skip, replaceFrom word replacement skip (gs.map (relabel f))
        = (replaceFrom word replacement skip gs).map (relabel f) from hskip 0
    induction gs with
    | nil => exact fun _ => by simp [replaceFrom]
    | cons g rest ih =>
      intro skip
      cases skip with
      | succ skip => simpa [replaceFrom] using ih skip
      | zero =>
        have hp := @isPrefixOf_relabel f word (g :: rest)
        rw [List.map_cons] at hp ⊢
        rw [replaceFrom, replaceFrom, hp]
        split <;> simp [ih]
  literals gs := literals_replaceFrom hne replacement 0 gs rfl

/-- No word reaches over a literal. -/
theorem replaceWord_context {word : List Char} (hne : word ≠ []) (replacement : List Char)
    (xs ys : List Glyph) (t : List Char) :
    replaceWord word replacement (xs ++ literal t :: ys)
      = replaceWord word replacement xs ++ literal t :: replaceWord word replacement ys := by
  have hout : ∀ cs : List Char, literal t ∉ cs.map char := by simp
  obtain ⟨c, hc⟩ := List.exists_mem_of_ne_nil word hne
  have hself : replaceWord word replacement [literal t] = [literal t] :=
    replaceWord_eq_self hc (by simp) replacement
  have hright : replaceWord word replacement ([literal t] ++ ys)
      = [literal t] ++ replaceWord word replacement ys := by
    rw [replaceWord_append, hself]
    rintro x ⟨⟩ y -
    exact .inl (hout _)
  rw [replaceWord_append, ← List.singleton_append, hright]
  · rfl
  · rintro x - y ⟨⟩
    exact .inr (hout _)

theorem opaque_replaceChar (c : Char) (replacement : List Char) :
    Opaque (replaceChar c replacement) where
  relabel f gs := by
    rw [replaceChar, replaceChar, List.flatMap_map, List.map_flatMap]
    congr
    funext g
    by_cases hg : g = char c <;> simp [hg]
  literals gs := by
    induction gs with
    | nil => rfl
    | cons g rest ih =>
      rw [replaceChar] at ih ⊢
      rw [List.flatMap_cons, literals_append, ih]
      cases g with
      | char d => by_cases hd : d = c <;> simp [hd]
      | literal text => simp

end Glyph

namespace MarkerForm

open Glyph

variable {f : List Char → List Char} {g : Glyph} {gs : List Glyph}

theorem reservedIn_relabel (gs : List Glyph) : reservedIn (gs.map (relabel f)) = reservedIn gs := by
  simp [reservedIn]

/-! ### Keys -/

@[simp] theorem isKeyGlyph_relabel : isKeyGlyph (relabel f g) = isKeyGlyph g := by
  cases g <;> rfl

/-- What keeps a literal apart goes by the glyph only. -/
theorem takeWhile_relabel (p : Glyph → Bool) (hp : ∀ g, p (relabel f g) = p g)
    (gs : List Glyph) :
    (gs.map (relabel f)).takeWhile p = (gs.takeWhile p).map (relabel f) := by
  rw [List.takeWhile_map]
  simp [Function.comp_def, hp]

theorem dropWhile_relabel (p : Glyph → Bool) (hp : ∀ g, p (relabel f g) = p g)
    (gs : List Glyph) :
    (gs.map (relabel f)).dropWhile p = (gs.dropWhile p).map (relabel f) := by
  rw [List.dropWhile_map]
  simp [Function.comp_def, hp]

theorem ne_mark_relabel (g : Glyph) :
    (relabel f g != char optionalMark) = (g != char optionalMark) := by
  rw [Bool.eq_iff_iff]
  simp

theorem splitAfterMark_relabel (run : List Glyph) :
    splitAfterMark (run.map (relabel f))
      = ((splitAfterMark run).1.map (relabel f), (splitAfterMark run).2.map (relabel f)) := by
  simp only [splitAfterMark, takeWhile_relabel (· != char optionalMark) ne_mark_relabel,
    dropWhile_relabel (· != char optionalMark) ne_mark_relabel]
  cases run.dropWhile (· != char optionalMark) <;> simp

theorem splitAfterMark_append (run : List Glyph) :
    (splitAfterMark run).1 ++ (splitAfterMark run).2 = run := by
  have hrun := List.takeWhile_append_dropWhile (p := (· != char optionalMark)) (l := run)
  simp only [splitAfterMark]
  cases hd : run.dropWhile (· != char optionalMark) <;> simp_all

theorem head?_relabel_eq_char {c : Char} :
    ((gs.map (relabel f)).head? == some (char c)) = (gs.head? == some (char c)) := by
  cases gs with
  | nil => rfl
  | cons g rest =>
    rw [Bool.eq_iff_iff]
    simp

theorem quoteRun_relabel (flag : Bool) (run after : List Glyph) :
    quoteRun flag (run.map (relabel f)) (after.map (relabel f))
      = (quoteRun flag run after).map (relabel f) := by
  have hpair : ∀ p : List Glyph × List Glyph,
      (if (!(p.2.map (relabel f)).isEmpty && after.head? == some (char ':')) = true
        then p.1.map (relabel f) ++ char '"' :: (p.2.map (relabel f) ++ [char '"'])
        else run.map (relabel f))
      = (if (!p.2.isEmpty && after.head? == some (char ':')) = true
          then p.1 ++ char '"' :: (p.2 ++ [char '"']) else run).map (relabel f) := by
    intro p
    rw [List.isEmpty_map]
    split <;> simp
  cases flag with
  | true =>
    simp only [quoteRun, if_true, splitAfterMark_relabel, head?_relabel_eq_char]
    exact hpair (splitAfterMark run)
  | false =>
    simp only [quoteRun, head?_relabel_eq_char]
    exact hpair ([], run)

theorem literals_quoteRun (flag : Bool) (run after : List Glyph) :
    literals (quoteRun flag run after) = literals run := by
  have hrun : ∀ p : List Glyph × List Glyph, p.1 ++ p.2 = run →
      literals (if (!p.2.isEmpty && after.head? == some (char ':')) = true
        then p.1 ++ char '"' :: (p.2 ++ [char '"']) else run) = literals run := by
    intro p hp
    rw [← hp]
    split <;> simp
  cases flag with
  | true => exact hrun _ (splitAfterMark_append run)
  | false => exact hrun ([], run) rfl

theorem opaque_quoteNameKeys (flag : Bool) : Opaque (quoteNameKeys flag) where
  relabel f gs := by
    fun_induction quoteNameKeys flag gs with
    | case1 flag => simp [quoteNameKeys]
    | case2 flag g rest hg after ih =>
      rw [List.map_cons, quoteNameKeys, if_pos (by simpa using hg)]
      simp only [takeWhile_relabel isKeyGlyph fun _ => isKeyGlyph_relabel,
        dropWhile_relabel isKeyGlyph fun _ => isKeyGlyph_relabel]
      rw [ih, ← List.map_cons, quoteRun_relabel, List.map_append]
    | case3 flag g rest hg ih =>
      rw [List.map_cons, quoteNameKeys, if_neg (by simpa using hg), isLiteral_relabel, ih,
        List.map_cons]
  literals gs := by
    fun_induction quoteNameKeys flag gs with
    | case1 flag => rfl
    | case2 flag g rest hg after ih =>
      have hrest := List.takeWhile_append_dropWhile (p := isKeyGlyph) (l := rest)
      rw [literals_append, literals_quoteRun, ih, ← literals_append, List.cons_append, hrest]
    | case3 flag g rest hg ih =>
      cases g <;> simpa using ih

/-! ### Shapes, indexers and sequences -/

theorem opaque_markShapes : Opaque markShapes :=
  (opaque_replaceChar _ _).comp <| (opaque_replaceChar _ _).comp <|
    (opaque_replaceWord (by decide) _).comp (opaque_replaceWord (by decide) _)

theorem opaque_markSequences : Opaque markSequences :=
  (opaque_replaceChar _ _).comp <| (opaque_replaceChar _ _).comp <|
    (opaque_replaceChar _ _).comp <|
      (opaque_replaceWord (by decide) _).comp (opaque_replaceWord (by decide) _)

@[simp] theorem isBracket_relabel : isBracket (relabel f g) = isBracket g := by
  rw [Bool.eq_iff_iff]
  simp [isBracket]

theorem closesAsIndexer_relabel (gs : List Glyph) :
    closesAsIndexer (gs.map (relabel f)) = closesAsIndexer gs := by
  have hp : ∀ g, (!isBracket (relabel f g)) = !isBracket g := fun g => by simp
  have hend := @isPrefixOf_relabel f [']', ':'] (gs.dropWhile (!isBracket ·))
  simp only [closesAsIndexer, takeWhile_relabel (!isBracket ·) hp,
    dropWhile_relabel (!isBracket ·) hp, List.isEmpty_map]
  exact congrArg _ hend

theorem opaque_unwrapIndexers (inside : Bool) : Opaque (unwrapIndexers inside) where
  relabel f gs := by
    induction gs generalizing inside with
    | nil => simp [unwrapIndexers]
    | cons g rest ih =>
      simp only [List.map_cons, unwrapIndexers, relabel_eq_char, closesAsIndexer_relabel, ih]
      split
      · rfl
      · split <;> rfl
  literals gs := by
    induction gs generalizing inside with
    | nil => rfl
    | cons g rest ih =>
      rw [unwrapIndexers]
      split
      · rename_i h
        simp [h.1, ih]
      · split
        · rename_i h
          simp [h.2, ih]
        · cases g <;> simp [ih]

theorem afterKey?_relabel (gs : List Glyph) :
    afterKey? (gs.map (relabel f)) = (afterKey? gs).map (List.map (relabel f)) := by
  cases gs with
  | nil => rfl
  | cons g rest =>
    cases g with
    | literal text => rfl
    | char c =>
      rw [List.map_cons, relabel_char, afterKey?, afterKey?,
        takeWhile_relabel isKeyGlyph fun _ => isKeyGlyph_relabel,
        dropWhile_relabel isKeyGlyph fun _ => isKeyGlyph_relabel, List.isEmpty_map]
      · split
        · cases rest.dropWhile isKeyGlyph with
          | nil => rfl
          | cons k after =>
            by_cases hk : k = char '"' <;> simp [hk]
        · rfl
      · simp
      · simp

theorem startsNamedIndexer_relabel (gs : List Glyph) :
    startsNamedIndexer (gs.map (relabel f)) = startsNamedIndexer gs := by
  cases gs with
  | nil => rfl
  | cons g rest =>
    rw [List.map_cons, startsNamedIndexer, startsNamedIndexer, afterKey?_relabel]
    have hchar : ∀ (k : Glyph) (c : Char), (relabel f k == char c) = (k == char c) := by
      intro k c
      cases k <;> rfl
    rw [hchar]
    cases afterKey? rest with
    | none => rfl
    | some after =>
      cases after with
      | nil => rfl
      | cons k after => simp [hchar, closesAsIndexer_relabel]

theorem hasNamedIndexer_relabel (gs : List Glyph) :
    hasNamedIndexer (gs.map (relabel f)) = hasNamedIndexer gs := by
  induction gs with
  | nil => rfl
  | cons g rest ih =>
    have hstart := @startsNamedIndexer_relabel f (g :: rest)
    rw [List.map_cons] at hstart ⊢
    rw [hasNamedIndexer, hasNamedIndexer, hstart, ih]

end MarkerForm

end StructuralTypes

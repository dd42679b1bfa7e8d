import StructuralTypes.Proofs.Grouping
import StructuralTypes.Proofs.Quoting
import StructuralTypes.Token.Brackets

/-! Unbalanced brackets are refused. Up to the brackets of indexers every pass over the source
leaves its brackets balanced if they were, and not balanced if they were not, whatever stands
around the piece that it changes. So the tokens of an annotation are balanced just when the
brackets of its source are, all taken as of one kind. -/

namespace StructuralTypes

namespace Token

/-! ### Tokens that are level -/

/-- Tokens that open and close as many groups, and go as far below any number of open ones. -/
structure Level (ts us : List Token) : Prop where
  covers : ∀ opened, Covers opened ts ↔ Covers opened us
  depth : depth ts = depth us

namespace Level

variable {ts us vs : List Token} {t u : Token}

theorem refl (ts : List Token) : Level ts ts := ⟨fun _ => Iff.rfl, rfl⟩

theorem symm (h : Level ts us) : Level us ts := ⟨fun k => (h.covers k).symm, h.depth.symm⟩

theorem trans (h : Level ts us) (h' : Level us vs) : Level ts vs :=
  ⟨fun k => (h.covers k).trans (h'.covers k), h.depth.trans h'.depth⟩

theorem balanced (h : Level ts us) : Balanced ts ↔ Balanced us := by
  rw [balanced_iff, balanced_iff, h.covers, h.depth]

theorem cons (ht : t.step = u.step) (h : Level ts us) : Level (t :: ts) (u :: us) where
  covers opened := by
    rcases lt_or_ge ((opened : Int) + t.step) 0 with hneg | hpos
    · exact iff_of_false (not_covers_cons hneg) (not_covers_cons (ht ▸ hneg))
    · obtain ⟨next, hnext⟩ := Int.eq_ofNat_of_zero_le hpos
      rw [covers_cons hnext, covers_cons (ht ▸ hnext), h.covers]
  depth := by rw [depth_cons, depth_cons, ht, h.depth]

/-- A token that is no bracket does not count. -/
theorem skip (ht : t.step = 0) (ts : List Token) : Level (t :: ts) ts where
  covers opened := covers_cons (by rw [ht, Int.add_zero])
  depth := by rw [depth_cons, ht, Int.zero_add]

/-- Nor does a group of nothing. -/
theorem pair (ts : List Token) : Level (opening :: closing :: ts) ts where
  covers opened := by
    have hopen : (opened : Int) + opening.step = (opened + 1 : Nat) := rfl
    have hclose : ((opened + 1 : Nat) : Int) + closing.step = opened := by
      rw [show closing.step = -1 from rfl]
      omega
    rw [covers_cons hopen, covers_cons hclose]
  depth := by
    rw [depth_cons, depth_cons, show opening.step = 1 from rfl, show closing.step = -1 from rfl]
    omega

theorem append_left (before : List Token) (h : Level ts us) :
    Level (before ++ ts) (before ++ us) := by
  induction before with
  | nil => exact h
  | cons t before ih => exact ih.cons rfl

end Level

end Token

namespace Glyph

open Token MarkerForm

variable {xs ys zs gs front back : List Glyph} {g : Glyph} {word replacement : List Char}

/-! ### Brackets of a text -/

theorem brackets_cons (hg : g ≠ char 'A') (gs : List Glyph) :
    brackets (g :: gs) = (bracket? g).toList ++ brackets gs := by
  rw [brackets, if_neg fun hp => hg ?_]
  obtain ⟨after, hafter⟩ := List.isPrefixOf_iff_prefix.1 hp
  exact (List.cons.inj hafter).1.symm

/-- The brackets of two texts, if the word for arrays does not reach over the border. -/
theorem brackets_append (h : ∀ x ∈ xs.getLast?, ∀ y ∈ ys.head?,
    x ∉ arrayWord.dropLast ∨ y ∉ arrayWord.tail) :
    brackets (xs ++ ys) = brackets xs ++ brackets ys := by
  induction xs with
  | nil => rfl
  | cons g rest ih =>
    have hrest := ih fun x hx y hy => h x (by
      rw [Option.mem_def] at hx ⊢
      rw [List.getLast?_cons, hx]
      rfl) y hy
    have hp : arrayWord <+: g :: rest ++ ys ↔ arrayWord <+: g :: rest := by
      refine ⟨fun hp => ?_, fun hp => hp.trans (List.prefix_append _ ys)⟩
      by_contra hn
      obtain ⟨x, hx, y, hy, hxw, hyw⟩ :=
        @exists_straddling "Array<".toList _ _ (by simp) hp hn
      exact (h x hx y hy).elim (fun hn => hn hxw) fun hn => hn hyw
    rw [List.cons_append] at hp ⊢
    rw [brackets, brackets, hrest, List.append_assoc]
    simp only [List.isPrefixOf_iff_prefix, hp]

/-- A text without brackets that the word for arrays does not end in. -/
theorem brackets_plain (h : ∀ g ∈ zs, bracket? g = none ∧ g ≠ char '<') (front : List Glyph) :
    brackets (front ++ zs) = brackets front := by
  induction front with
  | nil =>
    induction zs with
    | nil => rfl
    | cons g rest ih =>
      have hp : ¬ arrayWord <+: g :: rest := fun hp =>
        (h _ (hp.subset (by decide : char '<' ∈ arrayWord))).2 rfl
      rw [List.forall_mem_cons] at h
      change brackets (g :: rest) = []
      rw [brackets, if_neg fun hb => hp (List.isPrefixOf_iff_prefix.1 hb), h.1.1]
      exact ih h.2
  | cons g rest ih =>
    have hp : arrayWord <+: g :: rest ++ zs ↔ arrayWord <+: g :: rest := by
      refine ⟨fun hp => ?_, fun hp => hp.trans (List.prefix_append _ zs)⟩
      by_contra hn
      -- otherwise the end of the word is in the text
      obtain ⟨after, hafter⟩ :=
        (List.prefix_or_prefix_of_prefix hp (List.prefix_append _ zs)).resolve_left hn
      rw [← hafter, List.prefix_append_right_inj] at hp
      have hne : after ≠ [] := by
        rintro rfl
        exact hn (by simp [← hafter])
      have hlast : after.getLast? = some (char '<') := by
        have hword : (g :: rest ++ after).getLast? = some (char '<') := by rw [hafter]; decide
        rwa [List.getLast?_append_of_ne_nil _ hne] at hword
      exact (h _ (hp.subset (List.mem_of_getLast? hlast))).2 rfl
    rw [List.cons_append] at hp ⊢
    rw [brackets, brackets, ih]
    simp only [List.isPrefixOf_iff_prefix, hp]

/-! ### Texts that are alike -/

/-- Texts whose brackets are level wherever they are put. -/
def Alike (xs ys : List Glyph) : Prop :=
  ∀ front back, Level (brackets (front ++ (xs ++ back))) (brackets (front ++ (ys ++ back)))

namespace Alike

theorem refl (gs : List Glyph) : Alike gs gs := fun _ _ => .refl _

theorem trans (h : Alike xs ys) (h' : Alike ys zs) : Alike xs zs :=
  fun front back => (h front back).trans (h' front back)

theorem append {xs' ys' : List Glyph} (h : Alike xs ys) (h' : Alike xs' ys') :
    Alike (xs ++ xs') (ys ++ ys') := by
  intro front back
  have hright := h' (front ++ ys) back
  simp only [List.append_assoc] at hright ⊢
  exact (h front (xs' ++ back)).trans hright

theorem cons (g : Glyph) (h : Alike xs ys) : Alike (g :: xs) (g :: ys) :=
  (Alike.refl [g]).append h

theorem level (h : Alike xs ys) : Level (brackets xs) (brackets ys) := by
  simpa using h [] []

end Alike

/-- A text that the word for arrays does not reach into. -/
structure StandsApart (gs : List Glyph) : Prop where
  ne_nil : gs ≠ []
  first : ∀ g ∈ gs.head?, g ∉ arrayWord.tail
  last : ∀ g ∈ gs.getLast?, g ∉ arrayWord.dropLast

theorem StandsApart.brackets_eq (h : StandsApart xs) (front back : List Glyph) :
    brackets (front ++ (xs ++ back)) = brackets front ++ (brackets xs ++ brackets back) := by
  rw [brackets_append fun x _ y hy => .inr (h.first y ?_), brackets_append fun x hx y _ =>
    .inl (h.last x hx)]
  rwa [List.head?_append_of_ne_nil _ h.ne_nil] at hy

theorem alike_of_level (hx : StandsApart xs) (hy : StandsApart ys)
    (h : ∀ after, Level (brackets xs ++ after) (brackets ys ++ after)) : Alike xs ys := by
  intro front back
  rw [hx.brackets_eq, hy.brackets_eq]
  exact (h _).append_left _

theorem alike_of_brackets (hx : StandsApart xs) (hy : StandsApart ys)
    (h : brackets xs = brackets ys) : Alike xs ys :=
  alike_of_level hx hy fun after => by rw [h]; exact .refl _

/-- A word replaced by one like it leaves the text alike. -/
theorem alike_replaceWord (hne : word ≠ []) (h : Alike (replacement.map char) (word.map char))
    (gs : List Glyph) : Alike (replaceWord word replacement gs) gs := by
  suffices hskip : ∀ skip, Alike (replaceFrom word replacement skip gs) (gs.drop skip) from hskip 0
  induction gs with
  | nil =>
    intro skip
    rw [replaceFrom, List.drop_nil]
    exact .refl []
  | cons g rest ih =>
    intro skip
    cases skip with
    | succ skip => exact ih skip
    | zero =>
      rw [replaceFrom]
      split
      · rename_i hp
        obtain ⟨after, hafter⟩ := List.isPrefixOf_iff_prefix.1 hp
        have hdrop : rest.drop (word.length - 1) = after := by
          have hlen := congrArg (List.drop word.length) hafter
          obtain ⟨n, hn⟩ := Nat.exists_eq_succ_of_ne_zero (mt List.length_eq_zero_iff.1 hne)
          rw [List.drop_left' (by simp), hn, List.drop_succ_cons] at hlen
          rw [hn, Nat.succ_sub_one, hlen]
        rw [List.drop_zero, ← hafter]
        exact h.append (hdrop ▸ ih _)
      · exact (ih 0).cons g

/-! ### Passes -/

theorem literal_not_mem_arrayWord (t : List Char) : literal t ∉ arrayWord := by
  intro hm
  obtain ⟨c, -, hc⟩ := List.mem_map.1 hm
  cases hc

theorem standsApart_literal (t : List Char) : StandsApart [literal t] where
  ne_nil := List.cons_ne_nil _ _
  first := by
    rintro _ ⟨⟩ hm
    exact literal_not_mem_arrayWord t (List.mem_of_mem_tail hm)
  last := by
    rintro _ ⟨⟩ hm
    exact literal_not_mem_arrayWord t (List.mem_of_mem_dropLast hm)

theorem alike_quoteLiteralKeys (gs : List Glyph) : Alike (quoteLiteralKeys gs) gs := by
  have hliteral : ∀ t t', Alike [literal t] [literal t'] := fun t t' =>
    alike_of_brackets (standsApart_literal t) (standsApart_literal t') rfl
  fun_induction quoteLiteralKeys gs with
  | case1 t rest ih => exact (hliteral _ t).append ih
  | case2 t g rest hg hm ih =>
    have hlast : ∀ k ∈ [literal t, char optionalMark].getLast?, k ∉ arrayWord.dropLast := by
      rw [List.getLast?_cons_cons]
      rintro _ ⟨⟩
      decide
    have hmark : Alike [literal (keyOfLiteral t true)] [literal t, char optionalMark] :=
      alike_of_brackets (standsApart_literal _)
        ⟨List.cons_ne_nil _ _, (standsApart_literal t).first, hlast⟩ rfl
    rw [hm.1]
    exact hmark.append ih
  | case3 t g rest hg hm ih => exact ih.cons _
  | case4 g rest hne ih => exact ih.cons g
  | case5 => exact .refl []

theorem bracket?_of_isKeyGlyph (h : isKeyGlyph g = true) : bracket? g = none ∧ g ≠ char '<' := by
  cases g with
  | literal t => cases h
  | char c =>
    have hcases : ∀ c ∈ ['(', '[', '\x7b', ')', ']', '\x7d', '>', '<'], isKeyChar c = false := by
      decide
    have hc : c ∉ ['(', '[', '\x7b', ')', ']', '\x7d', '>', '<'] := fun hm =>
      absurd ((hcases c hm).symm.trans h) (by decide)
    simp only [List.mem_cons, List.not_mem_nil, or_false, not_or] at hc
    simp [bracket?, hc]

theorem brackets_colon (h : back.head? = some (char ':')) (front : List Glyph) :
    brackets (front ++ back) = brackets front ++ brackets back := by
  refine brackets_append fun _ _ y hy => .inr ?_
  obtain rfl := Option.some.inj (h.symm.trans hy)
  decide

/-- A run of key glyphs before a colon counts for nothing, in quotes or not. -/
theorem brackets_run {run : List Glyph} (hrun : ∀ g ∈ run, bracket? g = none ∧ g ≠ char '<')
    (h : back.head? = some (char ':')) (front : List Glyph) :
    brackets (front ++ (run ++ back)) = brackets front ++ brackets back := by
  rw [← List.append_assoc, brackets_colon h, brackets_plain hrun]

theorem alike_quoteNameKeys (flag : Bool) (gs : List Glyph) : Alike (quoteNameKeys flag gs) gs := by
  fun_induction quoteNameKeys flag gs with
  | case1 => exact .refl []
  | case2 flag g rest hg after ih =>
    have hrun : ∀ k ∈ g :: rest.takeWhile isKeyGlyph, isKeyGlyph k = true :=
      List.forall_mem_cons.2 ⟨hg, fun k hk => List.mem_takeWhile_imp hk⟩
    have hsplit : g :: rest = g :: rest.takeWhile isKeyGlyph ++ after := by
      rw [List.cons_append, List.takeWhile_append_dropWhile]
    rw [hsplit]
    by_cases hcolon : after.head? = some (char ':')
    · have hquoted : ∀ k ∈ quoteRun flag (g :: rest.takeWhile isKeyGlyph) after,
          bracket? k = none ∧ k ≠ char '<' := fun k hk => by
        rcases mem_quoteRun hk with hm | rfl
        · exact bracket?_of_isKeyGlyph (hrun k hm)
        · decide
      have hkept : (quoteNameKeys false after).head? = some (char ':') := by
        obtain ⟨more, hmore⟩ := List.head?_eq_some_iff.1 hcolon
        rw [hmore, quoteNameKeys_cons (by decide)]
        rfl
      intro front back
      have hback : ∀ {ys : List Glyph}, ys.head? = some (char ':') →
          (ys ++ back).head? = some (char ':') := fun h => by
        rw [List.head?_append, h]
        rfl
      have hrest := ih front back
      rw [brackets_colon (hback hkept), brackets_colon (hback hcolon)] at hrest
      rw [List.append_assoc, List.append_assoc, brackets_run hquoted (hback hkept),
        brackets_run (fun k hk => bracket?_of_isKeyGlyph (hrun k hk)) (hback hcolon)]
      exact hrest
    · rw [quoteRun_of_head hcolon]
      exact (Alike.refl _).append ih
  | case3 flag g rest hg ih => exact ih.cons g

/-- A word replaced by one with the same brackets leaves the text alike. -/
theorem Alike.replace (h : Alike xs gs) (hne : word ≠ []) (hold : StandsApart (word.map char))
    (hnew : StandsApart (replacement.map char))
    (hsame : brackets (replacement.map char) = brackets (word.map char)) :
    Alike (replaceWord word replacement xs) gs :=
  (alike_replaceWord hne (alike_of_brackets hnew hold hsame) xs).trans h

theorem alike_quoteKeys (gs : List Glyph) : Alike (quoteKeys gs) gs := by
  have hmarked : Alike (replaceWord ['?', ':'] [optionalMark, ':'] gs) gs :=
    (Alike.refl gs).replace (by decide) ⟨by decide, by decide, by decide⟩
      ⟨by decide, by decide, by decide⟩ rfl
  exact (alike_quoteNameKeys false _).trans ((alike_quoteLiteralKeys _).trans hmarked)

theorem alike_markShapes (gs : List Glyph) : Alike (markShapes gs) gs := by
  unfold markShapes
  simp only [replaceChar_eq]
  iterate 4
    refine Alike.replace ?_ (by decide) ⟨by decide, by decide, by decide⟩
      ⟨by decide, by decide, by decide⟩ (by decide)
  exact .refl gs

/-! ### Indexers -/

theorem shaped_colon (gs : List Glyph) :
    (markShapes (quoteKeys (char ':' :: gs))).head? = some (char ':') := by
  rw [quoteKeys_colon, markShapes_cons (by decide)]
  rfl

/-- Keys and shapes respelled, indexers close where they did. -/
theorem closesAsIndexer_shaped (gs : List Glyph) :
    closesAsIndexer (markShapes (quoteKeys gs)) = closesAsIndexer gs := by
  rw [Bool.eq_iff_iff]
  refine ⟨piecewise_shaped.closesAsIndexer, fun h => ?_⟩
  rw [closesAsIndexer_iff] at h ⊢
  constructor
  · cases gs with
    | nil => exact absurd rfl h.1
    | cons g rest =>
      obtain ⟨z, zs, hz⟩ := List.exists_cons_of_ne_nil
        (mt piecewise_shaped.nil_iff.1 (List.cons_ne_nil g rest))
      have hplain : isBracket z = false := by
        by_contra hb
        rw [Bool.not_eq_false] at hb
        obtain ⟨c, hc, rfl⟩ := isStop_iff.1 (isStop_of_isBracket hb)
        have hhead := piecewise_shaped.head (g :: rest) (List.mem_cons_of_mem _ hc) (by rw [hz]; rfl)
        rw [Option.some.inj hhead, List.takeWhile_cons_of_neg (by simp [hb])] at h
        exact h.1 rfl
      rw [hz, List.takeWhile_cons_of_pos (by simp [hplain])]
      simp
  · obtain ⟨after, hafter⟩ := h.2
    rw [EndsIndexer, piecewise_shaped.dropWhile_eq, ← hafter, List.map_cons, List.cons_append,
      piecewise_shaped.stop _ (by decide)]
    obtain ⟨more, hmore⟩ := List.head?_eq_some_iff.1 (shaped_colon after)
    exact ⟨more, congrArg _ hmore.symm⟩

/-- Without the brackets of indexers, too, respelled keys and shapes leave the text alike. -/
theorem alike_unwrapIndexers (inside : Bool) (gs : List Glyph) :
    Alike (unwrapIndexers inside (markShapes (quoteKeys gs))) (unwrapIndexers inside gs) := by
  induction hn : gs.length using Nat.strongRecOn generalizing gs inside with
  | ind n ih =>
    have hpart : ∀ gs, Alike (markShapes (quoteKeys gs)) gs := fun gs =>
      (alike_markShapes _).trans (alike_quoteKeys gs)
    have hplain : ∀ g ∈ gs.takeWhile (!isBracket ·), isBracket g = false := fun g hg => by
      simpa using List.mem_takeWhile_imp hg
    have hsplit := List.takeWhile_append_dropWhile (p := (!isBracket ·)) (l := gs)
    cases hdrop : gs.dropWhile (!isBracket ·) with
    | nil =>
      rw [hdrop, List.append_nil] at hsplit
      rw [hsplit] at hplain
      have hboth := fun {xs : List Glyph} (hxs : ∀ g ∈ xs, isBracket g = false) =>
        unwrapIndexers_append hxs inside []
      simp only [List.append_nil, unwrapIndexers] at hboth
      rw [hboth hplain, hboth (piecewise_shaped.isBracket_eq_false hplain)]
      exact hpart gs
    | cons b rest =>
      -- the next bracket is dropped in both texts or in neither
      have hb : isBracket b = true := by
        have hhead := List.head?_dropWhile_not (!isBracket ·) gs
        rw [hdrop] at hhead
        simpa using hhead
      rw [hdrop] at hsplit
      generalize gs.takeWhile (!isBracket ·) = part at hplain hsplit
      obtain rfl := hsplit
      have hrest := fun inside => ih rest.length (by simp at hn; omega) inside rest rfl
      rw [piecewise_shaped.cut part rest (.inr hb), piecewise_shaped.stop rest
        (isStop_of_isBracket hb), unwrapIndexers_append hplain,
        unwrapIndexers_append (piecewise_shaped.isBracket_eq_false hplain)]
      refine (hpart _).append ?_
      rw [unwrapIndexers, unwrapIndexers, closesAsIndexer_shaped]
      split
      · exact hrest true
      · split
        · exact hrest false
        · exact (hrest inside).cons b

/-! ### Sequences -/

theorem alike_arraysMarked (gs : List Glyph) :
    Alike (replaceWord "Array<".toList ['~', '('] (replaceWord ['[', ']'] ['$'] gs)) gs := by
  have hsuffix : Alike (['$'].map char) (['[', ']'].map char) :=
    alike_of_level ⟨by decide, by decide, by decide⟩ ⟨by decide, by decide, by decide⟩
      fun after => (Level.pair after).symm
  exact Alike.replace (alike_replaceWord (by decide) hsuffix gs) (by decide)
    ⟨by decide, by decide, by decide⟩ ⟨by decide, by decide, by decide⟩ (by decide)

/-- A text begins with what no word that is put in begins with only if it did before. -/
theorem prefix_of_replaceWord {cs : List Char} (hne : replacement ≠ [])
    (hc : ∀ c ∈ replacement.head?, c ∉ cs) (h : cs.map char <+: replaceWord word replacement gs) :
    cs.map char <+: gs := by
  obtain ⟨d, more, rfl⟩ := List.exists_cons_of_ne_nil hne
  induction cs generalizing gs with
  | nil => exact List.nil_prefix
  | cons c cs ih =>
    have hcs := hc d rfl
    rw [List.mem_cons, not_or] at hcs
    cases gs with
    | nil => exact h
    | cons g rest =>
      rw [replaceWord, replaceFrom] at h
      split at h
      · rw [List.map_cons, List.map_cons, List.cons_append, List.cons_prefix_cons] at h
        exact absurd (Glyph.char.inj h.1).symm hcs.1
      · rw [List.map_cons, List.cons_prefix_cons] at h ⊢
        exact ⟨h.1, ih (fun e he => by cases he; exact hcs.2) h.2⟩

/-- Once array types are marked, brackets are single characters. -/
theorem brackets_marked (gs : List Glyph) :
    brackets (replaceWord "Array<".toList ['~', '('] gs)
      = (replaceWord "Array<".toList ['~', '('] gs).filterMap bracket? := by
  suffices hskip : ∀ skip, brackets (replaceFrom "Array<".toList ['~', '('] skip gs)
      = (replaceFrom "Array<".toList ['~', '('] skip gs).filterMap bracket? from hskip 0
  induction gs with
  | nil => exact fun skip => by rw [replaceFrom]; rfl
  | cons g rest ih =>
    intro skip
    cases skip with
    | succ skip => exact ih skip
    | zero =>
      rw [replaceFrom]
      split
      · rw [List.map_cons, List.map_cons, List.map_nil, List.cons_append, List.cons_append,
          List.nil_append, brackets_cons (by decide), brackets_cons (by decide), ih]
        rfl
      · rename_i hp
        have hword : ¬ arrayWord.isPrefixOf
            (g :: replaceFrom "Array<".toList ['~', '('] 0 rest) = true := fun hb => hp ?_
        · rw [brackets, if_neg hword, ih]
          cases hg : bracket? g <;> simp [hg]
        · have hpre := List.isPrefixOf_iff_prefix.1 hb
          rw [List.isPrefixOf_iff_prefix]
          obtain ⟨rfl, htail⟩ := List.cons_prefix_cons.1 hpre
          refine List.cons_prefix_cons.2 ⟨rfl, ?_⟩
          exact @prefix_of_replaceWord _ "Array<".toList ['~', '('] "rray<".toList (by decide)
            (fun c hc => by cases hc; decide) htail

theorem filterMap_replaceChar {c : Char}
    (h : (replacement.map char).filterMap bracket? = [char c].filterMap bracket?)
    (gs : List Glyph) :
    (replaceChar c replacement gs).filterMap bracket? = gs.filterMap bracket? := by
  induction gs with
  | nil => rfl
  | cons g rest ih =>
    rw [replaceChar] at ih ⊢
    rw [List.flatMap_cons, List.filterMap_append, ih]
    split
    · rename_i hg
      rw [hg, h, ← List.filterMap_append]
      rfl
    · rw [← List.filterMap_append]
      rfl

end Glyph

/-! ### Tokens -/

namespace Token

open Glyph MarkerForm

variable {gs form : List Glyph} {text : String}

theorem level_prependName (text : List Char) (tokens : List Token) :
    Level (prependName text tokens) tokens := by
  obtain ⟨s, rest, rfl, hname⟩ | hname := prependName_cases tokens
  · rw [hname]
    exact (Level.refl rest).cons rfl
  · rw [hname]
    exact Level.skip rfl tokens

/-- The tokens of a text are level with the brackets in it, if these are round. -/
theorem level_ofGlyphs (h : ∀ c ∈ ['[', '\x7b', ']', '\x7d', '>'], char c ∉ gs) :
    Level (ofGlyphs gs) (gs.filterMap bracket?) := by
  induction gs with
  | nil => exact .refl []
  | cons g rest ih =>
    have hrest := ih fun c hc hm => h c hc (List.mem_cons_of_mem _ hm)
    by_cases hg : ∀ c, g = char c → punctuation? c = none
    · have hnone : bracket? g = none := by
        cases g with
        | literal t => rfl
        | char c =>
          have hcases : ∀ c ∈ ['(', '[', '\x7b', ')', ']', '\x7d', '>'],
              c ∈ ['[', '\x7b', ']', '\x7d', '>'] ∨ (punctuation? c).isSome = true := by decide
          have hc : c ∉ ['(', '[', '\x7b', ')', ']', '\x7d', '>'] := fun hm => by
            rcases hcases c hm with hgone | hsome
            · exact h c hgone List.mem_cons_self
            · rw [hg c rfl] at hsome
              cases hsome
          simp only [List.mem_cons, List.not_mem_nil, or_false, not_or] at hc
          simp [bracket?, hc]
      rw [ofGlyphs_cons hg, List.filterMap_cons_none hnone]
      exact (level_prependName _ _).trans hrest
    · simp only [not_forall] at hg
      obtain ⟨c, rfl, hc⟩ := hg
      obtain ⟨kind, hkind⟩ := Option.ne_none_iff_exists'.1 hc
      simp only [ofGlyphs, hkind]
      by_cases hopen : c = '('
      · obtain rfl := hopen
        cases hkind
        exact hrest.cons rfl
      by_cases hclose : c = ')'
      · obtain rfl := hclose
        cases hkind
        exact hrest.cons rfl
      · have hstep : (⟨kind, c.toString⟩ : Token).step = 0 ∧ bracket? (char c) = none := by
          unfold punctuation? at hkind
          split at hkind <;> cases hkind <;> first | contradiction | exact ⟨rfl, by decide⟩
        rw [List.filterMap_cons_none hstep.2]
        exact (Level.skip hstep.1 _).trans hrest

/-- The tokens of an annotation are level with the brackets of its source, those of indexers
aside. -/
theorem level_form (h : ofText text = .ok form) :
    Level (ofGlyphs form) (brackets (unwrapIndexers false (squeeze (ofChars text.toList)))) := by
  have hgone : ∀ c ∈ ['[', '\x7b', ']', '\x7d', '>'], char c ∉ form :=
    fun c hc => not_mem_form (by revert c; decide) h
  obtain ⟨-, rfl⟩ := ofText_eq_ok h
  have hmarked := ((alike_arraysMarked _).trans
    (alike_unwrapIndexers false (squeeze (ofChars text.toList)))).level
  rw [brackets_marked] at hmarked
  refine (level_ofGlyphs hgone).trans ?_
  unfold markSequences
  rwa [filterMap_replaceChar (by decide), filterMap_replaceChar (by decide),
    filterMap_replaceChar (by decide)]

end Token

namespace Node

open Glyph MarkerForm

variable {text : String} {n : Node}

/-- The brackets of an annotation that stands for a type are balanced, those of indexers aside. -/
theorem balanced_of_parse (hn : parse? text = .ok n) :
    Token.Balanced (brackets (unwrapIndexers false (squeeze (ofChars text.toList)))) := by
  obtain ⟨tokens, hscan⟩ := exists_scan hn
  obtain ⟨trees, hnested, htokens, -⟩ := exists_trees_of_scan hscan hn
  have hbalanced := TokenTree.exists_ofTokens_iff_balanced.1
    ⟨trees, TokenTree.ofTokens_eq_ok_iff.2 ⟨hnested, htokens⟩⟩
  obtain ⟨form, hform, hok⟩ := Outcome.ok_of_bind hscan
  cases hok
  exact (Token.level_form hform).balanced.1 hbalanced

end Node

end StructuralTypes

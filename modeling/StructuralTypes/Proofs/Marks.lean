import StructuralTypes.Proofs.Keys
import StructuralTypes.Proofs.Quoting

/-! Where the marks of optional keys come from. The lexer puts a mark only where a question mark
ends a key, but it does not refuse one that is in the source already: a literal that ends in the
mark is taken for an optional key. Without such literals and without question marks no property
is optional, and a literal that is a key is kept as one just when it does not end in the mark. -/

namespace StructuralTypes

/-! ### Marks in quotes -/

namespace Escapes

theorem getLast?_replaceQuotes (quote : Char) (s : List Char) :
    (replaceQuotes quote [quote] s).getLast? = s.getLast? := by
  fun_induction replaceQuotes quote [quote] s with
  | case1 rest ih => simp [List.getLast?_cons, ih]
  | case2 c rest hc ih => rw [List.getLast?_cons, ih, List.getLast?_cons (a := '\\')]
  | case3 c rest _ ih => rw [List.getLast?_cons, ih, List.getLast?_cons]
  | case4 => rfl

end Escapes

namespace MarkerForm

open Glyph

/-- Whether a text in quotes has the mark of an optional key before the quote at its end. -/
def EndsMarked (text : List Char) : Prop :=
  text.dropLast.getLast? = some optionalMark

instance (text : List Char) : Decidable (EndsMarked text) :=
  inferInstanceAs (Decidable (_ = _))

variable {t xs content : List Char} {quote : Char}

theorem endsMarked_append (ht : 2 ≤ t.length) : EndsMarked (xs ++ t) ↔ EndsMarked t := by
  have hne : t ≠ [] := List.ne_nil_of_length_pos (Nat.lt_of_lt_of_le (Nat.succ_pos _) ht)
  have hrest : t.dropLast ≠ [] := List.ne_nil_of_length_pos (by rw [List.length_dropLast]; omega)
  rw [EndsMarked, EndsMarked, List.dropLast_append_of_ne_nil hne, List.getLast?_append,
    Option.or_of_isSome (by simpa using hrest)]

theorem endsMarked_quoted (hq : Escapes.isQuote quote = true) :
    EndsMarked (quote :: (content ++ [quote])) ↔ content.getLast? = some optionalMark := by
  have hne : quote ≠ optionalMark := by
    rintro rfl
    exact absurd hq (by decide)
  rw [EndsMarked, ← List.cons_append, List.dropLast_concat, List.getLast?_cons, Option.some_inj]
  cases content.getLast? <;> simp [hne]

/-- A literal that is respelled as a key has a mark at its end just if it had one. -/
theorem endsMarked_keyOfLiteral (ht : (Escapes.quoted? t).isSome = true) :
    EndsMarked (keyOfLiteral t false) ↔ EndsMarked t := by
  obtain ⟨⟨quote, content⟩, hquoted⟩ := Option.isSome_iff_exists.1 ht
  obtain ⟨rfl, hq⟩ := Escapes.quoted?_eq_some hquoted
  rw [endsMarked_quoted hq, keyOfLiteral, List.dropLast_concat, if_neg (by simp), List.append_nil,
    endsMarked_quoted (by decide), Escapes.unescape, Escapes.getLast?_replaceQuotes]

theorem quoted?_keyOfLiteral (ht : (Escapes.quoted? t).isSome = true) (optional : Bool) :
    (Escapes.quoted? (keyOfLiteral t optional)).isSome = true := by
  cases t with
  | nil => cases ht
  | cons quote rest => simp [keyOfLiteral, Escapes.quoted?, Escapes.isQuote]

theorem quoted?_of_literal (h : literal? t = some (t, [])) :
    (Escapes.quoted? t).isSome = true := by
  obtain ⟨quote, content, rfl, hquote, -⟩ := Literal.exists_content h
  simp [Escapes.quoted?, hquote]

/-! ### Literals and what is behind them -/

/-- What holds of each literal and the text behind it. -/
def AtLiterals (P : List Char → List Glyph → Prop) (gs : List Glyph) : Prop :=
  ∀ front t back, gs = front ++ literal t :: back → P t back

variable {P Q : List Char → List Glyph → Prop} {gs : List Glyph} {g : Glyph}

theorem atLiterals_nil : AtLiterals P [] := fun front t back h => by simp at h

theorem atLiterals_cons :
    AtLiterals P (g :: gs) ↔ (∀ t, g = literal t → P t gs) ∧ AtLiterals P gs := by
  constructor
  · exact fun h => ⟨fun t ht => h [] t gs (by rw [ht, List.nil_append]),
      fun front t back hgs => h (g :: front) t back (by rw [hgs, List.cons_append])⟩
  · rintro ⟨hg, hgs⟩ front t back h
    cases front with
    | nil =>
      obtain ⟨rfl, rfl⟩ := List.cons.inj h
      exact hg t rfl
    | cons k front => exact hgs front t back (List.cons.inj h).2

@[simp] theorem atLiterals_char (c : Char) : AtLiterals P (char c :: gs) ↔ AtLiterals P gs := by
  simp [atLiterals_cons]

@[simp] theorem atLiterals_literal (t : List Char) :
    AtLiterals P (literal t :: gs) ↔ P t gs ∧ AtLiterals P gs := by
  simp [atLiterals_cons]

theorem atLiterals_append {front : List Glyph} (h : ∀ g ∈ front, g.isLiteral = false) :
    AtLiterals P (front ++ gs) ↔ AtLiterals P gs := by
  induction front with
  | nil => rfl
  | cons g front ih =>
    rw [List.forall_mem_cons] at h
    cases g with
    | char c => rw [List.cons_append, atLiterals_char, ih h.2]
    | literal t => exact absurd h.1 (by simp [isLiteral])

/-! ### Passes -/

theorem AtLiterals.replaceWord {word replacement : List Char} (h : AtLiterals P gs)
    (hnext : ∀ t back, P t back → P t (replaceWord word replacement back)) :
    AtLiterals P (replaceWord word replacement gs) := by
  suffices hskip : ∀ skip, AtLiterals P (replaceFrom word replacement skip gs) from hskip 0
  induction gs with
  | nil => exact fun _ => by rw [replaceFrom]; exact atLiterals_nil
  | cons g rest ih =>
    obtain ⟨hg, hrest⟩ := atLiterals_cons.1 h
    intro skip
    cases skip with
    | succ skip => exact ih hrest skip
    | zero =>
      rw [replaceFrom]
      split
      · exact (atLiterals_append (by simp [isLiteral])).2 (ih hrest _)
      · exact atLiterals_cons.2 ⟨fun t ht => hnext t rest (hg t ht), ih hrest 0⟩

theorem AtLiterals.quoteNameKeys {flag : Bool} (h : AtLiterals P gs)
    (hnext : ∀ t back, P t back → Q t (quoteNameKeys true back)) :
    AtLiterals Q (quoteNameKeys flag gs) := by
  fun_induction MarkerForm.quoteNameKeys flag gs with
  | case1 => exact atLiterals_nil
  | case2 flag g rest hg after ih =>
    have hplain : ∀ {k : Glyph}, isKeyGlyph k = true → k.isLiteral = false := fun {k} hk => by
      cases k with
      | char c => rfl
      | literal t => cases hk
    have hrun : ∀ k ∈ g :: rest.takeWhile isKeyGlyph, k.isLiteral = false :=
      List.forall_mem_cons.2 ⟨hplain hg, fun k hk => hplain (List.mem_takeWhile_imp hk)⟩
    have hsplit : g :: rest = g :: rest.takeWhile isKeyGlyph ++ after := by
      rw [List.cons_append, List.takeWhile_append_dropWhile]
    rw [hsplit, atLiterals_append hrun] at h
    refine (atLiterals_append fun k hk => ?_).2 (ih h)
    rcases mem_quoteRun hk with hm | rfl
    · exact hrun k hm
    · rfl
  | case3 flag g rest hg ih =>
    obtain ⟨hhead, hrest⟩ := atLiterals_cons.1 h
    refine atLiterals_cons.2 ⟨?_, ih hrest⟩
    rintro t rfl
    exact hnext t rest (hhead t rfl)

theorem AtLiterals.unwrapIndexers {inside : Bool} (h : AtLiterals P gs)
    (hnext : ∀ t inside back, P t back → Q t (unwrapIndexers inside back)) :
    AtLiterals Q (unwrapIndexers inside gs) := by
  fun_induction MarkerForm.unwrapIndexers inside gs with
  | case1 => exact atLiterals_nil
  | case2 inside g rest hg ih => exact ih (atLiterals_cons.1 h).2
  | case3 inside g rest hg hg' ih => exact ih (atLiterals_cons.1 h).2
  | case4 inside g rest hg hg' ih =>
    obtain ⟨hhead, hrest⟩ := atLiterals_cons.1 h
    exact atLiterals_cons.2 ⟨fun t ht => hnext t inside rest (hhead t ht), ih hrest⟩

/-- A literal in quotes, which has no mark at its end if the text behind it goes on as given. -/
def MarkedApart (next : List Glyph → Prop) (t : List Char) (back : List Glyph) : Prop :=
  (Escapes.quoted? t).isSome = true ∧ (next back → ¬ EndsMarked t)

theorem MarkedApart.imp {next next' : List Glyph → Prop} {back back' : List Glyph}
    (h : MarkedApart next t back) (hnext : next' back' → next back) :
    MarkedApart next' t back' :=
  ⟨h.1, fun hn => h.2 (hnext hn)⟩

theorem markedApart_quoteLiteralKeys (hmark : char optionalMark ∉ gs)
    (h : AtLiterals (MarkedApart ColonBehind) gs) :
    AtLiterals (MarkedApart ColonBehind) (quoteLiteralKeys gs) := by
  fun_induction quoteLiteralKeys gs with
  | case1 t rest ih =>
    obtain ⟨⟨hquoted, ht⟩, hrest⟩ := (atLiterals_literal t).1 h
    refine (atLiterals_literal _).2 ⟨⟨quoted?_keyOfLiteral hquoted false, fun _ => ?_⟩,
      ih (fun hm => hmark (List.mem_cons_of_mem _ hm)) hrest⟩
    rw [endsMarked_keyOfLiteral hquoted]
    exact ht rfl
  | case2 t g rest hg hm ih => exact absurd (by simp [hm.1]) hmark
  | case3 t g rest hg hm ih =>
    obtain ⟨ht, hrest⟩ := (atLiterals_literal t).1 h
    exact (atLiterals_literal t).2 ⟨ht.imp piecewise_quoteLiteralKeys.colonBehind,
      ih (fun hm => hmark (List.mem_cons_of_mem _ hm)) hrest⟩
  | case4 g rest hne ih =>
    obtain ⟨hhead, hrest⟩ := atLiterals_cons.1 h
    exact atLiterals_cons.2 ⟨fun t ht => (hhead t ht).imp piecewise_quoteLiteralKeys.colonBehind,
      ih (fun hm => hmark (List.mem_cons_of_mem _ hm)) hrest⟩
  | case5 => exact h

/-- A name that is put in quotes behind a literal begins no colon. -/
theorem colonBehind_quoteNameKeys (flag : Bool) (h : ColonBehind (quoteNameKeys flag gs)) :
    ColonBehind gs := by
  cases gs with
  | nil => rwa [quoteNameKeys] at h
  | cons g rest =>
    by_cases hg : isKeyGlyph g = true
    · rw [quoteNameKeys, if_pos hg] at h
      have hrun : ∀ k ∈ g :: rest.takeWhile isKeyGlyph, isKeyGlyph k = true :=
        List.forall_mem_cons.2 ⟨hg, fun k hk => List.mem_takeWhile_imp hk⟩
      obtain ⟨k, more, hmore⟩ := List.exists_cons_of_ne_nil
        (quoteRun_ne_nil flag (List.cons_ne_nil g (rest.takeWhile isKeyGlyph))
          (rest.dropWhile isKeyGlyph))
      have hk := fun {c : Char} hc => @ne_of_mem_quoteRun k c flag _ _ hrun
        (hmore ▸ List.mem_cons_self) hc
      have hstop : ¬ isStop k = true := fun hs => by
        obtain ⟨c, hc, he⟩ := isStop_iff.1 hs
        exact hk (List.mem_cons_of_mem _ hc) he
      dsimp only at h
      rw [hmore, List.cons_append, ColonBehind, List.dropWhile_cons_of_neg hstop] at h
      exact absurd (Option.some.inj h) (hk (by simp))
    · rw [quoteNameKeys_flag (by simpa using hg) flag false] at h
      exact piecewise_quoteNameKeys.colonBehind h

/-- Behind commas a colon is next. -/
def ColonAfterCommas (gs : List Glyph) : Prop :=
  (gs.dropWhile (· == char ',')).head? = some (char ':')

theorem markedApart_markShapes (h : AtLiterals (MarkedApart ColonBehind) gs) :
    AtLiterals (MarkedApart ColonBehind) (markShapes gs) := by
  unfold markShapes
  simp only [replaceChar_eq]
  refine (((h.replaceWord ?_).replaceWord ?_).replaceWord ?_).replaceWord ?_ <;>
    exact fun t back ht => ht.imp (piecewise_replaceWord
      ⟨by decide, by decide, by decide, by decide, by decide⟩).colonBehind

theorem markedApart_markSequences (h : AtLiterals (MarkedApart ColonAfterCommas) gs) :
    AtLiterals (MarkedApart ColonAfterCommas) (markSequences gs) := by
  unfold markSequences
  simp only [replaceChar_eq]
  refine ((((h.replaceWord ?_).replaceWord ?_).replaceWord ?_).replaceWord ?_).replaceWord ?_ <;>
    exact fun t back ht => ht.imp
      (head?_dropWhile_replaceWord (by decide) (by decide) (by decide) (by decide))

/-! ### The form of a text without marks -/

section Form

variable {text : String} {form : List Glyph}

theorem char_not_mem_squeeze {c : Char} (hc : c ∉ danglingOperators.map (·.2))
    (h : char c ∉ visible gs) : char c ∉ squeeze gs := by
  intro hm
  have htrimmed := (mem_dangling hm).resolve_left hc
  rw [trimOperators_eq] at htrimmed
  exact h ((List.dropWhile_suffix _).subset ((List.rdropWhile_prefix _ _).subset htrimmed))

theorem mark_not_mem_form (h : ofText text = .ok form)
    (hquery : char '?' ∉ squeeze (ofChars text.toList))
    (hmark : char optionalMark ∉ squeeze (ofChars text.toList)) : char optionalMark ∉ form := by
  obtain ⟨-, rfl⟩ := ofText_eq_ok h
  intro hm
  have hshaped := ((mem_markSequences hm).resolve_left (by decide)).1
  have hkeys := ((mem_markShapes ((unwrapIndexers_sublist _ _).subset hshaped)).resolve_left
    (by decide)).1
  rw [quoteKeys, replaceWord_eq_self (c := '?') (by decide) hquery] at hkeys
  rcases mem_quoteNameKeys hkeys with hliterals | hquote
  · exact hmark (mem_quoteLiteralKeys hliterals)
  · exact absurd hquote (by decide)

/-- If no literal with a colon behind it ends in a mark, then neither does one in the form. -/
theorem markedApart_form (h : ofText text = .ok form)
    (hquery : char '?' ∉ squeeze (ofChars text.toList))
    (hmark : char optionalMark ∉ squeeze (ofChars text.toList))
    (hsource : AtLiterals (MarkedApart ColonBehind) (squeeze (ofChars text.toList))) :
    AtLiterals (MarkedApart ColonAfterCommas) form := by
  obtain ⟨-, rfl⟩ := ofText_eq_ok h
  have hkeys : AtLiterals (MarkedApart ColonBehind)
      (quoteKeys (squeeze (ofChars text.toList))) := by
    rw [quoteKeys, replaceWord_eq_self (c := '?') (by decide) hquery]
    exact (markedApart_quoteLiteralKeys hmark hsource).quoteNameKeys
      fun t back ht => ht.imp (colonBehind_quoteNameKeys true)
  refine markedApart_markSequences ((markedApart_markShapes hkeys).unwrapIndexers ?_)
  exact fun t inside back ht => ht.imp fun hcolon =>
    (colonBehind_unwrapIndexers inside).1 (colonBehind_of_commas hcolon)

/-- A literal of the source is one by itself. -/
theorem literal?_of_mem_squeeze {s : List Char} (h : literal t ∈ squeeze (ofChars s)) :
    literal? t = some (t, []) :=
  literal?_of_mem_ofChars
    (mem_literals.1 ((literals_squeeze_sublist _).subset (mem_literals.2 h)))

end Form

/-- A text of glyphs that ends in quotes with a mark ends in a literal with one. -/
theorem exists_literal_of_endsMarked (hquoted : ∀ t, literal t ∈ gs →
    (Escapes.quoted? t).isSome = true) (hmark : char optionalMark ∉ gs)
    (h : EndsMarked (textOf gs)) : ∃ front t, gs = front ++ [literal t] ∧ EndsMarked t := by
  obtain rfl | ⟨front, g, rfl⟩ := gs.eq_nil_or_concat'
  · cases h
  rw [textOf_append] at h
  cases g with
  | literal t =>
    have ht : 2 ≤ t.length := by
      obtain ⟨⟨quote, content⟩, hq⟩ := Option.isSome_iff_exists.1 (hquoted t (by simp))
      rw [(Escapes.quoted?_eq_some hq).1]
      simp
    rw [textOf_literal, textOf_nil, List.append_nil, endsMarked_append ht] at h
    exact ⟨front, t, rfl, h⟩
  | char c =>
    rw [textOf_char, textOf_nil, EndsMarked, List.dropLast_concat] at h
    obtain rfl | ⟨front, g, rfl⟩ := front.eq_nil_or_concat'
    · cases h
    rw [textOf_append] at h
    cases g with
    | char c =>
      rw [textOf_char, textOf_nil, List.getLast?_concat] at h
      exact absurd (by simp [Option.some.inj h]) hmark
    | literal t =>
      obtain ⟨⟨quote, content⟩, hq⟩ := Option.isSome_iff_exists.1 (hquoted t (by simp))
      obtain ⟨rfl, hquote⟩ := Escapes.quoted?_eq_some hq
      rw [textOf_literal, textOf_nil, List.append_nil, ← List.cons_append, ← List.append_assoc,
        List.getLast?_concat] at h
      rw [Option.some.inj h] at hquote
      exact absurd hquote (by decide)

end MarkerForm

/-! ### Marks of tokens -/

namespace Token

open Glyph MarkerForm

variable {gs : List Glyph} {name key text : String} {before after tokens : List Token}

/-- A name is the text of some glyphs, and the tokens behind it are those of the glyphs behind. -/
theorem exists_run_of_ofGlyphs (h : ofGlyphs gs = before ++ ⟨.name, name⟩ :: after) :
    ∃ front run back, gs = front ++ (run ++ back) ∧ textOf run = name.toList
      ∧ ofGlyphs back = after ∧ (before = [] → front = []) := by
  induction gs generalizing before name with
  | nil => simp [ofGlyphs] at h
  | cons g rest ih =>
    by_cases hg : ∀ c, g = char c → punctuation? c = none
    · rw [ofGlyphs_cons hg] at h
      obtain ⟨s, tail, hrest, hname⟩ | hname := prependName_cases (ofGlyphs rest)
      · rw [hname] at h
        cases before with
        | nil =>
          -- the glyph is at the front of the name that follows
          obtain ⟨hhead, rfl⟩ := List.cons.inj h
          obtain ⟨front, run, back, rfl, hrun, hback, hfront⟩ := @ih s [] hrest
          obtain rfl := hfront rfl
          refine ⟨[], g :: run, back, rfl, ?_, hback, fun _ => rfl⟩
          rw [textOf, List.flatMap_cons, ← textOf, hrun, ← (Token.mk.inj hhead).2,
            String.toList_ofList]
        | cons b before =>
          obtain ⟨-, htail⟩ := List.cons.inj h
          obtain ⟨front, run, back, rfl, hrun, hback, -⟩ :=
            @ih name (⟨.name, s⟩ :: before) (hrest.trans (congrArg _ htail))
          exact ⟨g :: front, run, back, rfl, hrun, hback, by simp⟩
      · rw [hname] at h
        cases before with
        | nil =>
          obtain ⟨hhead, hrest⟩ := List.cons.inj h
          refine ⟨[], [g], rest, rfl, ?_, hrest, fun _ => rfl⟩
          rw [← (Token.mk.inj hhead).2, String.toList_ofList]
          simp [textOf]
        | cons b before =>
          obtain ⟨-, hrest⟩ := List.cons.inj h
          obtain ⟨front, run, back, rfl, hrun, hback, -⟩ := ih hrest
          exact ⟨g :: front, run, back, rfl, hrun, hback, by simp⟩
    · simp only [not_forall] at hg
      obtain ⟨c, rfl, hc⟩ := hg
      obtain ⟨kind, hkind⟩ := Option.ne_none_iff_exists'.1 hc
      rw [ofGlyphs, hkind] at h
      cases before with
      | nil =>
        obtain ⟨hhead, -⟩ := List.cons.inj h
        rw [(Token.mk.inj hhead).1] at hkind
        exact absurd hkind (punctuation?_ne_name c)
      | cons b before =>
        obtain ⟨-, hrest⟩ := List.cons.inj h
        obtain ⟨front, run, back, rfl, hrun, hback, -⟩ := ih hrest
        exact ⟨char c :: front, run, back, rfl, hrun, hback, by simp⟩

theorem endsMarked_of_hasOptionalMark (h : Item.hasOptionalMark name = true) :
    EndsMarked name.toList := by
  obtain ⟨front, hname⟩ := List.isSuffixOf_iff_suffix.1 h
  rw [← hname, endsMarked_append (by simp)]
  rfl

/-- Without question marks and marks, no key has a mark but from a literal that ends in one. -/
theorem not_hasKey_optional (hscan : scan text = .ok tokens)
    (hquery : char '?' ∉ squeeze (ofChars text.toList))
    (hmark : char optionalMark ∉ squeeze (ofChars text.toList))
    (hsource : AtLiterals (fun t back => ColonBehind back → ¬ EndsMarked t)
      (squeeze (ofChars text.toList))) : ¬ Node.HasKey tokens key true := by
  rintro ⟨before, name, after, htokens, hnext, -, -, hoptional⟩
  obtain ⟨form, hform, hok⟩ := Outcome.ok_of_bind hscan
  cases hok
  have happart := markedApart_form hform hquery hmark fun front t back hsplit =>
    ⟨quoted?_of_literal (@literal?_of_mem_squeeze t text.toList (by simp [hsplit])),
      hsource front t back hsplit⟩
  have hgone := mark_not_mem_form hform hquery hmark
  obtain ⟨front, run, back, rfl, hrun, rfl, -⟩ := exists_run_of_ofGlyphs htokens
  have hends := endsMarked_of_hasOptionalMark hoptional.symm
  rw [← hrun] at hends
  have hquoted : ∀ t, literal t ∈ run → (Escapes.quoted? t).isSome = true := fun t ht => by
    obtain ⟨xs, ys, rfl⟩ := List.append_of_mem ht
    exact (happart (front ++ xs) t (ys ++ back) (by simp)).1
  obtain ⟨inner, t, rfl, ht⟩ := exists_literal_of_endsMarked hquoted
    (fun hm => hgone (by simp [hm])) hends
  exact (happart (front ++ inner) t back (by simp)).2 ((colonNext_ofGlyphs back).1 hnext) ht

end Token

namespace Node

open Glyph MarkerForm

variable {text : String} {n : Node}

/-- A literal that is a key declares its decoded text as a required property, or if that ends in
the mark, the text before it as an optional one. -/
theorem declares_of_keyPlace (hn : parse? text = .ok n) {q : String} {front back : List Glyph}
    (hsource : squeeze (ofChars text.toList) = front ++ literal q.toList :: back)
    (hplace : IsKeyPlace false front back) :
    ∃ d : String, Literal.ofName q = .ok (some (.text d))
      ∧ (¬ EndsMarked q.toList → ∃ k ∈ n.walk, k.declares d false = true)
      ∧ (EndsMarked q.toList →
        ∃ k ∈ n.walk, k.declares (String.ofList d.toList.dropLast) true = true) := by
  obtain ⟨tokens, hscan⟩ := exists_scan hn
  obtain ⟨quote, content, htext, hquote, hbare⟩ := Literal.exists_content
    (@literal?_of_mem_squeeze q.toList text.toList (by simp [hsource]))
  obtain ⟨d, hd⟩ : ∃ d, d = String.ofList (Escapes.unescape quote content) := ⟨_, rfl⟩
  have hname : Literal.ofName q = .ok (some (.text d)) := by
    simp [Literal.ofName, htext, Escapes.quoted?, hquote, hbare, hd]
    rfl
  have hends : EndsMarked q.toList ↔ d.toList.getLast? = some optionalMark := by
    rw [htext, endsMarked_quoted hquote, hd, String.toList_ofList, Escapes.unescape,
      Escapes.getLast?_replaceQuotes]
  -- the lexer respells the literal as keys are printed
  have hword : String.ofList (keyOfLiteral q.toList false) = (Grammar.keyWord d false).text := by
    simp [htext, hd, keyOfLiteral, Grammar.keyWord, Grammar.word]
  obtain ⟨before, after, rfl, hnext⟩ := scan_keyPlace hscan hsource hplace
  rw [hword] at hscan
  have hdeclares := declares_of_scan hscan hn (by rw [Grammar.quoted?_keyWord]; rfl) hnext
  refine ⟨d, hname, fun hm => ?_, fun hm => ?_⟩ <;> rw [hends] at hm
  · obtain ⟨hkey, hoptional⟩ := @Grammar.keyText_keyWord d false (.inr hm)
    rwa [hkey, hoptional] at hdeclares
  · rw [Grammar.hasOptionalMark_keyWord, Item.keyText, Grammar.quoted?_keyWord] at hdeclares
    simpa [hm] using hdeclares

/-- In an annotation without question marks no property is optional, as long as there is no mark
outside of literals and no literal with a colon behind it ends in one. A literal that stands as a
key by itself declares its decoded text as a required property, unless it ends in the mark. -/
theorem keys_without_question_mark (hn : parse? text = .ok n) :
    (char '?' ∉ visible (ofChars text.toList) → char optionalMark ∉ visible (ofChars text.toList) →
      AtLiterals (fun t back => ColonBehind back → ¬ EndsMarked t)
        (squeeze (ofChars text.toList)) →
      ∀ k ∈ n.walk, ∀ key, k.declares key true = false)
    ∧ ∀ {q : String} {front back : List Glyph},
      squeeze (ofChars text.toList) = front ++ literal q.toList :: back →
      IsKeyPlace false front back →
        ∃ d : String, Literal.ofName q = .ok (some (.text d))
          ∧ (¬ EndsMarked q.toList → ∃ k ∈ n.walk, k.declares d false = true)
          ∧ (EndsMarked q.toList →
            ∃ k ∈ n.walk, k.declares (String.ofList d.toList.dropLast) true = true) := by
  refine ⟨fun hquery hmark hsource k hk key => ?_, declares_of_keyPlace hn⟩
  obtain ⟨tokens, hscan⟩ := exists_scan hn
  by_contra hdeclares
  exact Token.not_hasKey_optional hscan (char_not_mem_squeeze (by decide) hquery)
    (char_not_mem_squeeze (by decide) hmark) hsource
    ((declares_iff_hasKey hscan hn).1 ⟨k, hk, by simpa using hdeclares⟩)

/-- A key that begins with the mark, and a type that ends in it. -/
theorem keys_without_question_mark_inside :
    let q := "'¿a'"
    let text := "\x7b'¿a': [\"b¿\"]\x7d"
    let n := shape false [.mk "¿a" (.tuple [.leaf "\"b¿\""]) false] none
    let key := (['\x7b'].map Glyph.char, ofChars ":[\"b¿\"]\x7d".toList)
    parse? text = .ok n ∧ char '?' ∉ visible (ofChars text.toList)
      ∧ char optionalMark ∉ visible (ofChars text.toList)
      ∧ AtLiterals (fun t back => ColonBehind back → ¬ EndsMarked t)
        (squeeze (ofChars text.toList))
      ∧ squeeze (ofChars text.toList) = key.1 ++ literal q.toList :: key.2
      ∧ IsKeyPlace false key.1 key.2 ∧ ¬ EndsMarked q.toList
      ∧ (∀ k ∈ n.walk, ∀ key, k.declares key true = false)
      ∧ ∃ d : String, Literal.ofName q = .ok (some (.text d))
        ∧ ∃ k ∈ n.walk, k.declares d false = true := by
  intro q text n key
  have hscan : (Token.scan text).toOption = some [⟨.shape, "@"⟩, Grammar.openGroup,
      Grammar.keyWord "¿a" false, ⟨.colon, ":"⟩, ⟨.tuple, "^"⟩, Grammar.openGroup,
      Grammar.word "\"b¿\"", Grammar.closeGroup, Grammar.closeGroup] := by decide +kernel
  have hn : parse? text = .ok n := parse?_of_scan (Outcome.ok_of_toOption hscan) rfl rfl
  have hquery : char '?' ∉ visible (ofChars text.toList) := by decide +kernel
  have hmark : char optionalMark ∉ visible (ofChars text.toList) := by decide +kernel
  have hsplit : squeeze (ofChars text.toList) = key.1 ++ literal q.toList :: key.2 := by
    decide +kernel
  have hback : key.2 = [char ':', char '[', literal "\"b¿\"".toList, char ']', char '\x7d'] := by
    decide +kernel
  have hsource : AtLiterals (fun t back => ColonBehind back → ¬ EndsMarked t)
      (squeeze (ofChars text.toList)) := by
    rw [hsplit, hback]
    simp only [key, q, List.map_cons, List.map_nil, List.cons_append, List.nil_append,
      atLiterals_char, atLiterals_literal, atLiterals_nil, and_true]
    decide
  have hplace : IsKeyPlace false key.1 key.2 := by decide +kernel
  have hends : ¬ EndsMarked q.toList := by decide
  obtain ⟨hoptional, hkeys⟩ := keys_without_question_mark hn
  obtain ⟨d, hname, hkept, -⟩ := hkeys hsplit hplace
  exact ⟨hn, hquery, hmark, hsource, hsplit, hplace, hends, hoptional hquery hmark hsource, d,
    hname, hkept hends⟩

/-- A key that ends in the mark is lost for an optional one, without any question mark. -/
theorem optional_without_question_mark :
    let q := "\"a¿\""
    let text := "\x7b\"a¿\": int\x7d"
    let n := shape false [.mk "a" (.leaf "int") true] none
    let key := (['\x7b'].map Glyph.char, ofChars ":int\x7d".toList)
    char '?' ∉ visible (ofChars text.toList) ∧ parse? text = .ok n
      ∧ squeeze (ofChars text.toList) = key.1 ++ literal q.toList :: key.2
      ∧ IsKeyPlace false key.1 key.2 ∧ Literal.ofName q = .ok (some (.text "a¿"))
      ∧ (∃ k ∈ n.walk, k.declares "a" true = true)
      ∧ ∀ k ∈ n.walk, k.declares "a¿" false = false := by
  intro q text n key
  have hscan : (Token.scan text).toOption = some [⟨.shape, "@"⟩, Grammar.openGroup,
      Grammar.keyWord "a" true, ⟨.colon, ":"⟩, Grammar.word "int", Grammar.closeGroup] := by
    decide +kernel
  refine ⟨by decide +kernel, parse?_of_scan (Outcome.ok_of_toOption hscan) rfl rfl,
    by decide +kernel, by decide +kernel, Outcome.ok_of_toOption (by decide +kernel),
    by decide +kernel, by decide +kernel⟩

end Node

end StructuralTypes

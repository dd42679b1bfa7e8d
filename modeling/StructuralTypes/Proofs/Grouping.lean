import Mathlib.Data.List.Basic
import StructuralTypes.Token.Balance
import StructuralTypes.Token.Cursor

/-! Nesting tokens loses nothing. A tree is built just when the brackets among the tokens are
balanced, and then it is the one tree of groups and other tokens that is written as those
tokens. Building it in place comes to the same: the cursor always stands behind the last item
of its list, so that nothing is overwritten. -/

namespace StructuralTypes

namespace Token

/-- A token opens a group, closes one, or stands for itself. -/
theorem step_cases (t : Token) : (t.kind = .groupOpen ∧ t.step = 1 ∧ t.uniform = opening)
    ∨ (t.kind = .groupClose ∧ t.step = -1 ∧ t.uniform = closing)
    ∨ (t.step = 0 ∧ t.uniform = t) := by
  cases hk : t.kind <;> simp [step, uniform, hk]

/-! ### Brackets that close what is open -/

/-- With so many groups open, no token closes a group that is not. -/
def Covers (opened : Nat) (tokens : List Token) : Prop :=
  ∀ front back, tokens = front ++ back → 0 ≤ opened + depth front

/-- Somewhere more groups are closed than opened. -/
def Overcloses (tokens : List Token) : Prop :=
  ∃ front back, tokens = front ++ back ∧ depth front < 0

variable {t : Token} {rest : List Token} {opened next : Nat}

theorem covers_nil : Covers opened [] := by
  intro front back h
  obtain ⟨rfl, rfl⟩ := List.append_eq_nil_iff.1 h.symm
  simp

/-- After a token as many groups are open as it leaves open. -/
theorem covers_cons (h : opened + t.step = next) :
    Covers opened (t :: rest) ↔ Covers next rest := by
  constructor
  · intro hc front back hrest
    have hfront := hc (t :: front) back (by simp [hrest])
    rw [depth_cons] at hfront
    omega
  · intro hc front back hrest
    cases front with
    | nil => simp
    | cons s front =>
      obtain ⟨rfl, hback⟩ := List.cons.inj hrest
      have hfront := hc front back hback
      rw [depth_cons]
      omega

theorem not_covers_cons (h : opened + t.step < 0) : ¬ Covers opened (t :: rest) := by
  intro hc
  have hfront := hc [t] rest rfl
  simp at hfront
  omega

theorem balanced_iff {tokens : List Token} :
    Balanced tokens ↔ Covers 0 tokens ∧ depth tokens = 0 := by
  simp [Balanced, Covers]

theorem overcloses_iff {tokens : List Token} : Overcloses tokens ↔ ¬ Covers 0 tokens := by
  simp [Overcloses, Covers]

end Token

namespace TokenTree

open Token

/-! ### Trees of groups and other tokens -/

mutual

/-- A tree without brackets among its tokens and without foreign items. -/
def IsNested : TokenTree → Prop
  | token t => t.step = 0
  | group items => AllNested items
  | stray _ => False

def AllNested : List TokenTree → Prop
  | [] => True
  | tree :: rest => IsNested tree ∧ AllNested rest

end

theorem allNested_append {xs ys : List TokenTree} :
    AllNested (xs ++ ys) ↔ AllNested xs ∧ AllNested ys := by
  induction xs with
  | nil => simp [AllNested]
  | cons tree rest ih => simp [AllNested, ih, and_assoc]

variable {t : Token} {level items : List TokenTree} {outer : List (List TokenTree)}

/-! ### One token -/

theorem build_open (h : t.kind = .groupOpen) (rest : List Token) :
    build level outer (t :: rest) = build [] (level :: outer) rest := by
  rw [build.eq_def]
  simp [h]

theorem build_close (h : t.kind = .groupClose) (rest : List Token) :
    build level (items :: outer) (t :: rest) = build (items ++ [group level]) outer rest := by
  rw [build.eq_def]
  simp [h]

theorem build_close_nil (h : t.kind = .groupClose) (rest : List Token) :
    build level [] (t :: rest) = .error ⟨.unexpectedClose, none⟩ := by
  rw [build.eq_def]
  simp [h]
  rfl

theorem build_other (h : t.step = 0) (rest : List Token) :
    build level outer (t :: rest) = build (level ++ [token t]) outer rest := by
  rw [build.eq_def]
  cases hk : t.kind <;> simp_all [step]

/-! ### Trees written out -/

/-- The tokens of an unfinished tree: of each list around the innermost one, then the bracket
that opens the next. -/
def written (level : List TokenTree) (outer : List (List TokenTree)) : List Token :=
  outer.reverse.flatMap (fun items => tokensAll items ++ [opening]) ++ tokensAll level

theorem written_open (level : List TokenTree) (outer : List (List TokenTree)) :
    written [] (level :: outer) = written level outer ++ [opening] := by
  simp [written, tokensAll]

theorem written_close (level items : List TokenTree) (outer : List (List TokenTree)) :
    written (items ++ [group level]) outer = written level (items :: outer) ++ [closing] := by
  simp [written, tokensAll_append, tokensAll, tokens]

theorem written_other (t : Token) (level : List TokenTree) (outer : List (List TokenTree)) :
    written (level ++ [token t]) outer = written level outer ++ [t] := by
  simp [written, tokensAll_append, tokensAll, tokens]

/-- How building ends with so many groups open, once these tokens are written and those are
left. -/
inductive Ending (opened : Nat) (before tokens : List Token) :
    Except TypeFault (List TokenTree) → Prop
  | built {items : List TokenTree} (hcovers : Covers opened tokens)
      (hdepth : opened + depth tokens = 0)
      (htokens : tokensAll items = before ++ tokens.map uniform) :
      Ending opened before tokens (.ok items)
  | unexpected (hcovers : ¬ Covers opened tokens) :
      Ending opened before tokens (.error ⟨.unexpectedClose, none⟩)
  | unclosed {count : Nat} (hcovers : Covers opened tokens)
      (hdepth : opened + depth tokens = count) (hpos : 0 < count) :
      Ending opened before tokens (.error ⟨.unclosedGroups count, none⟩)

theorem Ending.cons {opened next : Nat} {before rest : List Token}
    {r : Except TypeFault (List TokenTree)} (hstep : opened + t.step = next)
    (h : Ending next (before ++ [t.uniform]) rest r) : Ending opened before (t :: rest) r := by
  cases h with
  | built hcovers hdepth htokens =>
    refine .built ((covers_cons hstep).2 hcovers) ?_ (by simpa using htokens)
    rw [depth_cons]
    omega
  | unexpected hcovers => exact .unexpected fun hc => hcovers ((covers_cons hstep).1 hc)
  | unclosed hcovers hdepth hpos =>
    refine .unclosed ((covers_cons hstep).2 hcovers) ?_ hpos
    rw [depth_cons]
    omega

/-- Building ends as the brackets that are left tell. -/
theorem ending_build (rest : List Token) (level : List TokenTree)
    (outer : List (List TokenTree)) :
    Ending outer.length (written level outer) rest (build level outer rest) := by
  induction rest generalizing level outer with
  | nil =>
    cases outer with
    | nil => exact .built covers_nil rfl (by simp [written])
    | cons items outer => exact .unclosed covers_nil (by simp) (by simp)
  | cons t rest ih =>
    obtain ⟨hk, hstep, hu⟩ | ⟨hk, hstep, hu⟩ | ⟨hstep, hu⟩ := t.step_cases
    · rw [build_open hk]
      apply Ending.cons (show _ = ((level :: outer).length : Int) by simp [hstep])
      rw [hu, ← written_open]
      exact ih [] (level :: outer)
    · cases outer with
      | nil =>
        rw [build_close_nil hk]
        exact .unexpected (not_covers_cons (by simp [hstep]))
      | cons items outer =>
        rw [build_close hk]
        have hnext : ((items :: outer).length : Int) + t.step = outer.length := by
          rw [hstep, List.length_cons]
          omega
        apply Ending.cons hnext
        rw [hu, ← written_close]
        exact ih (items ++ [group level]) outer
    · rw [build_other hstep]
      apply Ending.cons (show _ = (outer.length : Int) by simp [hstep])
      rw [hu, ← written_other]
      exact ih (level ++ [token t]) outer

theorem ending_ofTokens (all : List Token) : Ending 0 [] all (ofTokens all) :=
  ending_build all [] []

theorem allNested_of_build {rest : List Token} (h : build level outer rest = .ok items)
    (hl : AllNested level) (ho : ∀ items ∈ outer, AllNested items) : AllNested items := by
  induction rest generalizing level outer with
  | nil =>
    cases outer with
    | nil =>
      cases h
      exact hl
    | cons parent outer => cases h
  | cons t rest ih =>
    obtain ⟨hk, -, -⟩ | ⟨hk, -, -⟩ | ⟨hstep, -⟩ := t.step_cases
    · rw [build_open hk] at h
      exact ih h trivial (List.forall_mem_cons.2 ⟨hl, ho⟩)
    · cases outer with
      | nil =>
        rw [build_close_nil hk] at h
        cases h
      | cons parent outer =>
        rw [build_close hk] at h
        rw [List.forall_mem_cons] at ho
        exact ih h (allNested_append.2 ⟨ho.1, hl, trivial⟩) ho.2
    · rw [build_other hstep] at h
      exact ih h (allNested_append.2 ⟨hl, hstep, trivial⟩) ho

/-! ### Trees read back -/

/-- The texts of brackets do not matter. -/
theorem build_uniform (rest : List Token) (level : List TokenTree)
    (outer : List (List TokenTree)) :
    build level outer (rest.map uniform) = build level outer rest := by
  induction rest generalizing level outer with
  | nil => rfl
  | cons t rest ih =>
    rw [List.map_cons]
    obtain ⟨hk, -, hu⟩ | ⟨hk, -, hu⟩ | ⟨hstep, hu⟩ := t.step_cases
    · rw [hu, build_open rfl, build_open hk, ih]
    · cases outer with
      | nil => rw [hu, build_close_nil rfl, build_close_nil hk]
      | cons items outer => rw [hu, build_close rfl, build_close hk, ih]
    · rw [hu, build_other hstep, build_other hstep, ih]

mutual

/-- The tokens of a tree are built into that tree. -/
theorem build_tokens : ∀ (tree : TokenTree), tree.IsNested →
    ∀ (level : List TokenTree) (outer : List (List TokenTree)) (rest : List Token),
      build level outer (tokens tree ++ rest) = build (level ++ [tree]) outer rest
  | token t, h, level, outer, rest => by
    rw [tokens, List.singleton_append]
    exact build_other h rest
  | group items, h, level, outer, rest => by
    rw [tokens, List.cons_append, build_open rfl, List.append_assoc, build_tokensAll items h,
      List.singleton_append, build_close rfl, List.nil_append]
  | stray _, h, _, _, _ => h.elim
termination_by structural tree => tree

theorem build_tokensAll : ∀ (trees : List TokenTree), AllNested trees →
    ∀ (level : List TokenTree) (outer : List (List TokenTree)) (rest : List Token),
      build level outer (tokensAll trees ++ rest) = build (level ++ trees) outer rest
  | [], _, level, outer, rest => by rw [tokensAll, List.nil_append, List.append_nil]
  | tree :: trees, h, level, outer, rest => by
    rw [tokensAll, List.append_assoc, build_tokens tree h.1, build_tokensAll trees h.2,
      List.append_assoc, List.singleton_append]
termination_by structural trees => trees

end

/-- A tree is built from tokens just when it is written as they are, apart from the texts of
brackets. -/
theorem ofTokens_eq_ok_iff {all : List Token} :
    ofTokens all = .ok items ↔ AllNested items ∧ tokensAll items = all.map uniform := by
  constructor
  · intro h
    have hending := ending_ofTokens all
    rw [h] at hending
    cases hending with
    | built _ _ htokens => exact ⟨allNested_of_build h trivial (by simp), htokens⟩
  · rintro ⟨hnested, htokens⟩
    have hback := build_tokensAll items hnested [] [] []
    rw [List.append_nil, List.nil_append, htokens, build_uniform] at hback
    exact hback

/-! ### Building in place -/

theorem place?_length (items : List TokenTree) (item : TokenTree) :
    place? items items.length item = some (items ++ [item]) :=
  if_pos rfl

/-- The lists around the innermost one as they wait on the stack, each with its open group at
the end. -/
def waiting (outer : List (List TokenTree)) : List (Nat × List TokenTree) :=
  outer.map fun items => (items.length, items ++ [group []])

/-- The cursor stands behind the last item, so every token is added at the end. -/
theorem run?_eq (rest : List Token) (level : List TokenTree) (outer : List (List TokenTree)) :
    Cursor.run? ⟨level, level.length, waiting outer⟩ rest = some (build level outer rest) := by
  induction rest generalizing level outer with
  | nil => cases outer <;> simp [Cursor.run?, build, waiting] <;> rfl
  | cons t rest ih =>
    obtain ⟨hk, -, -⟩ | ⟨hk, -, -⟩ | ⟨hstep, -⟩ := t.step_cases
    · rw [build_open hk, ← ih, Cursor.run?.eq_def]
      simp [hk, Cursor.openGroup?, place?_length, waiting]
    · cases outer with
      | nil =>
        rw [build_close_nil hk, Cursor.run?.eq_def]
        simp [hk, waiting]
      | cons items outer =>
        rw [build_close hk, ← ih, Cursor.run?.eq_def]
        simp [hk, waiting]
    · rw [build_other hstep, ← ih, Cursor.run?.eq_def]
      cases hk : t.kind <;> simp_all [step, Cursor.put?, place?_length]

theorem inPlace?_eq (all : List Token) : inPlace? all = some (ofTokens all) :=
  run?_eq all [] []

/-! ### Grouping is lossless -/

/-- The outcome of building, and what it tells about the brackets. -/
theorem ofTokens_cases (all : List Token) :
    (∃ items, ofTokens all = .ok items ∧ Covers 0 all ∧ depth all = 0)
      ∨ (ofTokens all = .error ⟨.unexpectedClose, none⟩ ∧ ¬ Covers 0 all)
      ∨ ∃ count : Nat, ofTokens all = .error ⟨.unclosedGroups count, none⟩ ∧ Covers 0 all
          ∧ 0 < count ∧ depth all = count := by
  have h := ending_ofTokens all
  generalize ofTokens all = r at h
  cases h with
  | built hcovers hdepth _ => exact .inl ⟨_, rfl, hcovers, by simpa using hdepth⟩
  | unexpected hcovers => exact .inr (.inl ⟨rfl, hcovers⟩)
  | unclosed hcovers hdepth hpos => exact .inr (.inr ⟨_, rfl, hcovers, hpos, by simpa using hdepth⟩)

theorem exists_ofTokens_iff_balanced {all : List Token} :
    (∃ items, ofTokens all = .ok items) ↔ Balanced all := by
  rw [balanced_iff]
  obtain ⟨items, h, hc, hd⟩ | ⟨h, hc⟩ | ⟨count, h, hc, hpos, hd⟩ := ofTokens_cases all
  · exact ⟨fun _ => ⟨hc, hd⟩, fun _ => ⟨items, h⟩⟩
  · simp [h, hc]
  · have hd0 : depth all ≠ 0 := by omega
    simp [h, hd0]

theorem ofTokens_eq_error_iff {all : List Token} {f : TypeFault} :
    ofTokens all = .error f ↔ (Overcloses all ∧ f = ⟨.unexpectedClose, none⟩)
      ∨ (¬ Overcloses all ∧ ∃ count : Nat, 0 < count ∧ depth all = count
          ∧ f = ⟨.unclosedGroups count, none⟩) := by
  rw [overcloses_iff, not_not]
  obtain ⟨items, h, hc, hd⟩ | ⟨h, hc⟩ | ⟨count, h, hc, hpos, hd⟩ := ofTokens_cases all
  · rw [h]
    constructor
    · exact fun hf => by cases hf
    · rintro (⟨hn, -⟩ | ⟨-, count, hpos, hcount, -⟩)
      · exact absurd hc hn
      · omega
  · simp [h, hc, eq_comm]
  · rw [h]
    constructor
    · exact fun hf => .inr ⟨hc, count, hpos, hd, (Except.error.inj hf).symm⟩
    · rintro (⟨hn, -⟩ | ⟨-, other, -, hother, rfl⟩)
      · exact absurd hc hn
      · obtain rfl : count = other := by omega
        rfl

/-- A tree is built just when the brackets are balanced, and it is the one that is written as
the tokens are; in place it comes out the same. Otherwise the fault tells whether some bracket
closes a group that is not open, or how many groups stay open. -/
theorem ofTokens_lossless (all : List Token) :
    inPlace? all = some (ofTokens all)
      ∧ ((∃ items, ofTokens all = .ok items) ↔ Balanced all)
      ∧ (∀ items, ofTokens all = .ok items
          ↔ AllNested items ∧ tokensAll items = all.map uniform)
      ∧ ∀ f, ofTokens all = .error f ↔
          (Overcloses all ∧ f = ⟨.unexpectedClose, none⟩)
            ∨ (¬ Overcloses all ∧ ∃ count : Nat, 0 < count ∧ depth all = count
                ∧ f = ⟨.unclosedGroups count, none⟩) :=
  ⟨inPlace?_eq all, exists_ofTokens_iff_balanced, fun _ => ofTokens_eq_ok_iff,
    fun _ => ofTokens_eq_error_iff⟩

end TokenTree

end StructuralTypes

import Mathlib
import StructuralTypes.Proofs.Ledger
import StructuralTypes.Proofs.TermTokens

/-! The exact reach of the surface grammar: a legal term is read as the type that it stands
for just when no required key of it ends like the key of an optional property. Where one
does, the marks in the tokens of the term outnumber those that its type can show. -/

namespace StructuralTypes

namespace Node

/-- The sum of a count over the nodes of a tree. -/
def total (f : Node → Nat) (n : Node) : Nat :=
  (n.walk.map f).sum

theorem total_eq {f : Node → Nat} {n : Node} (h : n.isStray = false) :
    n.total f = f n + (n.parts.map (total f)).sum := by
  have hparts : ∀ ns : List Node, ((ns.flatMap walk).map f).sum = (ns.map (total f)).sum := by
    intro ns
    induction ns with
    | nil => rfl
    | cons n rest ih => simp [total, ih]
  rw [total, walk_eq_cons h, List.map_cons, List.sum_cons, hparts]

/-- The marks that a name carries. -/
def nameMarks (text : String) : Nat :=
  if Item.hasOptionalMark text then 1 else 0

/-- The optional marks in the name of a leaf, and the properties that are optional. -/
def marks : Node → Nat
  | leaf name => nameMarks name
  | shape _ properties _ => properties.countP Property.optional
  | _ => 0

/-- A property whose name is written with an optional mark at its end. -/
def isWrittenMarked (p : Property) : Bool :=
  p.optional || p.key.toList.getLast? == some MarkerForm.optionalMark

/-- The optional marks in the names that a node is written with. -/
def writtenMarks : Node → Nat
  | leaf name => nameMarks name
  | shape _ properties _ => properties.countP isWrittenMarked
  | _ => 0

theorem marks_le_writtenMarks (n : Node) : n.marks ≤ n.writtenMarks := by
  cases n with
  | shape exact properties indexer =>
    exact List.countP_mono_left fun p _ hp => by simp [isWrittenMarked, hp]
  | _ => exact Nat.le_refl _

theorem hasUnmarkedKeys_of_marks_eq {n : Node} (h : n.marks = n.writtenMarks) :
    n.hasUnmarkedKeys = true := by
  cases n with
  | shape exact properties indexer =>
    simp only [hasUnmarkedKeys, List.all_eq_true]
    simp only [marks, writtenMarks] at h
    induction properties with
    | nil => simp
    | cons p rest ih =>
      have hle : rest.countP Property.optional ≤ rest.countP isWrittenMarked :=
        List.countP_mono_left fun p _ hp => by simp [isWrittenMarked, hp]
      rw [List.countP_cons, List.countP_cons] at h
      rw [List.forall_mem_cons]
      by_cases ho : p.optional = true
      · have hw : isWrittenMarked p = true := by simp [isWrittenMarked, ho]
        rw [if_pos ho, if_pos hw] at h
        exact ⟨by simp [ho], ih (by omega)⟩
      · by_cases hw : isWrittenMarked p = true
        · rw [if_neg ho, if_pos hw] at h
          omega
        · rw [if_neg ho, if_neg hw] at h
          refine ⟨?_, ih (by omega)⟩
          have hn : p.key.toList.getLast? ≠ some MarkerForm.optionalMark := by
            simp only [isWrittenMarked, Bool.or_eq_true, beq_iff_eq, not_or] at hw
            exact hw.2
          simp [hn]
  | _ => rfl

/-- A tree that shows all marks that it is written with has no marked keys. -/
theorem unmarked_of_total_eq {n : Node} (h : n.total marks = n.total writtenMarks) :
    n.Unmarked := by
  have hle : ∀ ns : List Node, (ns.map marks).sum ≤ (ns.map writtenMarks).sum := by
    intro ns
    induction ns with
    | nil => exact Nat.le_refl _
    | cons n rest ih =>
      have hn := n.marks_le_writtenMarks
      simp only [List.map_cons, List.sum_cons]
      omega
  have hall : ∀ ns : List Node, (ns.map marks).sum = (ns.map writtenMarks).sum →
      ∀ n ∈ ns, n.hasUnmarkedKeys = true := by
    intro ns hns
    induction ns with
    | nil => simp
    | cons n rest ih =>
      simp only [List.map_cons, List.sum_cons] at hns
      have hn := n.marks_le_writtenMarks
      have hr := hle rest
      exact List.forall_mem_cons.2 ⟨hasUnmarkedKeys_of_marks_eq (by omega), ih (by omega)⟩
  exact hall n.walk h

/-! ### Marks that are read -/

theorem sums_total_iff {f : Node → Nat} {ns : List Node} {m : Nat} :
    Sums (fun n m => n.total f = m) ns m ↔ (ns.map (total f)).sum = m := by
  induction ns generalizing m with
  | nil => rw [sums_nil_iff]; exact eq_comm
  | cons n rest ih =>
    rw [sums_cons_iff, List.map_cons, List.sum_cons]
    constructor
    · rintro ⟨x, y, rfl, hy, rfl⟩
      rw [ih.1 hy]
    · rintro rfl
      exact ⟨_, _, rfl, ih.2 rfl, rfl⟩

theorem total_marks_shape (exact : Bool) (ps : List Property) (ix : Option Indexer) :
    (shape exact ps ix).total marks = ps.countP Property.optional
      + ((ps.map fun p => p.value.total marks).sum
        + ((ix.map fun i => [i.key, i.value]).getD [] |>.map (total marks)).sum) := by
  rw [total_eq rfl, parts, List.map_append, List.sum_append, List.map_map]
  rfl

theorem total_marks_members {n : Node} {m : Nat} (hs : n.isStray = false) (hm : n.marks = 0)
    (h : Sums (fun n m => n.total marks = m) n.parts m) : n.total marks = m := by
  rw [total_eq hs, hm, zero_add]
  exact sums_total_iff.1 h

theorem markLaws : Ledger.Laws (fun n m => n.total marks = m) nameMarks 0 0 where
  name text := by simp [total, walk, marks]
  null := by decide
  array := by decide
  suffix h := total_marks_members rfl rfl (sums_singleton_iff.2 h)
  union h _ := total_marks_members rfl rfl h
  intersection h _ := total_marks_members rfl rfl h
  tuple h _ := total_marks_members rfl rfl h
  empty exact := rfl
  exactness h := h
  property {ps ix m text x value y} h hx hy _ _ := by
    have hname : nameMarks text = x := by simpa [total, walk, marks] using hx
    let added := Property.mk (Item.keyText text) value (Item.hasOptionalMark text)
    have hcount : [added].countP Property.optional = x := by
      rw [List.countP_singleton, ← hname]
      rfl
    have hvalue : ([added].map fun p => p.value.total marks).sum = y := by
      simpa [added, Property.value] using hy
    simp only [total_marks_shape] at h ⊢
    rw [List.countP_append, List.map_append, List.sum_append, hcount, hvalue]
    omega
  indexer {ps m text x value y} h hx hy _ := by
    have hparts : (([leaf text, value]).map (total marks)).sum = x + y := by
      simpa using congrArg₂ (· + ·) hx hy
    simp only [total_marks_shape] at h ⊢
    change _ + (_ + (([leaf text, value]).map (total marks)).sum) = _
    rw [hparts]
    simp only [Option.map_none, Option.getD_none, List.map_nil, List.sum_nil] at h
    omega

/-- Each mark in a name is shown by the type that is made of the name. -/
def markLedger : Ledger Nat := ⟨fun n m => n.total marks = m, nameMarks, 0, 0, markLaws⟩

end Node

/-! ### Marks that are written -/

/-- The texts of the names among tokens. -/
def Token.names (tokens : List Token) : List String :=
  tokens.filterMap fun t => if t.kind = .name then some t.text else none

namespace TokenTree

theorem namesAll_append (xs ys : List TokenTree) :
    namesAll (xs ++ ys) = namesAll xs ++ namesAll ys := by
  induction xs with
  | nil => rfl
  | cons tree rest ih => simp [namesAll, ih]

/-- Nesting tokens keeps their names, in order. -/
theorem namesAll_of_build {tokens : List Token} {level trees : List TokenTree}
    {outer : List (List TokenTree)} (h : build level outer tokens = .ok trees) :
    namesAll trees = outer.reverse.flatMap namesAll ++ namesAll level ++ Token.names tokens := by
  induction tokens generalizing level outer with
  | nil =>
    rw [build.eq_def] at h
    cases outer with
    | nil =>
      cases h
      simp [Token.names]
    | cons parent outer => cases h
  | cons t rest ih =>
    rw [build.eq_def] at h
    dsimp only at h
    split at h
    next hk =>
      have hn : Token.names (t :: rest) = Token.names rest := by simp [Token.names, hk]
      rw [ih h, hn]
      simp [namesAll]
    next hk => cases h
    next hk =>
      have hn : Token.names (t :: rest) = Token.names rest := by simp [Token.names, hk]
      rw [ih h, hn]
      simp [namesAll, namesAll_append, names]
    next =>
      rw [ih h]
      by_cases hk : t.kind = .name <;> simp [namesAll, namesAll_append, names, Token.names, hk]

end TokenTree

namespace Grammar

open Node

/-- The optional marks at the ends of names. -/
def markCount (tokens : List Token) : Nat :=
  ((Token.names tokens).map markLedger.amount).sum

theorem markCount_append (ts us : List Token) :
    markCount (ts ++ us) = markCount ts + markCount us := by
  simp [markCount, Token.names]

theorem markCount_cons {t : Token} (h : t.kind ≠ .name) (rest : List Token) :
    markCount (t :: rest) = markCount rest := by
  simp [markCount, Token.names, h]

theorem markCount_word (text : String) :
    markCount [word text] = (leaf text).total writtenMarks := by
  simp [markCount, Token.names, word, markLedger, total, walk, writtenMarks]

theorem markCount_keyWord (key : String) (optional : Bool) (value : Node) :
    markCount [keyWord key optional]
      = if isWrittenMarked (.mk key value optional) then 1 else 0 := by
  have hm : Item.hasOptionalMark (keyWord key optional).text
      = isWrittenMarked (.mk key value optional) := hasOptionalMark_keyWord key optional
  have hcount : markCount [keyWord key optional] = nameMarks (keyWord key optional).text := by
    simp [markCount, Token.names, keyWord, word, markLedger]
  rw [hcount, nameMarks, hm]

theorem markCount_group (tokens : List Token) :
    markCount (openGroup :: (tokens ++ [closeGroup])) = markCount tokens := by
  rw [markCount_cons (by simp [openGroup]), markCount_append]
  rfl

theorem total_joined {make : List Node → Node} {first : Node} {rest : List Node}
    (h : make = .union ∨ make = .intersection) :
    (joined make (first :: rest)).total writtenMarks
      = first.total writtenMarks + (rest.map (total writtenMarks)).sum := by
  cases rest with
  | nil => simp [joined]
  | cons second rest =>
    rcases h with rfl | rfl <;> exact (total_eq rfl).trans (Nat.zero_add _)

theorem total_arrayOf (depth : Nat) (n : Node) :
    (Item.arrayOf depth n).total writtenMarks = n.total writtenMarks := by
  induction depth generalizing n with
  | zero => rfl
  | succ depth ih =>
    have harray : (Node.array n).total writtenMarks = n.total writtenMarks := by
      simp [total, walk, writtenMarks]
    exact (ih (.array n)).trans harray

theorem total_writtenMarks_shape (exact : Bool) (ps : List Property) (ix : Option Indexer) :
    (shape exact ps ix).total writtenMarks = ps.countP isWrittenMarked
      + ((ps.map fun p => p.value.total writtenMarks).sum
        + ((ix.map fun i => [i.key, i.value]).getD [] |>.map (total writtenMarks)).sum) := by
  rw [total_eq rfl, parts, List.map_append, List.sum_append, List.map_map]
  rfl

/-- The optional marks that a field is written with. -/
def FieldTerm.writtenMarks (f : FieldTerm) : Nat :=
  markCount [word f.name] + f.type.node.total Node.writtenMarks

theorem sum_field_writtenMarks {fields : List FieldTerm} (exact : Bool)
    (hone : fields.countP (·.key?.isNone) ≤ 1) :
    (fields.map FieldTerm.writtenMarks).sum
      = (shape exact (properties fields) (indexer? fields)).total writtenMarks := by
  rw [total_writtenMarks_shape]
  induction fields with
  | nil => rfl
  | cons f rest ih =>
    rw [List.map_cons, List.sum_cons]
    cases f with
    | property key optional type =>
      have hcount : (FieldTerm.property key optional type :: rest).countP (·.key?.isNone)
          = rest.countP (·.key?.isNone) := List.countP_cons_of_neg (by simp [FieldTerm.key?])
      rw [hcount] at hone
      have hname := markCount_keyWord key optional type.node
      rw [ih hone, FieldTerm.writtenMarks, properties, indexer?, List.countP_cons, List.map_cons,
        List.sum_cons, ← hname]
      change markCount [keyWord key optional] + type.node.total writtenMarks + _
        = _ + markCount [keyWord key optional] + (type.node.total writtenMarks + _ + _)
      omega
    | indexer name type =>
      have hcount : (FieldTerm.indexer name type :: rest).countP (·.key?.isNone)
          = rest.countP (·.key?.isNone) + 1 := List.countP_cons_of_pos rfl
      have hzero : rest.countP (·.key?.isNone) = 0 := by omega
      have hnone : indexer? rest = none := by
        clear ih hcount hone
        induction rest with
        | nil => rfl
        | cons g rest ih =>
          cases g with
          | property key optional type => exact ih (by simpa [FieldTerm.key?] using hzero)
          | indexer => exact absurd rfl (List.countP_eq_zero.1 hzero _ (List.mem_cons_self ..))
      have hname := markCount_word name
      rw [ih (by omega), hnone, FieldTerm.writtenMarks, properties, indexer?]
      change markCount [word name] + type.node.total writtenMarks + _
        = _ + (_ + ((leaf name).total writtenMarks + (type.node.total writtenMarks + 0)))
      rw [hname]
      change _ + (_ + (_ + 0)) = _
      omega

mutual

/-- The marks in the tokens of a term are those that its type is written with. -/
theorem UnionTerm.markCount_tokens : ∀ u : UnionTerm, u.Legal →
    markCount u.tokens = u.node.total writtenMarks
  | .mk first rest, h => by
    rw [UnionTerm.tokens, markCount_append, first.markCount_tokens h.1, markCount_joints rest h.2]
    exact (total_joined (.inl rfl)).symm

theorem markCount_joints : ∀ js : List JointTerm, jointsLegal js →
    markCount (tokensAfter ⟨.union, "|"⟩ (jointTokens js))
      = ((jointNodes js).map (total writtenMarks)).sum
  | [], _ => rfl
  | j :: rest, h => by
    rw [jointTokens, tokensAfter, markCount_cons (by simp), markCount_append,
      j.markCount_tokens h.1, markCount_joints rest h.2]
    rfl

theorem JointTerm.markCount_tokens : ∀ j : JointTerm, j.Legal →
    markCount j.tokens = j.node.total writtenMarks
  | .mk first rest, h => by
    rw [JointTerm.tokens, markCount_append, first.markCount_tokens h.1,
      markCount_optionals rest h.2]
    exact (total_joined (.inr rfl)).symm

theorem markCount_optionals : ∀ os : List OptionalTerm, optionalsLegal os →
    markCount (tokensAfter ⟨.intersection, "&"⟩ (optionalTokens os))
      = ((optionalNodes os).map (total writtenMarks)).sum
  | [], _ => rfl
  | o :: rest, h => by
    rw [optionalTokens, tokensAfter, markCount_cons (by simp), markCount_append,
      o.markCount_tokens h.1, markCount_optionals rest h.2]
    rfl

theorem OptionalTerm.markCount_tokens : ∀ o : OptionalTerm, o.Legal →
    markCount o.tokens = o.node.total writtenMarks
  | .plain term, h => term.markCount_tokens h
  | .marked term, h => by
    have hnull : (leaf "null").total writtenMarks = 0 := by decide
    rw [OptionalTerm.tokens, markCount_cons (by simp), term.markCount_tokens h,
      OptionalTerm.node, total_eq (n := .union _) rfl, parts]
    simp [hnull, writtenMarks]

theorem SuffixedTerm.markCount_tokens : ∀ s : SuffixedTerm, s.Legal →
    markCount s.tokens = s.node.total writtenMarks
  | .mk atom suffixes, h => by
    have hs : markCount (List.replicate suffixes ⟨.arraySuffix, "$"⟩) = 0 := by
      clear h
      induction suffixes with
      | zero => rfl
      | succ suffixes ih => rwa [List.replicate_succ, markCount_cons (by simp)]
    rw [SuffixedTerm.tokens, markCount_append, hs, atom.markCount_tokens h.1]
    exact (total_arrayOf suffixes atom.node).symm

theorem AtomTerm.markCount_tokens : ∀ a : AtomTerm, a.Legal →
    markCount a.tokens = a.node.total writtenMarks
  | .name text, _ => markCount_word text
  | .brackets term, h => (markCount_group term.tokens).trans (term.markCount_tokens h)
  | .array element, h => by
    rw [AtomTerm.tokens, markCount_cons (by simp), markCount_group, element.markCount_tokens h]
    exact (total_arrayOf 1 element.node).symm
  | .tuple first rest, h => by
    rw [AtomTerm.tokens, markCount_cons (by simp), markCount_group, markCount_append,
      first.markCount_tokens h.1, markCount_unions rest h.2, AtomTerm.node,
      total_eq (n := .tuple _) rfl]
    exact (Nat.zero_add _).symm
  | .shape exact fields, h => by
    have ht : (if exact then ⟨.exactShape, "#"⟩ else ⟨.shape, "@"⟩ : Token).kind ≠ .name := by
      cases exact <;> simp
    rw [AtomTerm.tokens, markCount_cons ht, markCount_group, markCount_fields fields h.2]
    exact sum_field_writtenMarks exact h.1.2.1

theorem markCount_unions : ∀ us : List UnionTerm, unionsLegal us →
    markCount (tokensAfter ⟨.comma, ","⟩ (unionTokens us))
      = ((unionNodes us).map (total writtenMarks)).sum
  | [], _ => rfl
  | u :: rest, h => by
    rw [unionTokens, tokensAfter, markCount_cons (by simp), markCount_append,
      u.markCount_tokens h.1, markCount_unions rest h.2]
    rfl

theorem FieldTerm.markCount_tokens : ∀ f : FieldTerm, f.Legal → markCount f.tokens = f.writtenMarks
  | .property key optional type, h => by
    have hc : markCount (⟨.colon, ":"⟩ :: type.tokens) = markCount type.tokens :=
      markCount_cons (by simp) _
    rw [FieldTerm.tokens, ← List.singleton_append, markCount_append, hc, type.markCount_tokens h]
    rfl
  | .indexer name type, h => by
    have hc : markCount (⟨.colon, ":"⟩ :: type.tokens) = markCount type.tokens :=
      markCount_cons (by simp) _
    rw [FieldTerm.tokens, ← List.singleton_append, markCount_append, hc, type.markCount_tokens h]
    rfl

theorem markCount_fields : ∀ fields : List FieldTerm, fieldsLegal fields →
    markCount (separated ⟨.comma, ","⟩ (fieldTokens fields)) = (fields.map FieldTerm.writtenMarks).sum
  | [], _ => rfl
  | f :: rest, h => by
    rw [fieldTokens, separated, markCount_append, f.markCount_tokens h.1,
      markCount_fieldsAfter rest h.2]
    rfl

theorem markCount_fieldsAfter : ∀ fields : List FieldTerm, fieldsLegal fields →
    markCount (tokensAfter ⟨.comma, ","⟩ (fieldTokens fields)) = (fields.map FieldTerm.writtenMarks).sum
  | [], _ => rfl
  | f :: rest, h => by
    rw [fieldTokens, tokensAfter, markCount_cons (by simp), markCount_append,
      f.markCount_tokens h.1, markCount_fieldsAfter rest h.2]
    rfl

end

/-! ### The grammar is read -/

/-- A legal term is read as the type that it stands for, whatever its depth and width,
just when no key of a required property ends in the mark of an optional one. -/
theorem UnionTerm.reads_node_iff_unmarked (u : UnionTerm) (h : u.Legal) :
    (∃ trees, TokenTree.ofTokens u.tokens = .ok trees ∧
      ∀ warnings, ((Node.ofTree trees).run warnings).1 = .ok u.node) ↔ u.node.Unmarked := by
  constructor
  · rintro ⟨trees, ht, hread⟩
    have hmade : u.node.total marks = markCount u.tokens := by
      have hnames := TokenTree.namesAll_of_build ht
      rw [List.reverse_nil, List.flatMap_nil, TokenTree.namesAll, List.nil_append,
        List.nil_append] at hnames
      have hmade := @Node.ensures_ofTree Nat _ markLedger trees
        (TokenTree.allClean_of_build ht trivial (by simp)) []
      rw [hread []] at hmade
      rw [markCount, ← hnames]
      exact hmade
    rw [u.markCount_tokens h] at hmade
    exact unmarked_of_total_eq hmade
  · intro hm
    obtain ⟨trees, ht, hg⟩ := UnionTerm.gives_node h hm
    exact ⟨trees, ht, hg.run_eq⟩

/-- An atom on its own. -/
def AtomTerm.alone (a : AtomTerm) : UnionTerm :=
  .mk (.mk (.plain (.mk a 0)) []) []

/-- The term `{|a?: x[][] | ?y & (x | z), [k]: [x, {}]|}[]`. -/
def nestedTerm : UnionTerm :=
  .mk (.mk (.plain (.mk (.shape true
    [.property "a" true (.mk (.mk (.plain (.mk (.name "x") 2)) [])
      [.mk (.marked (.mk (.name "y") 0)) [.plain (.mk (.brackets
        (.mk (.mk (.plain (.mk (.name "x") 0)) []) [.mk (.plain (.mk (.name "z") 0)) []])) 0)]]),
     .indexer "k" (AtomTerm.tuple (AtomTerm.name "x").alone [(AtomTerm.shape false []).alone]).alone])
    1)) []) []

theorem reads_nestedTerm : nestedTerm.Legal ∧ ∃ trees,
    TokenTree.ofTokens nestedTerm.tokens = .ok trees ∧
      ∀ warnings, ((Node.ofTree trees).run warnings).1 = .ok nestedTerm.node := by
  have hl : nestedTerm.Legal := by
    simp [nestedTerm, AtomTerm.alone, UnionTerm.Legal, JointTerm.Legal, OptionalTerm.Legal,
      SuffixedTerm.Legal, AtomTerm.Legal, FieldTerm.Legal, jointsLegal, optionalsLegal,
      unionsLegal, fieldsLegal, fitTogether, FieldTerm.key?, FieldTerm.isQuotedIndexer]
    decide
  refine ⟨hl, (UnionTerm.reads_node_iff_unmarked nestedTerm hl).2 ?_⟩
  simp [Node.Unmarked]
  decide

/-- The term `{"a¿": x}`. -/
def markedKeyTerm : UnionTerm :=
  (AtomTerm.shape false [.property "a¿" false (AtomTerm.name "x").alone]).alone

/-- The term `{a?: x}`. -/
def optionalKeyTerm : UnionTerm :=
  (AtomTerm.shape false [.property "a" true (AtomTerm.name "x").alone]).alone

/-- A required key that ends in the mark is read as an optional key without it. -/
theorem misreads_markedKeyTerm : markedKeyTerm.Legal ∧ ¬ ∃ trees,
    TokenTree.ofTokens markedKeyTerm.tokens = .ok trees ∧
      ∀ warnings, ((Node.ofTree trees).run warnings).1 = .ok markedKeyTerm.node := by
  have hl : ∀ key optional,
      (AtomTerm.shape false [.property key optional (AtomTerm.name "x").alone]).alone.Legal := by
    intro key optional
    simp [AtomTerm.alone, UnionTerm.Legal, JointTerm.Legal, OptionalTerm.Legal, SuffixedTerm.Legal,
      AtomTerm.Legal, FieldTerm.Legal, jointsLegal, optionalsLegal, fieldsLegal, fitTogether,
      FieldTerm.key?, FieldTerm.isQuotedIndexer]
  refine ⟨hl "a¿" false, ?_⟩
  rintro ⟨trees, ht, hread⟩
  -- The two terms are written alike, so reading either gives the type of the optional key.
  have htokens : markedKeyTerm.tokens = optionalKeyTerm.tokens := by decide
  have hm : optionalKeyTerm.node.Unmarked := by
    simp only [Node.Unmarked]
    decide
  obtain ⟨trees', ht', hg⟩ := UnionTerm.gives_node (hl "a" true) hm
  obtain rfl : trees = trees' := by
    rw [htokens] at ht
    exact Except.ok.inj (ht.symm.trans ht')
  have hnode := (hread []).symm.trans (hg.run_eq [])
  injection hnode with hnode
  injection hnode with _ hproperties _
  injection hproperties with hproperty _
  injection hproperty with _ _ hoptional
  cases hoptional

end Grammar

end StructuralTypes

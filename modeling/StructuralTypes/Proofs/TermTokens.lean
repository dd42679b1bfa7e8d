import StructuralTypes.Proofs.TermLevels

/-! Surface terms from their tokens. The tokens of a term nest into trees that hold just the
items of the term, so each level is read as the passes read it, and a whole term as the type
that it stands for. -/

namespace StructuralTypes.Grammar

open Item Reading

/-! ### Tokens as items -/

theorem gives_ofTrees_append {xs ys : List TokenTree} {is js : List Item}
    (h : Gives (ofTrees xs) is) (h' : Gives (ofTrees ys) js) :
    Gives (ofTrees (xs ++ ys)) (is ++ js) := by
  have happ : ofTrees (xs ++ ys)
      = ofTrees xs >>= fun is => ofTrees ys >>= fun js => pure (is ++ js) := by
    clear h h'
    induction xs with
    | nil => simp [ofTrees]
    | cons tree rest ih => simp [ofTrees, ih]
  rw [happ]
  exact h.bind (h'.bind (gives_pure _))

/-- Tokens that nest into trees of their own wherever they stand, and become items. -/
def Reads (tokens : List Token) (items : List Item) : Prop :=
  ∃ trees, (∀ level outer rest, TokenTree.build level outer (tokens ++ rest)
      = TokenTree.build (level ++ trees) outer rest)
    ∧ Gives (ofTrees trees) items

theorem reads_nil : Reads [] [] :=
  ⟨[], fun level outer rest => by rw [List.append_nil, List.nil_append], gives_pure _⟩

theorem Reads.append {ts us : List Token} {is js : List Item} (h : Reads ts is)
    (h' : Reads us js) : Reads (ts ++ us) (is ++ js) := by
  obtain ⟨xs, hx, hi⟩ := h
  obtain ⟨ys, hy, hj⟩ := h'
  refine ⟨xs ++ ys, fun level outer rest => ?_, gives_ofTrees_append hi hj⟩
  rw [List.append_assoc, hx, hy, List.append_assoc]

/-- A token that is no bracket becomes one item. -/
theorem reads_one {t : Token} (ho : t.kind ≠ .groupOpen) (hc : t.kind ≠ .groupClose) :
    Reads [t] [if t.kind = .name then .node (.leaf t.text) else .token t] := by
  refine ⟨[.token t], fun level outer rest => ?_, ?_⟩
  · rw [List.singleton_append, TokenTree.build.eq_def]
    split <;> simp_all
  · exact (gives_pure _).bind ((gives_pure _).bind (gives_pure _))

theorem reads_word (text : String) : Reads [word text] [.node (.leaf text)] :=
  reads_one (by simp [word]) (by simp [word])

theorem reads_separator {kind : TokenKind} (text : String)
    (h : kind ∉ [.groupOpen, .groupClose, .name]) :
    Reads [⟨kind, text⟩] [separator kind text] := by
  simp only [List.mem_cons, List.not_mem_nil, or_false, not_or] at h
  have hr := reads_one (t := ⟨kind, text⟩) h.1 h.2.1
  rwa [if_neg h.2.2] at hr

/-- Tokens in brackets become what their level resolves to. -/
theorem Reads.group {ts : List Token} {is : List Item} {i : Item} (h : Reads ts is)
    (hi : Gives (resolve is) i) : Reads (openGroup :: (ts ++ [closeGroup])) [i] := by
  obtain ⟨trees, hb, hg⟩ := h
  refine ⟨[.group trees], fun level outer rest => ?_, ?_⟩
  · rw [List.cons_append, List.append_assoc]
    change TokenTree.build [] (level :: outer) (ts ++ ([closeGroup] ++ rest)) = _
    rw [hb, List.nil_append]
    rfl
  · exact (hg.bind hi).bind ((gives_pure _).bind (gives_pure _))

/-! ### Types without marked keys -/

theorem unmarked_iff {n : Node} (h : n.isStray = false) :
    n.Unmarked ↔ n.hasUnmarkedKeys = true ∧ ∀ part ∈ n.parts, part.Unmarked :=
  Node.forall_mem_walk h

theorem unmarked_joined_union {first : Node} {rest : List Node} :
    (joined .union (first :: rest)).Unmarked ↔ ∀ n ∈ first :: rest, n.Unmarked := by
  cases rest with
  | nil => simp [joined]
  | cons second rest =>
    change (Node.union (first :: second :: rest)).Unmarked ↔ _
    rw [unmarked_iff rfl]
    simp [Node.hasUnmarkedKeys, Node.parts]

theorem unmarked_joined_intersection {first : Node} {rest : List Node} :
    (joined .intersection (first :: rest)).Unmarked ↔ ∀ n ∈ first :: rest, n.Unmarked := by
  cases rest with
  | nil => simp [joined]
  | cons second rest =>
    change (Node.intersection (first :: second :: rest)).Unmarked ↔ _
    rw [unmarked_iff rfl]
    simp [Node.hasUnmarkedKeys, Node.parts]

theorem unmarked_arrayOf (depth : Nat) {n : Node} : (arrayOf depth n).Unmarked ↔ n.Unmarked := by
  induction depth generalizing n with
  | zero => rfl
  | succ depth ih =>
    have harray : (Node.array n).Unmarked ↔ n.Unmarked := by
      simpa [Node.hasUnmarkedKeys, Node.parts] using unmarked_iff (n := .array n) rfl
    exact ih.trans harray

theorem mem_properties {fields : List FieldTerm} {key : String} {optional : Bool}
    {type : UnionTerm} (h : .property key optional type ∈ fields) :
    .mk key type.node optional ∈ properties fields := by
  induction fields with
  | nil => simp at h
  | cons f rest ih =>
    rcases List.mem_cons.1 h with rfl | hr
    · exact List.mem_cons_self ..
    · cases f with
      | property => exact List.mem_cons_of_mem _ (ih hr)
      | indexer => exact ih hr

theorem mem_indexer? {fields : List FieldTerm} (hone : fields.countP (·.key?.isNone) ≤ 1)
    {name : String} {type : UnionTerm} (h : .indexer name type ∈ fields) :
    indexer? fields = some (.mk (.leaf name) type.node) := by
  induction fields with
  | nil => simp at h
  | cons f rest ih =>
    cases f with
    | property key optional other =>
      have hmem : FieldTerm.indexer name type ∈ rest := by simpa using h
      exact ih (by simpa [FieldTerm.key?] using hone) hmem
    | indexer other otherType =>
      have hcount : (FieldTerm.indexer other otherType :: rest).countP (·.key?.isNone)
          = rest.countP (·.key?.isNone) + 1 := List.countP_cons_of_pos rfl
      have hzero : rest.countP (·.key?.isNone) = 0 := by omega
      rcases List.mem_cons.1 h with h | h
      · injection h with hname htype
        rw [indexer?, hname, htype]
      · exact absurd rfl (List.countP_eq_zero.1 hzero _ h)

/-- The types of fields with one indexer at most are all parts of their shape. -/
theorem type_mem_parts {fields : List FieldTerm} (exact : Bool)
    (hone : fields.countP (·.key?.isNone) ≤ 1) {f : FieldTerm} (hf : f ∈ fields) :
    f.type.node ∈ (Node.shape exact (properties fields) (indexer? fields)).parts := by
  cases f with
  | property key optional type =>
    exact List.mem_append_left _ (List.mem_map_of_mem (mem_properties hf))
  | indexer name type =>
    refine List.mem_append_right _ ?_
    rw [mem_indexer? hone hf]
    exact List.mem_cons_of_mem _ (List.mem_cons_self ..)

/-! ### Terms from their tokens -/

theorem unionsLegal_iff {us : List UnionTerm} : unionsLegal us ↔ ∀ u ∈ us, u.Legal := by
  induction us with
  | nil => simp [unionsLegal]
  | cons u rest ih => simp [unionsLegal, ih]

theorem FieldTerm.legal_iff {f : FieldTerm} : f.Legal ↔ f.type.Legal := by
  cases f <;> rfl

theorem fieldsLegal_iff {fields : List FieldTerm} :
    fieldsLegal fields ↔ ∀ f ∈ fields, f.type.Legal := by
  induction fields with
  | nil => simp [fieldsLegal]
  | cons f rest ih => simp [fieldsLegal, ih, FieldTerm.legal_iff]

mutual

/-- The tokens of a legal term without marked keys are read as its items. -/
theorem UnionTerm.reads : ∀ u : UnionTerm, u.Legal → u.node.Unmarked → Reads u.tokens (u.raw [])
  | .mk first rest, h, hm => by
    rw [UnionTerm.node, unmarked_joined_union, List.forall_mem_cons] at hm
    exact (first.reads h.1 hm.1).append (jointsRead rest h.2 hm.2)

theorem jointsRead : ∀ js : List JointTerm, jointsLegal js → (∀ n ∈ jointNodes js, n.Unmarked) →
    Reads (tokensAfter ⟨.union, "|"⟩ (jointTokens js))
      (js.flatMap fun j => separator .union "|" :: j.raw [])
  | [], _, _ => reads_nil
  | j :: rest, h, hm => by
    rw [jointNodes, List.forall_mem_cons] at hm
    have hs : Reads [⟨.union, "|"⟩] [separator .union "|"] := reads_separator "|" (by simp)
    exact hs.append ((j.reads h.1 hm.1).append (jointsRead rest h.2 hm.2))

theorem JointTerm.reads : ∀ j : JointTerm, j.Legal → j.node.Unmarked → Reads j.tokens (j.raw [])
  | .mk first rest, h, hm => by
    rw [JointTerm.node, unmarked_joined_intersection, List.forall_mem_cons] at hm
    exact (first.reads h.1 hm.1).append (optionalsRead rest h.2 hm.2)

theorem optionalsRead : ∀ os : List OptionalTerm, optionalsLegal os →
    (∀ n ∈ optionalNodes os, n.Unmarked) →
    Reads (tokensAfter ⟨.intersection, "&"⟩ (optionalTokens os))
      (os.flatMap fun o => separator .intersection "&" :: o.raw [])
  | [], _, _ => reads_nil
  | o :: rest, h, hm => by
    rw [optionalNodes, List.forall_mem_cons] at hm
    have hs : Reads [⟨.intersection, "&"⟩] [separator .intersection "&"] :=
      reads_separator "&" (by simp)
    exact hs.append ((o.reads h.1 hm.1).append (optionalsRead rest h.2 hm.2))

theorem OptionalTerm.reads : ∀ o : OptionalTerm, o.Legal → o.node.Unmarked →
    Reads o.tokens (o.raw [])
  | .plain term, h, hm => term.reads h hm
  | .marked term, h, hm => by
    have hp : term.node.Unmarked := ((unmarked_iff rfl).1 hm).2 _ (by
      rw [OptionalTerm.node, Node.parts]
      simp)
    have hs : Reads [⟨.optional, "?"⟩] [separator .optional "?"] := reads_separator "?" (by simp)
    exact hs.append (term.reads h hp)

theorem SuffixedTerm.reads : ∀ s : SuffixedTerm, s.Legal → s.node.Unmarked →
    Reads s.tokens (s.raw [])
  | .mk atom suffixes, h, hm => by
    have hs : Reads (List.replicate suffixes ⟨.arraySuffix, "$"⟩)
        (List.replicate suffixes (separator .arraySuffix "$")) := by
      clear h hm
      induction suffixes with
      | zero => exact reads_nil
      | succ suffixes ih => exact (reads_separator "$" (by simp)).append ih
    exact (atom.reads h.1 ((unmarked_arrayOf suffixes).1 hm)).append hs

theorem AtomTerm.reads : ∀ a : AtomTerm, a.Legal → a.node.Unmarked → Reads a.tokens (a.items [])
  | .name text, _, _ => reads_word text
  | .brackets term, h, hm => (term.reads h hm).group (gives_resolve_term h)
  | .array element, h, hm => by
    have hp : element.node.Unmarked := ((unmarked_iff rfl).1 hm).2 _ (by
      rw [AtomTerm.node, Node.parts]
      simp)
    have hs : Reads [⟨.array, "~"⟩] [separator .array "~"] := reads_separator "~" (by simp)
    exact hs.append ((element.reads h hp).group (gives_resolve_term h))
  | .tuple first rest, h, hm => by
    have hp := ((unmarked_iff rfl).1 hm).2
    rw [AtomTerm.node, Node.parts, List.forall_mem_cons] at hp
    have hs : Reads [⟨.tuple, "^"⟩] [separator .tuple "^"] := reads_separator "^" (by simp)
    have hr := (first.reads h.1 hp.1).append (unionsRead rest h.2 hp.2)
    exact hs.append (hr.group (gives_resolve_elements h.1 (unionsLegal_iff.1 h.2)))
  | .shape exact fields, h, hm => by
    rw [AtomTerm.node] at hm
    have hp := (unmarked_iff rfl).1 hm
    have hs : Reads [if exact then ⟨.exactShape, "#"⟩ else ⟨.shape, "@"⟩]
        [.token (if exact then ⟨.exactShape, "#"⟩ else ⟨.shape, "@"⟩)] := by
      cases exact with
      | true => exact reads_separator "#" (by simp)
      | false => exact reads_separator "@" (by simp)
    have hmark : ∀ p ∈ properties fields, p.optional = true
        ∨ p.key.toList.getLast? ≠ some MarkerForm.optionalMark := by
      have hkeys := hp.1
      simpa [Node.hasUnmarkedKeys] using hkeys
    have hr := fieldsRead fields h.2 fun f hf => hp.2 _ (type_mem_parts exact h.1.2.1 hf)
    exact hs.append (hr.group (gives_resolve_fields h.1 (fieldsLegal_iff.1 h.2) hmark))

theorem unionsRead : ∀ us : List UnionTerm, unionsLegal us → (∀ n ∈ unionNodes us, n.Unmarked) →
    Reads (tokensAfter ⟨.comma, ","⟩ (unionTokens us))
      (us.flatMap fun u => separator .comma "," :: u.raw [])
  | [], _, _ => reads_nil
  | u :: rest, h, hm => by
    rw [unionNodes, List.forall_mem_cons] at hm
    have hs : Reads [⟨.comma, ","⟩] [separator .comma ","] := reads_separator "," (by simp)
    exact hs.append ((u.reads h.1 hm.1).append (unionsRead rest h.2 hm.2))

theorem FieldTerm.reads : ∀ f : FieldTerm, f.Legal → f.type.node.Unmarked → Reads f.tokens f.raw
  | .property key optional type, h, hm => by
    have hs : Reads [⟨.colon, ":"⟩] [separator .colon ":"] := reads_separator ":" (by simp)
    exact (reads_word _).append (hs.append (type.reads h hm))
  | .indexer name type, h, hm => by
    have hs : Reads [⟨.colon, ":"⟩] [separator .colon ":"] := reads_separator ":" (by simp)
    exact (reads_word _).append (hs.append (type.reads h hm))

theorem fieldsRead : ∀ fields : List FieldTerm, fieldsLegal fields →
    (∀ f ∈ fields, f.type.node.Unmarked) →
    Reads (separated ⟨.comma, ","⟩ (fieldTokens fields)) (rawFields fields)
  | [], _, _ => reads_nil
  | f :: rest, h, hm => by
    rw [List.forall_mem_cons] at hm
    exact (f.reads h.1 hm.1).append (fieldsAfterRead rest h.2 hm.2)

theorem fieldsAfterRead : ∀ fields : List FieldTerm, fieldsLegal fields →
    (∀ f ∈ fields, f.type.node.Unmarked) →
    Reads (tokensAfter ⟨.comma, ","⟩ (fieldTokens fields))
      (fields.flatMap fun f => separator .comma "," :: f.raw)
  | [], _, _ => reads_nil
  | f :: rest, h, hm => by
    rw [List.forall_mem_cons] at hm
    have hs : Reads [⟨.comma, ","⟩] [separator .comma ","] := reads_separator "," (by simp)
    exact hs.append ((f.reads h.1 hm.1).append (fieldsAfterRead rest h.2 hm.2))

end

/-- A legal term without marked keys is read as the type that it stands for. -/
theorem UnionTerm.gives_node {u : UnionTerm} (h : u.Legal) (hm : u.node.Unmarked) :
    ∃ trees, TokenTree.ofTokens u.tokens = .ok trees ∧ Gives (Node.ofTree trees) u.node := by
  obtain ⟨trees, hb, hr⟩ := u.reads h hm
  refine ⟨trees, ?_, (hr.bind (gives_resolve_term h)).bind (gives_ofExcept_iff.2 rfl)⟩
  have hall := hb [] [] []
  rw [List.append_nil, List.nil_append] at hall
  exact hall

end StructuralTypes.Grammar

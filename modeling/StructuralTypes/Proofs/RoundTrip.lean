import StructuralTypes.Node.Printable
import StructuralTypes.Proofs.Canonical
import StructuralTypes.Proofs.Outcomes
import StructuralTypes.Proofs.TermTexts
import StructuralTypes.Proofs.Walk

/-! Printing undone by reading. The annotation of a legible node is read as a legal term
for the node, and the brackets that are printed are just enough to put every part on the
level of the grammar where it stands. Printable nodes are legible. -/

namespace StructuralTypes.Node

open Grammar Grade

/-! ### Printed nodes -/

/-- What is printed for a node is read as a term for it on every level that it is printed
on without brackets. -/
def Readable (n : Node) : Prop :=
  ∃ text, n.format = .ok text ∧ unions.Writes n text
    ∧ (needsBrackets .ofUnion n = false → joints.Writes n text)
    ∧ (needsBrackets .ofArray n = false → suffixed.Writes n text)

variable {n : Node} {text : String}

theorem readable_of_suffixed (h : n.format = .ok text) (hw : suffixed.Writes n text) :
    n.Readable :=
  ⟨text, h, unions_of_joints (joints_of_suffixed hw), fun _ => joints_of_suffixed hw, fun _ => hw⟩

/-- A member of a union, in brackets where it needs them. -/
theorem Readable.unionMember (h : n.Readable) :
    ∃ text, (bracketed .ofUnion n <$> n.format) = .ok text ∧ joints.Writes n text := by
  obtain ⟨text, hf, hu, hj, -⟩ := h
  rw [hf]
  refine ⟨_, rfl, ?_⟩
  cases hb : needsBrackets .ofUnion n with
  | true =>
    rw [bracketed, if_pos hb]
    exact joints_of_suffixed (suffixed_of_atoms (atoms_group hu))
  | false =>
    rw [bracketed, if_neg (by simp [hb])]
    exact hj hb

/-- A member of an intersection or the items of an array, in brackets where they need
them. -/
theorem Readable.operand (h : n.Readable) {place : Operand} (hp : place ≠ .ofUnion) :
    ∃ text, (bracketed place n <$> n.format) = .ok text ∧ suffixed.Writes n text := by
  obtain ⟨text, hf, hu, -, hs⟩ := h
  have hplace : needsBrackets place n = needsBrackets .ofArray n := by
    cases place with
    | ofUnion => exact absurd rfl hp
    | ofIntersection => cases n <;> rfl
    | ofArray => rfl
  rw [hf]
  refine ⟨_, rfl, ?_⟩
  cases hb : needsBrackets place n with
  | true =>
    rw [bracketed, if_pos hb]
    exact suffixed_of_atoms (atoms_group hu)
  | false =>
    rw [bracketed, if_neg (by simp [hb])]
    exact hs (hplace ▸ hb)

theorem formatOperands_eq (place : Operand) (nodes : List Node) :
    formatOperands place nodes = nodes.mapM fun n => bracketed place n <$> n.format := by
  induction nodes with
  | nil => rfl
  | cons n rest ih =>
    rw [formatOperands, List.mapM_cons, ih]
    cases n.format <;> rfl

theorem formatAll_eq (nodes : List Node) : formatAll nodes = nodes.mapM format := by
  induction nodes with
  | nil => rfl
  | cons n rest ih => rw [formatAll, List.mapM_cons, ih]

theorem formatProperties_eq (properties : List Property) :
    formatProperties properties = properties.mapM formatProperty := by
  induction properties with
  | nil => rfl
  | cons p rest ih => rw [formatProperties, List.mapM_cons, ih]

theorem readable_union {members : List Node} (h : ∀ m ∈ members, m.Readable)
    (hlen : 2 ≤ members.length) : (union members).Readable := by
  obtain ⟨texts, hf, hw⟩ := Outcome.exists_mapM fun m hm => (h m hm).unionMember
  have hformat : (union members).format = .ok (" | ".intercalate texts) := by
    rw [format, formatOperands_eq, hf]
    rfl
  have hmany : needsBrackets .ofUnion (union members) = true := decide_eq_true hlen
  refine ⟨_, hformat, unions_intercalate hw hlen, fun hn => ?_, fun hn => ?_⟩
  · rw [hmany] at hn
    cases hn
  · exact absurd (hmany.symm.trans hn) (by decide)

theorem readable_intersection {members : List Node} (h : ∀ m ∈ members, m.Readable)
    (hlen : 2 ≤ members.length) : (intersection members).Readable := by
  have hmember : ∀ m ∈ members, ∃ text,
      bracketed .ofIntersection m <$> m.format = .ok text ∧ optionals.Writes m text := by
    intro m hm
    obtain ⟨text, hf, hw⟩ := @Readable.operand m (h m hm) .ofIntersection (by decide)
    exact ⟨text, hf, optionals_of_suffixed hw⟩
  obtain ⟨texts, hf, hw⟩ := Outcome.exists_mapM hmember
  have hformat : (intersection members).format = .ok (" & ".intercalate texts) := by
    rw [format, formatOperands_eq, hf]
    rfl
  have hjoint := joints_intercalate hw hlen
  have hmany : needsBrackets .ofArray (intersection members) = true := decide_eq_true hlen
  refine ⟨_, hformat, unions_of_joints hjoint, fun _ => hjoint, fun hn => ?_⟩
  rw [hmany] at hn
  cases hn

theorem readable_tuple {elements : List Node} (h : ∀ e ∈ elements, e.Readable)
    (hne : elements ≠ []) : (tuple elements).Readable := by
  have helement : ∀ e ∈ elements, ∃ text, e.format = .ok text ∧ unions.Writes e text := by
    intro e he
    obtain ⟨text, hf, hu, -⟩ := h e he
    exact ⟨text, hf, hu⟩
  obtain ⟨texts, hf, hw⟩ := Outcome.exists_mapM helement
  refine readable_of_suffixed ?_ (suffixed_of_atoms (atoms_tuple hw hne))
  rw [format, formatAll_eq, hf]
  rfl

theorem readable_leaf {name : String} (h : isLegibleName name = true) : (leaf name).Readable :=
  readable_of_suffixed rfl (suffixed_of_atoms ⟨.name name, rfl, trivial, spells_name h⟩)

/-- The word for arrays is printed for existentials alone. -/
theorem format_array {element : Node} (h : element ≠ leaf existential) :
    (array element).format
      = (bracketed .ofArray element <$> element.format).map fun text => text ++ "[]" := by
  have hsuffix : (array element).format
      = do return bracketed .ofArray element (← element.format) ++ "[]" := by
    cases element with
    | leaf name =>
      have hname : name ≠ existential := fun he => h (congrArg leaf he)
      show Except.ok (if name = existential then "Array<*>" else name ++ "[]") = _
      rw [if_neg hname]
      rfl
    | _ => rfl
  rw [hsuffix]
  cases element.format <;> rfl

theorem readable_array {element : Node} (h : element.Readable) : (array element).Readable := by
  by_cases he : element = leaf existential
  · subst he
    exact readable_of_suffixed rfl suffixed_existentials
  · obtain ⟨text, hf, hw⟩ := @Readable.operand element h .ofArray (by decide)
    refine readable_of_suffixed ?_ (suffixed_array hw he)
    rw [format_array he, hf]
    rfl

theorem writes_property {p : Property} (hk : isQuotableKey p.key = true) (h : p.value.Readable) :
    ∃ text, formatProperty p = .ok text ∧ fields.Writes (.inl p) text := by
  obtain ⟨key, value, optional⟩ := p
  obtain ⟨text, hf, ⟨u, hu, hl, hs⟩, -⟩ := h
  refine ⟨formatKey key ++ (if optional then "?" else "") ++ ": " ++ text, ?_,
    .property key optional u, ?_, hl, ?_⟩
  · rw [formatProperty, show value.format = .ok text from hf]
    rfl
  · show Sum.inl (Property.mk key u.node optional) = _
    rw [show u.node = value from hu]
  · rw [String.toList_append]
    exact (spells_key hk optional).append hs

theorem writes_indexer {name : String} {value : Node} (hn : (Piece.indexer name).Valid)
    (h : value.Readable) :
    ∃ text, formatIndexer (some (.mk (leaf name) value)) = .ok [text]
      ∧ fields.Writes (.inr (.mk (leaf name) value)) text := by
  obtain ⟨text, hf, ⟨u, hu, hl, hs⟩, -⟩ := h
  refine ⟨"[" ++ name ++ "]: " ++ text, ?_, .indexer name u, ?_, hl, ?_⟩
  · rw [formatIndexer, hf]
    rfl
  · show Sum.inr (Indexer.mk (leaf name) u.node) = _
    rw [show u.node = value from hu]
  · rw [String.toList_append]
    exact (spells_indexer hn).append hs

theorem readable_shape {exact : Bool} {ps : List Property} {ix : Option Indexer}
    (hps : ∀ p ∈ ps, isQuotableKey p.key = true ∧ p.value.Readable)
    (hkeys : (ps.map Property.key).Nodup)
    (hix : ∀ i ∈ ix, ∃ name, i.key = leaf name ∧ (Piece.indexer name).Valid ∧ i.value.Readable) :
    (shape exact ps ix).Readable := by
  obtain ⟨texts, hf, hw⟩ := Outcome.exists_mapM fun p hp => writes_property (hps p hp).1 (hps p hp).2
  have hindexer : ∃ more, formatIndexer ix = .ok more
      ∧ List.Forall₂ fields.Writes (ix.map Sum.inr).toList more := by
    cases ix with
    | none => exact ⟨[], rfl, .nil⟩
    | some i =>
      obtain ⟨key, value⟩ := i
      obtain ⟨name, rfl, hn, hv⟩ : ∃ name, key = leaf name ∧ _ ∧ value.Readable := hix _ rfl
      obtain ⟨text, hft, hwt⟩ := writes_indexer hn hv
      exact ⟨[text], hft, .cons hwt .nil⟩
  obtain ⟨more, hfm, hwm⟩ := hindexer
  have hentries : List.Forall₂ fields.Writes (entriesOf ps ix) (texts ++ more) :=
    List.rel_append (List.forall₂_map_left_iff.2 hw) hwm
  refine readable_of_suffixed ?_ (suffixed_of_atoms (atoms_shape hentries hkeys ?_))
  · rw [format, formatProperties_eq, hf, hfm]
    rfl
  · rintro name type rfl
    obtain ⟨other, hkey, hn, -⟩ := hix _ rfl
    obtain rfl : name = other := by injection hkey
    exact hn.2

/-! ### Reading what was printed -/

/-- Legibility is a condition on a node and its parts. -/
theorem legible_iff (h : n.isStray = false) :
    n.Legible ↔ (n.hasParts 2 = true ∧ n.hasLegibleTexts = true)
      ∧ ∀ part ∈ n.parts, part.Legible := by
  rw [Legible, regular_iff h, forall_mem_walk h]
  constructor
  · rintro ⟨⟨hparts, hregular⟩, htexts, hall⟩
    exact ⟨⟨hparts, htexts⟩, fun part hp => ⟨hregular part hp, hall part hp⟩⟩
  · rintro ⟨⟨hparts, htexts⟩, hall⟩
    exact ⟨⟨hparts, fun part hp => (hall part hp).1⟩, htexts, fun part hp => (hall part hp).2⟩

theorem hasPlainIndexer_leaf {exact : Bool} {ps : List Property} {i : Indexer}
    (h : (shape exact ps (some i)).hasPlainIndexer = true) :
    ∃ name, i.key = leaf name ∧ Escapes.quoted? name.toList = none := by
  rw [hasPlainIndexer] at h
  split at h
  · rename_i name hkey
    exact ⟨name, hkey, Option.isNone_iff_eq_none.1 h⟩
  · cases h

/-- Every legible node is printed, and read back on each level where it is printed without
brackets. -/
theorem readable_of_legible (n : Node) : n.Legible → n.Readable := by
  induction n using induction_parts with
  | h n ih =>
    intro hn
    obtain ⟨⟨hparts, htexts⟩, hall⟩ := (legible_iff hn.1.1).1 hn
    have hread : ∀ part ∈ n.parts, part.Readable := fun part hp => ih part hp (hall part hp)
    cases n with
    | leaf name => exact readable_leaf htexts
    | union members => exact readable_union hread (of_decide_eq_true hparts)
    | intersection members => exact readable_intersection hread (of_decide_eq_true hparts)
    | array element => exact readable_array (hread element List.mem_cons_self)
    | tuple elements => exact readable_tuple hread (by simpa [hasParts] using hparts)
    | shape exact ps ix =>
      rw [hasLegibleTexts, Bool.and_eq_true, List.all_eq_true] at htexts
      · refine readable_shape (fun p hp => ⟨?_, ?_⟩) (of_decide_eq_true hparts) fun i hi => ?_
        · exact htexts.1 _ (List.mem_map_of_mem hp)
        · exact hread _ (List.mem_append_left _ (List.mem_map_of_mem hp))
        · obtain rfl : ix = some i := hi
          obtain ⟨name, hkey, hquoted⟩ := hasPlainIndexer_leaf htexts.2
          have hkeyPart : (leaf name).Legible := hkey ▸ hall i.key (by simp [parts])
          have hname : isLegibleName name = true := ((legible_iff rfl).1 hkeyPart).1.2
          exact ⟨name, hkey, ⟨hname, hquoted⟩, hread i.value (by simp [parts])⟩
      · exact fun _ he => by cases he
    | stray s => cases hn.1.1

/-- An annotation is read from its tokens. -/
theorem parse?_of_scan {tokens : List Token} {trees : List TokenTree}
    (hscan : Token.scan text = .ok tokens) (htrees : TokenTree.ofTokens tokens = .ok trees)
    (hread : ((ofTree trees).run []).1 = .ok n) : parse? text = .ok n := by
  have htree : TokenTree.ofText text = .ok trees := by
    rw [TokenTree.ofText, hscan]
    exact htrees
  rw [parse?_eq, htree]
  dsimp only
  rw [hread]
  rfl

/-- Printing a type and reading the annotation gives the type again, if it is legible and no
required key is read as that of an optional property. -/
theorem parse_format_of_legible (h : n.Legible) (hmarks : n.Unmarked) :
    ∃ text, n.format = .ok text ∧ parse? text = .ok n := by
  obtain ⟨text, hf, ⟨u, hu, hl, ps, hfits, htext, htokens⟩, -⟩ := readable_of_legible n h
  refine ⟨text, hf, ?_⟩
  have hnode : u.node = n := hu
  obtain ⟨trees, htrees, hgives⟩ := UnionTerm.gives_node hl (hnode ▸ hmarks)
  have hscan : Token.scan text = .ok u.tokens := by
    have hscan := scan_printed hfits
    rw [htext, String.ofList_toList, htokens] at hscan
    exact hscan
  exact parse?_of_scan hscan htrees (by rw [hgives.run_eq, hnode])

/-! ### Printable trees -/

/-- Characters of names that are no literals. -/
def isNameChar (c : Char) : Bool :=
  CharClass.isWord c || CharClass.isDigit c || c == '.' || c == '*'

/-- A name of such characters is legible. -/
theorem isLegibleName_of_chars {name : String} (hne : name.toList ≠ [])
    (h : ∀ c ∈ name.toList, isNameChar c = true) : isLegibleName name = true := by
  have hother : ∀ c ∈ specials, isNameChar c = false := by decide
  have hnot : ∀ c ∈ specials, c ∉ name.toList := by
    intro c hc hm
    have hname := h c hm
    rw [hother c hc] at hname
    cases hname
  have hquote : ∀ c ∈ name.toList, Escapes.isQuote c = false := by
    intro c hc
    refine Bool.eq_false_iff.2 fun hq => ?_
    rw [Escapes.isQuote, Bool.or_eq_true, beq_iff_eq, beq_iff_eq] at hq
    rcases hq with rfl | rfl
    · exact hnot _ (by decide) hc
    · exact hnot _ (by decide) hc
  have hglyphs : Glyph.ofChars name.toList = name.toList.map Glyph.char := by
    have happend := Glyph.ofChars_append_of_plain hquote []
    rwa [List.append_nil, Glyph.ofChars, List.append_nil] at happend
  have hfree : ∀ c ∈ specials, Glyph.char c ∉ name.toList.map Glyph.char :=
    fun c hc hm => hnot c hc (Glyph.char_mem_map.1 hm)
  rw [isLegibleName_iff, hglyphs]
  exact ⟨hne, hnot _ (by decide), fun c hc => hfree c (mem_specials hc),
    Glyph.dropComments_of_not_mem (hfree _ (by decide)),
    @Glyph.replaceWord_eq_self _ '<' (by decide) _ (hfree _ (by decide)) _⟩

theorem isLegibleName_of_literal {name : String} (h : isLiteralName name = true) :
    isLegibleName name = true := by
  rw [isLiteralName] at h
  split at h
  · rename_i t rest ht
    rw [Bool.and_eq_true, List.isEmpty_iff, Bool.not_eq_true', List.contains_eq_mem,
      decide_eq_false_iff_not] at h
    obtain ⟨rfl, hnul⟩ := h
    have hglyphs : Glyph.ofChars name.toList = [.literal t] := by
      rw [Glyph.ofChars_of_literal? ht, Glyph.ofChars]
    have hne : name.toList ≠ [] := by
      intro hnil
      rw [hnil] at ht
      cases ht
    rw [isLegibleName_iff, hglyphs]
    exact ⟨hne, hnul, by simp, rfl, rfl⟩
  · cases h

/-- A printable name is legible. -/
theorem isLegibleName_of_printable {name : String} (h : isPrintableName name = true) :
    isLegibleName name = true := by
  simp only [isPrintableName, Bool.or_eq_true, beq_iff_eq] at h
  rcases h with ((h | h) | h) | rfl
  · rw [isWordName, Bool.and_eq_true, List.all_eq_true] at h
    exact isLegibleName_of_chars (by simpa using h.1) fun c hc => by simp [isNameChar, h.2 c hc]
  · unfold isDecimalName at h
    have happ := NumberText.spanDigits_append name.toList
    split at h
    · rename_i d ds rest hspan
      have hdigits : ∀ c ∈ d :: ds, CharClass.isDigit c = true := fun c hc =>
        NumberText.isDigit_of_mem_spanDigits (by rw [hspan]; exact hc)
      rw [Bool.and_eq_true, List.all_eq_true] at h
      rw [hspan] at happ
      refine isLegibleName_of_chars (by simp [← happ]) fun c hc => ?_
      rw [← happ] at hc
      rcases List.mem_append.1 hc with hc | hc
      · simp [isNameChar, hdigits c hc]
      · rcases List.mem_cons.1 hc with rfl | hc
        · decide
        · simp [isNameChar, h.2 c hc]
    · cases h
  · exact isLegibleName_of_literal h
  · exact isLegibleName_of_chars (by simp) (by decide)

theorem key_chars {key : String} (h : isPrintableKey key = true) :
    ∀ c ∈ key.toList, c ∉ keyBreakers := by
  intro c hc
  rw [isPrintableKey, List.all_eq_true] at h
  simpa using h c hc

/-- A printable key is quotable. -/
theorem isQuotableKey_of_printable {key : String} (h : isPrintableKey key = true) :
    isQuotableKey key = true := by
  have hchars := key_chars h
  have hsub : ∀ d ∈ ['"', '\\', '\n'], d ∈ keyBreakers := by decide
  refine isQuotableKey_iff.2 ⟨fun hm => hchars _ hm (by decide),
    fun hm => hchars _ hm (by decide), ?_⟩
  exact Glyph.literal?_quoted (fun c hc hm => hchars c hc (hsub c hm)) []

theorem Printable.legible (h : n.Printable) : n.Legible := by
  refine ⟨h.1, fun k hk => ?_⟩
  have htexts := h.2 k hk
  cases k with
  | leaf name => exact isLegibleName_of_printable htexts
  | _ =>
    rw [hasPrintableTexts, Bool.and_eq_true, List.all_eq_true] at htexts
    · rw [hasLegibleTexts, Bool.and_eq_true, List.all_eq_true]
      · exact ⟨fun key hkey => isQuotableKey_of_printable (htexts.1 key hkey), htexts.2⟩
      · exact fun _ he => by cases he
    · exact fun _ he => by cases he

/-- The keys of a printable node hold no marks. -/
theorem Printable.unmarked (h : n.Printable) : n.Unmarked := by
  intro k hk
  have htexts := h.2 k hk
  cases k with
  | shape exact ps ix =>
    rw [hasPrintableTexts, Bool.and_eq_true, List.all_eq_true] at htexts
    · rw [hasUnmarkedKeys, List.all_eq_true]
      intro p hp
      have hkey := key_chars (htexts.1 _ (List.mem_map_of_mem hp))
      rw [Bool.or_eq_true, bne_iff_ne]
      right
      intro hlast
      exact hkey _ (List.mem_of_getLast? hlast) (by decide)
    · exact fun _ he => by cases he
  | _ => rfl

/-- Printing a type and reading the annotation gives the type again. -/
theorem parse_format (n : Node) (h : n.Printable) :
    ∃ text, n.format = .ok text ∧ parse? text = .ok n :=
  parse_format_of_legible h.legible h.unmarked

/-- The type that is printed as
`{| "a b"?: (x | '|')[], "": 1.5 & (y | z), [k]: [Array<*>, {}] |}`. -/
def sampleNode : Node :=
  .shape true
    [.mk "a b" (.array (.union [.leaf "x", .leaf "'|'"])) true,
      .mk "" (.intersection [.leaf "1.5", .union [.leaf "y", .leaf "z"]]) false]
    (some (.mk (.leaf "k") (.tuple [.array (.leaf "*"), .shape false [] none])))

theorem parse_format_sampleNode : sampleNode.Printable ∧
    ∃ text, sampleNode.format = .ok text ∧ parse? text = .ok sampleNode := by
  have hprintable : sampleNode.Printable := by
    simp [Printable, Regular, sampleNode, walk, walkAll, walkProperties, walkProperty, walkIndexer]
    decide
  exact ⟨hprintable, parse_format sampleNode hprintable⟩

end StructuralTypes.Node

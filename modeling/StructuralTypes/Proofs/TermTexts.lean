import Mathlib.Data.List.Forall2
import StructuralTypes.Proofs.Marking
import StructuralTypes.Proofs.TermTokens

/-! Texts that are read as terms. A text spells the tokens of its pieces, and it writes a
node on some level of the grammar if these are the tokens of a legal term of that level for
the node. -/

namespace StructuralTypes

open Grammar

/-! ### Texts with their tokens -/

/-- A text in pieces from one place to another, with the tokens that they stand for. -/
def Spells (s t : Side) (text : List Char) (tokens : List Token) : Prop :=
  ∃ ps, Fits s ps t ∧ printedText ps = text ∧ ps.flatMap Piece.tokens = tokens

variable {s t u : Side} {text more : List Char} {ts us : List Token}

theorem spells_nil : Spells s s [] [] :=
  ⟨[], rfl, rfl, rfl⟩

theorem Spells.append (h : Spells s t text ts) (h' : Spells t u more us) :
    Spells s u (text ++ more) (ts ++ us) := by
  obtain ⟨ps, hf, rfl, rfl⟩ := h
  obtain ⟨qs, hf', rfl, rfl⟩ := h'
  refine ⟨ps ++ qs, hf.append hf', ?_, List.flatMap_append⟩
  rw [printedText, List.flatMap_append, textOf_append]
  rfl

theorem spells_piece {p : Piece} (hp : p.Valid) :
    Spells p.before p.after (Glyph.textOf (Style.printed.spell p)) p.tokens :=
  ⟨[p], ⟨hp, rfl, rfl⟩, by simp [printedText], by simp⟩

theorem spells_sign (sign : Sign) : Spells sign.before sign.after sign.printed sign.tokens := by
  have h := @spells_piece (.sign sign) trivial
  rwa [Style.spell, textOf_map_char] at h

theorem spells_name {name : String} (h : Node.isLegibleName name = true) :
    Spells .wanted .ended name.toList [word name] := by
  have hp := @spells_piece (.name name) h
  rwa [Style.spell, textOf_nameGlyphs] at hp

theorem spells_key {key : String} (h : Node.isQuotableKey key = true) (optional : Bool) :
    Spells .wanted .wanted (Node.formatKey key ++ (if optional then "?" else "") ++ ": ").toList
      [keyWord key optional, ⟨.colon, ":"⟩] := by
  have hp : Spells .wanted .wanted _ [keyWord key optional, ⟨.colon, ":"⟩] :=
    @spells_piece (.key key optional) h
  have hkey : Glyph.textOf (keyGlyphs key) = (Node.formatKey key).toList := by
    unfold keyGlyphs Node.formatKey
    split
    · rw [textOf_map_char]
    · simp [Glyph.textOf, Glyph.chars, quotedKey]
  rw [Style.spell, Style.printed, textOf_append, textOf_map_char, hkey] at hp
  cases optional <;> simpa using hp

theorem spells_indexer {name : String} (h : (Piece.indexer name).Valid) :
    Spells .wanted .wanted ("[" ++ name ++ "]: ").toList [word name, ⟨.colon, ":"⟩] := by
  have hp := @spells_piece (.indexer name) h
  have htext : Glyph.textOf (Style.printed.indexer name) = ("[" ++ name ++ "]: ").toList := by
    show '[' :: Glyph.textOf (nameGlyphs name ++ [']', ':', ' '].map Glyph.char) = _
    rw [textOf_append, textOf_nameGlyphs, textOf_map_char]
    simp
  rwa [Style.spell, htext] at hp

/-- Brackets around a type. -/
theorem Spells.group (h : Spells .wanted .ended text ts) :
    Spells .wanted .ended ('(' :: (text ++ [')'])) (openGroup :: (ts ++ [closeGroup])) :=
  (spells_sign .openGroup).append (h.append (spells_sign .closeGroup))

/-- Punctuation between types, with its text and its token. -/
structure Between (sign : Sign) (text : String) (token : Token) : Prop where
  before : sign.before = .ended
  after : sign.after = .wanted
  printed : sign.printed = text.toList
  tokens : sign.tokens = [token]

theorem between_union : Between .union " | " ⟨.union, "|"⟩ := ⟨rfl, rfl, rfl, rfl⟩

theorem between_intersection : Between .intersection " & " ⟨.intersection, "&"⟩ :=
  ⟨rfl, rfl, rfl, rfl⟩

theorem between_comma : Between .comma ", " ⟨.comma, ","⟩ := ⟨rfl, rfl, rfl, rfl⟩

/-- Types that follow one another behind separators. -/
theorem spells_tokensAfter {sign : Sign} {between : String} {separator : Token}
    (hb : Between sign between separator) {texts : List String} {tokens : List (List Token)}
    (h : List.Forall₂ (fun text ts => Spells .wanted .ended text.toList ts) texts tokens) :
    Spells .ended .ended (texts.flatMap fun text => between.toList ++ text.toList)
      (tokensAfter separator tokens) := by
  have hsign := spells_sign sign
  rw [hb.before, hb.after, hb.printed, hb.tokens] at hsign
  induction h with
  | nil => exact spells_nil
  | cons hfirst _ ih => simpa [tokensAfter] using (hsign.append hfirst).append ih

theorem toList_intercalate_cons (between first : String) (rest : List String) :
    (between.intercalate (first :: rest)).toList
      = first.toList ++ rest.flatMap fun text => between.toList ++ text.toList := by
  induction rest generalizing first with
  | nil => simp
  | cons second rest ih => rw [String.intercalate_cons_cons, String.toList_append, ih]; simp

/-! ### Levels of the grammar -/

/-- A level of the grammar: what its terms stand for, which of them are legal, and their
tokens. -/
structure Grade (T N : Type) where
  node : T → N
  Legal : T → Prop
  tokens : T → List Token

namespace Grade

variable {T N : Type} {G : Grade T N}

def unions : Grade UnionTerm Node := ⟨UnionTerm.node, UnionTerm.Legal, UnionTerm.tokens⟩

def joints : Grade JointTerm Node := ⟨JointTerm.node, JointTerm.Legal, JointTerm.tokens⟩

def optionals : Grade OptionalTerm Node :=
  ⟨OptionalTerm.node, OptionalTerm.Legal, OptionalTerm.tokens⟩

def suffixed : Grade SuffixedTerm Node :=
  ⟨SuffixedTerm.node, SuffixedTerm.Legal, SuffixedTerm.tokens⟩

def atoms : Grade AtomTerm Node := ⟨AtomTerm.node, AtomTerm.Legal, AtomTerm.tokens⟩

/-- A text that is read as a legal term for a node. -/
def Writes (G : Grade T N) (n : N) (text : String) : Prop :=
  ∃ term, G.node term = n ∧ G.Legal term ∧ Spells .wanted .ended text.toList (G.tokens term)

/-- Texts that are read one by one are read as a list of legal terms. -/
theorem exists_terms {ns : List N} {texts : List String} (h : List.Forall₂ G.Writes ns texts) :
    ∃ terms : List T, terms.map G.node = ns ∧ (∀ term ∈ terms, G.Legal term) ∧
      List.Forall₂ (fun text ts => Spells .wanted .ended text.toList ts) texts
        (terms.map G.tokens) := by
  induction h with
  | nil => exact ⟨[], rfl, by simp, .nil⟩
  | cons hfirst _ ih =>
    obtain ⟨term, rfl, hl, hs⟩ := hfirst
    obtain ⟨terms, rfl, hls, hss⟩ := ih
    exact ⟨term :: terms, rfl, List.forall_mem_cons.2 ⟨hl, hls⟩, .cons hs hss⟩

variable {n : Node} {text : String}

theorem suffixed_of_atoms (h : atoms.Writes n text) : suffixed.Writes n text := by
  obtain ⟨atom, rfl, hl, hs⟩ := h
  refine ⟨.mk atom 0, rfl, ⟨hl, .inl rfl⟩, ?_⟩
  have htokens : suffixed.tokens (.mk atom 0) = atoms.tokens atom := List.append_nil _
  rwa [htokens]

theorem optionals_of_suffixed (h : suffixed.Writes n text) : optionals.Writes n text := by
  obtain ⟨term, rfl, hl, hs⟩ := h
  exact ⟨.plain term, rfl, hl, hs⟩

theorem joints_of_suffixed (h : suffixed.Writes n text) : joints.Writes n text := by
  obtain ⟨term, rfl, hl, hs⟩ := optionals_of_suffixed h
  refine ⟨.mk term [], rfl, ⟨hl, trivial⟩, ?_⟩
  have htokens : joints.tokens (.mk term []) = optionals.tokens term := List.append_nil _
  rwa [htokens]

theorem unions_of_joints (h : joints.Writes n text) : unions.Writes n text := by
  obtain ⟨term, rfl, hl, hs⟩ := h
  refine ⟨.mk term [], rfl, ⟨hl, trivial⟩, ?_⟩
  have htokens : unions.tokens (.mk term []) = joints.tokens term := List.append_nil _
  rwa [htokens]

/-- Brackets put any type on the level of atoms. -/
theorem atoms_group (h : unions.Writes n text) : atoms.Writes n ("(" ++ text ++ ")") := by
  obtain ⟨term, rfl, hl, hs⟩ := h
  refine ⟨.brackets term, rfl, hl, ?_⟩
  rw [String.toList_append, String.toList_append]
  exact hs.group

/-! ### Lists of terms -/

theorem jointTokens_eq_map (js : List JointTerm) : jointTokens js = js.map JointTerm.tokens := by
  induction js with
  | nil => rfl
  | cons j rest ih => rw [jointTokens, ih, List.map_cons]

theorem optionalTokens_eq_map (os : List OptionalTerm) :
    optionalTokens os = os.map OptionalTerm.tokens := by
  induction os with
  | nil => rfl
  | cons o rest ih => rw [optionalTokens, ih, List.map_cons]

theorem unionTokens_eq_map (us : List UnionTerm) : unionTokens us = us.map UnionTerm.tokens := by
  induction us with
  | nil => rfl
  | cons u rest ih => rw [unionTokens, ih, List.map_cons]

theorem fieldTokens_eq_map (fields : List FieldTerm) :
    fieldTokens fields = fields.map FieldTerm.tokens := by
  induction fields with
  | nil => rfl
  | cons f rest ih => rw [fieldTokens, ih, List.map_cons]

variable {members : List Node} {texts : List String}

/-- One text or more, read one by one and printed with a separator, are read as a chain. -/
theorem exists_chain {ns : List N} (h : List.Forall₂ G.Writes ns texts) (hne : ns ≠ [])
    {sign : Sign} {between : String} {separator : Token} (hb : Between sign between separator) :
    ∃ first rest, (first :: rest).map G.node = ns ∧ (∀ term ∈ first :: rest, G.Legal term)
      ∧ Spells .wanted .ended (between.intercalate texts).toList
        (G.tokens first ++ tokensAfter separator (rest.map G.tokens)) := by
  obtain ⟨terms, rfl, hl, hs⟩ := exists_terms h
  match terms, texts, hs with
  | [], _, _ => exact absurd rfl hne
  | first :: rest, _, .cons hfirst hrest =>
    refine ⟨first, rest, rfl, hl, ?_⟩
    rw [toList_intercalate_cons]
    exact hfirst.append (spells_tokensAfter hb hrest)

/-- Several members are joined in one union. -/
theorem unions_intercalate (h : List.Forall₂ joints.Writes members texts)
    (hlen : 2 ≤ members.length) : unions.Writes (.union members) (" | ".intercalate texts) := by
  have hne : members ≠ [] := by
    rintro rfl
    simp at hlen
  obtain ⟨first, rest, rfl, hl, hs⟩ := exists_chain h hne between_union
  rw [List.forall_mem_cons] at hl
  refine ⟨.mk first rest, ?_, ⟨hl.1, jointsLegal_iff.2 hl.2⟩, ?_⟩
  · show joined .union (first.node :: jointNodes rest) = _
    rw [jointNodes_eq_map]
    cases rest with
    | nil => simp at hlen
    | cons second rest => rfl
  · show Spells .wanted .ended _ (first.tokens ++ tokensAfter _ (jointTokens rest))
    rw [jointTokens_eq_map]
    exact hs

theorem joints_intercalate (h : List.Forall₂ optionals.Writes members texts)
    (hlen : 2 ≤ members.length) :
    joints.Writes (.intersection members) (" & ".intercalate texts) := by
  have hne : members ≠ [] := by
    rintro rfl
    simp at hlen
  obtain ⟨first, rest, rfl, hl, hs⟩ := exists_chain h hne between_intersection
  rw [List.forall_mem_cons] at hl
  refine ⟨.mk first rest, ?_, ⟨hl.1, optionalsLegal_iff.2 hl.2⟩, ?_⟩
  · show joined .intersection (first.node :: optionalNodes rest) = _
    rw [optionalNodes_eq_map]
    cases rest with
    | nil => simp at hlen
    | cons second rest => rfl
  · show Spells .wanted .ended _ (first.tokens ++ tokensAfter _ (optionalTokens rest))
    rw [optionalTokens_eq_map]
    exact hs

theorem atoms_tuple (h : List.Forall₂ unions.Writes members texts) (hne : members ≠ []) :
    atoms.Writes (.tuple members) ("[" ++ ", ".intercalate texts ++ "]") := by
  obtain ⟨first, rest, rfl, hl, hs⟩ := exists_chain h hne between_comma
  rw [List.forall_mem_cons] at hl
  refine ⟨.tuple first rest, ?_, ⟨hl.1, unionsLegal_iff.2 hl.2⟩, ?_⟩
  · show Node.tuple (first.node :: unionNodes rest) = _
    rw [unionNodes_eq_map]
    rfl
  · have htuple := (spells_sign .openTuple).append (hs.append (spells_sign .closeTuple))
    show Spells .wanted .ended _ (_ :: openGroup
      :: (first.tokens ++ tokensAfter _ (unionTokens rest) ++ [closeGroup]))
    rw [String.toList_append, String.toList_append, unionTokens_eq_map]
    exact htuple

/-! ### Shapes -/

/-- What a field declares: a property or an indexer. -/
def entry : FieldTerm → Property ⊕ Indexer
  | .property key optional type => .inl (.mk key type.node optional)
  | .indexer name type => .inr (.mk (.leaf name) type.node)

def fields : Grade FieldTerm (Property ⊕ Indexer) := ⟨entry, FieldTerm.Legal, FieldTerm.tokens⟩

theorem properties_eq (fs : List FieldTerm) :
    properties fs = (fs.map entry).filterMap Sum.getLeft? := by
  induction fs with
  | nil => rfl
  | cons f rest ih =>
    cases f with
    | property key optional type => exact congrArg (_ :: ·) ih
    | indexer name type => exact ih

theorem indexer?_eq (fs : List FieldTerm) :
    indexer? fs = (fs.map entry).findSome? Sum.getRight? := by
  induction fs with
  | nil => rfl
  | cons f rest ih =>
    cases f with
    | property key optional type => exact ih
    | indexer name type => rfl

theorem filterMap_key? (fs : List FieldTerm) :
    fs.filterMap FieldTerm.key? = (properties fs).map Property.key := by
  induction fs with
  | nil => rfl
  | cons f rest ih =>
    cases f with
    | property key optional type => exact congrArg (_ :: ·) ih
    | indexer name type => exact ih

/-- The entries of a shape, in the order in which they are printed. -/
def entriesOf (properties : List Property) (indexer : Option Indexer) :
    List (Property ⊕ Indexer) :=
  properties.map .inl ++ (indexer.map .inr).toList

variable {ps : List Property} {ix : Option Indexer} {fs : List FieldTerm}

theorem shape_of_entries (h : fs.map entry = entriesOf ps ix) :
    properties fs = ps ∧ indexer? fs = ix := by
  rw [properties_eq, indexer?_eq, h, entriesOf]
  constructor
  · cases ix <;> simp [List.filterMap_map, Function.comp_def]
  · have hnone : (ps.map Sum.inl : List (Property ⊕ Indexer)).findSome? Sum.getRight? = none := by
      simp [List.findSome?_eq_none_iff]
    rw [List.findSome?_append, hnone]
    cases ix <;> rfl

theorem fitTogether_of_entries (h : fs.map entry = entriesOf ps ix)
    (hkeys : (ps.map Property.key).Nodup)
    (hplain : ∀ name type, ix = some (.mk (.leaf name) type) →
      Escapes.quoted? name.toList = none) : fitTogether fs := by
  refine ⟨?_, ?_, fun f hf => ?_⟩
  · rw [filterMap_key?, (shape_of_entries h).1]
    exact hkeys
  · have hcount : fs.countP (·.key?.isNone) = (fs.map entry).countP Sum.isRight := by
      rw [List.countP_map]
      exact List.countP_congr fun f _ => by cases f <;> rfl
    have hprops : (ps.map Sum.inl : List (Property ⊕ Indexer)).countP Sum.isRight = 0 := by
      simp [List.countP_eq_zero]
    rw [hcount, h, entriesOf, List.countP_append, hprops, Nat.zero_add]
    cases ix with
    | none => exact Nat.zero_le _
    | some i => exact List.countP_le_length
  · cases f with
    | property key optional type => rfl
    | indexer name type =>
      have hmem : entry (.indexer name type) ∈ entriesOf ps ix := h ▸ List.mem_map_of_mem hf
      have hix : ix = some (.mk (.leaf name) type.node) := by simpa [entriesOf, entry] using hmem
      rw [FieldTerm.isQuotedIndexer, hplain name _ hix]
      rfl

theorem toList_shapeText (exact : Bool) {entries : List String} (h : entries ≠ []) :
    (Node.shapeText exact entries).toList = (Sign.openShape exact).printed
      ++ ((", ".intercalate entries).toList ++ (Sign.closeShape exact).printed) := by
  have hempty : entries.isEmpty = false := by simpa using h
  unfold Node.shapeText
  rw [hempty]
  cases exact with
  | true =>
    show ("\x7b| " ++ ", ".intercalate entries ++ " |\x7d").toList = _
    rw [String.toList_append, String.toList_append, List.append_assoc]
    rfl
  | false =>
    show ("\x7b " ++ ", ".intercalate entries ++ " \x7d").toList = _
    rw [String.toList_append, String.toList_append, List.append_assoc]
    rfl

/-- The text of a shape is that of its fields in braces. -/
theorem spells_shape (exact : Bool)
    (h : List.Forall₂ fields.Writes (entriesOf ps ix) texts) :
    ∃ fs, fs.map entry = entriesOf ps ix ∧ fieldsLegal fs
      ∧ Spells .wanted .ended (Node.shapeText exact texts).toList
        (AtomTerm.shape exact fs).tokens := by
  have htokens : ∀ fs, (AtomTerm.shape exact fs).tokens
      = (if exact then ⟨.exactShape, "#"⟩ else ⟨.shape, "@"⟩) :: openGroup
        :: (separated ⟨.comma, ","⟩ (fs.map FieldTerm.tokens) ++ [closeGroup]) := by
    intro fs
    rw [← fieldTokens_eq_map]
    rfl
  by_cases hne : entriesOf ps ix = []
  · rw [hne] at h ⊢
    cases h
    refine ⟨[], rfl, trivial, ?_⟩
    have hempty := spells_sign (.emptyShape exact)
    cases exact with
    | true => exact hempty
    | false => exact hempty
  · obtain ⟨first, rest, hfs, hl, hs⟩ := exists_chain h hne between_comma
    refine ⟨first :: rest, hfs, ?_, ?_⟩
    · exact fieldsLegal_iff.2 fun f hf => FieldTerm.legal_iff.1 (hl f hf)
    · have htexts : texts ≠ [] := by
        rintro rfl
        exact hne (List.forall₂_nil_right_iff.1 h)
      rw [toList_shapeText exact htexts, htokens]
      exact (spells_sign (.openShape exact)).append (hs.append (spells_sign (.closeShape exact)))

/-- A shape is read back from its entries. -/
theorem atoms_shape {exact : Bool} (h : List.Forall₂ fields.Writes (entriesOf ps ix) texts)
    (hkeys : (ps.map Property.key).Nodup)
    (hplain : ∀ name type, ix = some (.mk (.leaf name) type) →
      Escapes.quoted? name.toList = none) :
    atoms.Writes (.shape exact ps ix) (Node.shapeText exact texts) := by
  obtain ⟨fs, hfs, hl, hs⟩ := spells_shape exact h
  obtain ⟨hps, hix⟩ := shape_of_entries hfs
  refine ⟨.shape exact fs, ?_, ⟨fitTogether_of_entries hfs hkeys hplain, hl⟩, hs⟩
  show Node.shape exact (properties fs) (indexer? fs) = _
  rw [hps, hix]

/-! ### Arrays -/

/-- The text of the array of existentials, which takes no suffix. -/
theorem suffixed_existentials : suffixed.Writes (.array (.leaf "*")) "Array<*>" := by
  refine suffixed_of_atoms ⟨.array (.mk (.mk (.plain (.mk (.name "*") 0)) []) []), rfl, ?_, ?_⟩
  · exact ⟨⟨⟨trivial, .inl rfl⟩, trivial⟩, trivial⟩
  · exact spells_sign .existentials

theorem suffixed_array {n : Node} {text : String} (h : suffixed.Writes n text)
    (hn : n ≠ .leaf "*") : suffixed.Writes (.array n) (text ++ "[]") := by
  obtain ⟨⟨atom, suffixes⟩, rfl, ⟨hl, hname⟩, hs⟩ := h
  refine ⟨.mk atom (suffixes + 1), ?_, ⟨hl, .inr ?_⟩, ?_⟩
  · show (List.replicate (suffixes + 1) ()).foldl (fun n _ => Node.array n) atom.node = _
    rw [List.replicate_succ', List.foldl_append]
    rfl
  · rintro text rfl rfl
    rcases hname with rfl | hname
    · exact hn rfl
    · exact hname _ rfl rfl
  · have htokens : suffixed.tokens (.mk atom (suffixes + 1))
        = suffixed.tokens (.mk atom suffixes) ++ [⟨.arraySuffix, "$"⟩] := by
      show atom.tokens ++ List.replicate (suffixes + 1) _ = _
      rw [List.replicate_succ', ← List.append_assoc]
      rfl
    rw [htokens, String.toList_append]
    exact hs.append (spells_sign .suffix)

end Grade

end StructuralTypes

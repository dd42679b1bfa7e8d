import StructuralTypes.Proofs.Pieces

/-! Borders between the pieces of a printed annotation. No pass finds anything in a name or
a key, a piece starts and ends in few ways, and so a pass that looks for a short word acts
on each piece by itself. -/

namespace StructuralTypes

open Glyph

/-- What is claimed of the characters of a list is checked for them, not for all there are. -/
instance (priority := high) decidableForallChars (cs : List Char) (P : Char → Prop)
    [DecidablePred P] : Decidable (∀ c ∈ cs, P c) :=
  List.decidableBAll P cs

instance (priority := high) decidableExistsChars (cs : List Char) (P : Char → Prop)
    [DecidablePred P] : Decidable (∃ c ∈ cs, P c) :=
  List.decidableBEx P cs

/-! ### Names and keys -/

/-- The characters that some pass looks for, or that are put in place of what it finds. -/
def specials : List Char :=
  Node.nameBreakers ++ ['/', '<', MarkerForm.optionalMark]

theorem mem_specials {c : Char} (h : c ∈ Node.nameBreakers) : c ∈ specials :=
  List.mem_append_left _ h

theorem not_mem_specials {c : Char} (h : CharClass.isWord c = true) : c ∉ specials := by
  intro hc
  have hall : ∀ d ∈ specials, CharClass.isWord d = false := by decide
  rw [hall c hc] at h
  cases h

/-- No pass finds anything in a name. -/
theorem not_mem_nameGlyphs {text : String} (h : Node.isLegibleName text = true) {c : Char}
    (hc : c ∈ Node.nameBreakers) : char c ∉ nameGlyphs text :=
  (Node.isLegibleName_iff.1 h).2.2.1 c hc

theorem textOf_nameGlyphs (text : String) : textOf (nameGlyphs text) = text.toList :=
  textOf_ofChars _

theorem nameGlyphs_ne_nil {text : String} (h : Node.isLegibleName text = true) :
    nameGlyphs text ≠ [] := by
  intro hnil
  have htext := textOf_nameGlyphs text
  rw [hnil] at htext
  exact (Node.isLegibleName_iff.1 h).1 htext.symm

/-- No comment begins in a name. -/
theorem dropComments_nameGlyphs {text : String} (h : Node.isLegibleName text = true) :
    dropComments false (nameGlyphs text) = nameGlyphs text :=
  (Node.isLegibleName_iff.1 h).2.2.2.1

/-- A literal does not span lines. -/
theorem newline_not_mem_literalBody {quote : Char} {s body after : List Char}
    (h : literalBody? quote s = some (body, after)) : '\n' ∉ body := by
  fun_induction literalBody? quote s generalizing body after with
  | case1 => cases h
  | case2 => cases h
  | case3 => cases h
  | case4 c rest hc ih =>
    obtain ⟨⟨b, r⟩, hb, he⟩ := Option.map_eq_some_iff.1 h
    cases he
    simp [ih hb, Ne.symm hc]
  | case5 => cases h; simp
  | case6 => cases h
  | case7 c rest _ _ hc hn ih =>
    obtain ⟨⟨b, r⟩, hb, he⟩ := Option.map_eq_some_iff.1 h
    cases he
    simp [ih hb, Ne.symm hn]

theorem newline_not_mem_key {key : String} (h : Node.isQuotableKey key = true) :
    '\n' ∉ key.toList := by
  have hl := (Node.isQuotableKey_iff.1 h).2.2
  rw [literal?, if_pos (by decide)] at hl
  obtain ⟨⟨body, after⟩, hb, he⟩ := Option.map_eq_some_iff.1 hl
  obtain ⟨hbody, -⟩ := Prod.mk.inj he
  have hkey : body = key.toList := List.append_cancel_right (List.cons.inj hbody).2
  exact hkey ▸ newline_not_mem_literalBody hb

theorem bareKey_chars {key : String} (h : Node.isQuotableKey key = true)
    (hb : Node.isBareKey key = true) :
    key.toList ≠ [] ∧ ∀ c ∈ key.toList, CharClass.isWord c = true := by
  rw [Node.isBareKey] at hb
  split at hb
  · cases hb
  · rename_i c rest hrev
    have hkey : key.toList = rest.reverse ++ [c] := by
      rw [← List.reverse_reverse key.toList, hrev, List.reverse_cons]
    have hc : c ≠ '\n' := by
      rintro rfl
      exact newline_not_mem_key h (by simp [hkey])
    rw [if_neg hc, Bool.and_eq_true, List.all_eq_true] at hb
    rw [hkey]
    refine ⟨by simp, fun d hd => ?_⟩
    simp only [List.mem_append, List.mem_reverse, List.mem_singleton] at hd
    rcases hd with hd | rfl
    · exact hb.2 d hd
    · exact hb.1

theorem not_mem_keyGlyphs {key : String} (h : Node.isQuotableKey key = true) {c : Char}
    (hc : c ∈ specials) : char c ∉ keyGlyphs key := by
  unfold keyGlyphs
  split
  · rename_i hb
    rw [char_mem_map]
    exact fun hm => not_mem_specials ((bareKey_chars h hb).2 c hm) hc
  · simp

/-! ### Borders -/

namespace Side

/-- Characters that no type starts with. -/
def closers : List Char :=
  ['|', '&', ',', ')', ']', '\x7d', ':', '?', '>', '$']

/-- Characters that may follow a type. -/
def stops : List Char :=
  ['|', '&', ',', ')', ']', '\x7d', '[', '$']

/-- Characters after which a type is wanted. -/
def hungry : List Char :=
  ['|', '&', ',', '(', '[', '\x7b', ':']

/-- Whether a glyph may come next at a place. -/
def admits : Side → Glyph → Bool
  | wanted, g => !(closers.map char).contains g
  | ended, g => (stops.map char).contains g

/-- Whether a glyph may stand right before a place. -/
def follows : Side → Glyph → Bool
  | wanted, g => (hungry.map char).contains g
  | ended, g => !(hungry.map char).contains g

variable {g : Glyph}

theorem admits_wanted : wanted.admits g = true ↔ g ∉ closers.map char := by
  simp [admits]

theorem admits_ended : ended.admits g = true ↔ g ∈ stops.map char := by
  simp [admits]

theorem follows_wanted : wanted.follows g = true ↔ g ∈ hungry.map char := by
  simp [follows]

theorem follows_ended : ended.follows g = true ↔ g ∉ hungry.map char := by
  simp [follows]

end Side

/-- Glyphs that start and end as a piece between two places does. -/
def Bridges (s t : Side) (glyphs : List Glyph) : Prop :=
  glyphs.head?.any s.admits = true ∧ glyphs.getLast?.any t.follows = true

instance (s t : Side) (glyphs : List Glyph) : Decidable (Bridges s t glyphs) :=
  inferInstanceAs (Decidable (_ ∧ _))

/-- A style in which every piece starts and ends like its kind. -/
structure Style.Bordered (σ : Style) : Prop where
  sign : ∀ s : Sign, Bridges s.before s.after ((σ.sign s).map char)
  key : ∀ k optional, Node.isQuotableKey k = true → Bridges .wanted .wanted (σ.key k optional)
  indexer : ∀ name, (Piece.indexer name).Valid → Bridges .wanted .wanted (σ.indexer name)

variable {σ τ : Style} {s t : Side} {ps : List Piece}

theorem admits_of_plain {g : Glyph} (h : ∀ c ∈ Node.nameBreakers, g ≠ char c) :
    Side.wanted.admits g = true := by
  have hsub : ∀ c ∈ Side.closers, c ∈ Node.nameBreakers := by decide
  rw [Side.admits_wanted, List.mem_map]
  rintro ⟨c, hc, rfl⟩
  exact h c (hsub c hc) rfl

theorem follows_of_plain {g : Glyph} (h : ∀ c ∈ Node.nameBreakers, g ≠ char c) :
    Side.ended.follows g = true := by
  have hsub : ∀ c ∈ Side.hungry, c ∈ Node.nameBreakers := by decide
  rw [Side.follows_ended, List.mem_map]
  rintro ⟨c, hc, rfl⟩
  exact h c (hsub c hc) rfl

theorem exists_of_admits_ended {g : Glyph} (hg : Side.ended.admits g = true) :
    ∃ c ∈ Side.stops, g = char c := by
  obtain ⟨c, hc, rfl⟩ := List.mem_map.1 (Side.admits_ended.1 hg)
  exact ⟨c, hc, rfl⟩

theorem bridges_name {text : String} (h : Node.isLegibleName text = true) :
    Bridges .wanted .ended (nameGlyphs text) := by
  have hplain : ∀ g ∈ nameGlyphs text, ∀ c ∈ Node.nameBreakers, g ≠ char c := by
    rintro g hg c hc rfl
    exact not_mem_nameGlyphs h hc hg
  have hne := nameGlyphs_ne_nil h
  constructor
  · rw [List.head?_eq_some_head hne]
    exact admits_of_plain (hplain _ (List.head_mem hne))
  · rw [List.getLast?_eq_some_getLast hne]
    exact follows_of_plain (hplain _ (List.getLast_mem hne))

theorem Style.Bordered.bridges (h : σ.Bordered) {p : Piece} (hp : p.Valid) :
    Bridges p.before p.after (σ.spell p) := by
  cases p with
  | sign s => exact h.sign s
  | name text => exact bridges_name hp
  | key k optional => exact h.key k optional hp
  | indexer name => exact h.indexer name hp

/-- What comes next at a place is admitted there. -/
theorem Fits.admits (hb : σ.Bordered) (h : Fits s ps t) :
    ∀ g ∈ (ps.flatMap σ.spell).head?, s.admits g = true := by
  cases ps with
  | nil => simp
  | cons p rest =>
    obtain ⟨hp, rfl, -⟩ := h
    intro g hg
    obtain ⟨k, hk, ha⟩ := (Option.any_eq_true _ _).1 (hb.bridges hp).1
    rw [List.flatMap_cons, List.head?_append, hk] at hg
    obtain rfl : k = g := Option.some.inj hg
    exact ha

/-! ### Passes -/

/-- A pass that treats each piece by itself, whatever fits behind it. -/
theorem pass_pieces {γ : Type} {f : List Glyph → List γ} {form : Piece → List Glyph}
    {out : Piece → List γ} (hnil : f [] = [])
    (hstep : ∀ p rest u, p.Valid → Fits p.after rest u →
      f (form p ++ rest.flatMap form) = out p ++ f (rest.flatMap form))
    (h : Fits s ps t) : f (ps.flatMap form) = ps.flatMap out := by
  induction ps generalizing s with
  | nil => exact hnil
  | cons p rest ih =>
    rw [List.flatMap_cons, List.flatMap_cons, hstep p rest t h.1 h.2.2, ih h.2.2]

/-- A word that never lies across the border of two pieces. -/
def Separates (word : List Char) : Prop :=
  ((∀ c ∈ Side.hungry, c ∉ word.dropLast) ∨ ∀ c ∈ word.tail, c ∈ Side.closers)
    ∧ ((∀ c ∈ word.dropLast, c ∈ Side.hungry) ∨ ∀ c ∈ Side.stops, c ∉ word.tail)

instance (word : List Char) : Decidable (Separates word) :=
  inferInstanceAs (Decidable (_ ∧ _))

theorem Separates.border {word : List Char} (h : Separates word) {x y : Glyph}
    (hx : s.follows x = true) (hy : s.admits y = true) :
    x ∉ word.dropLast.map char ∨ y ∉ word.tail.map char := by
  cases s with
  | wanted =>
    obtain ⟨c, hc, rfl⟩ := List.mem_map.1 (Side.follows_wanted.1 hx)
    rw [Side.admits_wanted] at hy
    rcases h.1 with hfree | hclose
    · left
      rw [char_mem_map]
      exact hfree c hc
    · right
      intro hm
      obtain ⟨d, hd, rfl⟩ := List.mem_map.1 hm
      exact hy (List.mem_map_of_mem (hclose d hd))
  | ended =>
    obtain ⟨c, hc, rfl⟩ := List.mem_map.1 (Side.admits_ended.1 hy)
    rw [Side.follows_ended] at hx
    rcases h.2 with hhungry | hfree
    · left
      intro hm
      obtain ⟨d, hd, rfl⟩ := List.mem_map.1 hm
      exact hx (List.mem_map_of_mem (hhungry d hd))
    · right
      rw [char_mem_map]
      exact hfree c hc

theorem replaceWord_pieces (hb : σ.Bordered) {word replacement : List Char}
    (hw : Separates word)
    (hτ : ∀ p : Piece, p.Valid → replaceWord word replacement (σ.spell p) = τ.spell p)
    (h : Fits s ps t) :
    replaceWord word replacement (ps.flatMap σ.spell) = ps.flatMap τ.spell := by
  refine pass_pieces rfl (fun p rest u hp hrest => ?_) h
  rw [replaceWord_append, hτ p hp]
  intro x hx y hy
  obtain ⟨z, hz, hf⟩ := (Option.any_eq_true _ _).1 (hb.bridges hp).2
  obtain rfl : z = x := Option.some.inj (hz.symm.trans hx)
  exact hw.border hf (hrest.admits hb y hy)

/-! ### Styles with borders -/

theorem keyGlyphs_ne_nil {key : String} (h : Node.isQuotableKey key = true) :
    keyGlyphs key ≠ [] := by
  unfold keyGlyphs
  split
  · rename_i hb
    simpa using (bareKey_chars h hb).1
  · simp

/-- A text that begins with glyphs that no pass looks for and ends in a colon. -/
theorem bridges_colon {xs ys : List Glyph} (hne : xs ≠ [])
    (h : ∀ c ∈ Node.nameBreakers, char c ∉ xs) :
    Bridges .wanted .wanted (xs ++ (ys ++ [char ':'])) := by
  constructor
  · rw [List.head?_append, List.head?_eq_some_head hne]
    refine admits_of_plain fun c hc he => h c hc ?_
    rw [← he]
    exact List.head_mem hne
  · rw [← List.append_assoc, List.getLast?_concat]
    decide

theorem bridges_squeezed_key (k : String) (optional : Bool) (h : Node.isQuotableKey k = true) :
    Bridges .wanted .wanted (Style.squeezed.key k optional) := by
  have hkey := @bridges_colon (keyGlyphs k) ((if optional then ['?'] else []).map char)
    (keyGlyphs_ne_nil h) fun c hc => not_mem_keyGlyphs h (mem_specials hc)
  simpa [Style.squeezed] using hkey

theorem bridges_masked_key (k : String) (optional : Bool) (h : Node.isQuotableKey k = true) :
    Bridges .wanted .wanted (Style.masked.key k optional) := by
  have hkey := @bridges_colon (keyGlyphs k)
    ((if optional then [MarkerForm.optionalMark] else []).map char)
    (keyGlyphs_ne_nil h) fun c hc => not_mem_keyGlyphs h (mem_specials hc)
  simpa [Style.masked] using hkey

theorem bridges_taken_key (k : String) (optional : Bool) (h : Node.isQuotableKey k = true) :
    Bridges .wanted .wanted (Style.taken.key k optional) := by
  unfold Style.taken
  dsimp only
  split
  · exact bridges_masked_key k optional h
  · exact ⟨rfl, rfl⟩

theorem bridges_quoted_key (k : String) (optional : Bool) (_ : Node.isQuotableKey k = true) :
    Bridges .wanted .wanted (Style.quoted.key k optional) := by
  unfold Style.quoted quotedRun
  dsimp only
  split
  · refine ⟨rfl, ?_⟩
    rw [List.getLast?_concat]
    rfl
  · exact ⟨rfl, rfl⟩

theorem bridges_squeezed_indexer (name : String) (_ : (Piece.indexer name).Valid) :
    Bridges .wanted .wanted (Style.squeezed.indexer name) := by
  have hlast : Style.squeezed.indexer name
      = (char '[' :: (nameGlyphs name ++ [char ']'])) ++ [char ':'] := by
    simp [Style.squeezed]
  refine ⟨rfl, ?_⟩
  rw [hlast, List.getLast?_concat]
  rfl

theorem bridges_unwrapped_indexer (name : String) (h : (Piece.indexer name).Valid) :
    Bridges .wanted .wanted (Style.unwrapped.indexer name) :=
  @bridges_colon _ [] (nameGlyphs_ne_nil h.1) fun _ hc => not_mem_nameGlyphs h.1 hc

theorem bordered_squeezed : Style.squeezed.Bordered where
  sign := Sign.forall_of_all (by decide)
  key := bridges_squeezed_key
  indexer := bridges_squeezed_indexer

theorem bordered_masked : Style.masked.Bordered where
  sign := bordered_squeezed.sign
  key := bridges_masked_key
  indexer := bridges_squeezed_indexer

theorem bordered_taken : Style.taken.Bordered where
  sign := bordered_squeezed.sign
  key := bridges_taken_key
  indexer := bridges_squeezed_indexer

theorem bordered_quoted : Style.quoted.Bordered where
  sign := bordered_squeezed.sign
  key := bridges_quoted_key
  indexer := bridges_squeezed_indexer

theorem bordered_opened : Style.opened.Bordered where
  sign := Sign.forall_of_all (by decide)
  key := bridges_quoted_key
  indexer := bridges_squeezed_indexer

theorem bordered_shaped : Style.shaped.Bordered where
  sign := Sign.forall_of_all (by decide)
  key := bridges_quoted_key
  indexer := bridges_squeezed_indexer

theorem bordered_unwrapped : Style.unwrapped.Bordered where
  sign := bordered_shaped.sign
  key := bridges_quoted_key
  indexer := bridges_unwrapped_indexer

theorem bordered_suffixed : Style.suffixed.Bordered where
  sign := Sign.forall_of_all (by decide)
  key := bridges_quoted_key
  indexer := bridges_unwrapped_indexer

end StructuralTypes

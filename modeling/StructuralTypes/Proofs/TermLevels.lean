import StructuralTypes.Grammar
import StructuralTypes.Proofs.Passes
import StructuralTypes.Proofs.Walk

/-! The passes over a level read the surface grammar with its precedence. A term stands in
a level as a stretch of items, in a form of its own before and after each pass; the forms
follow each other under the passes, and the last one is the single item of the term. -/

namespace StructuralTypes.Grammar

open Item Reading

/-! ### Terms as items -/

/-- An item that is a type, or only holds one. -/
def IsType (n : Node) (i : Item) : Prop :=
  i = .node n ∨ i = .group [.node n]

theorem IsType.asType_eq {n : Node} {i : Item} (h : IsType n i) : i.asType = .ok n := by
  rcases h with rfl | rfl <;> rfl

theorem IsType.isNoOperand_eq {n : Node} {i : Item} (h : IsType n i) : i.isNoOperand = false := by
  rcases h with rfl | rfl <;> rfl

theorem IsType.isToken_eq {n : Node} {i : Item} (h : IsType n i) : i.isToken = false := by
  rcases h with rfl | rfl <;> rfl

theorem IsType.isKind_eq {n : Node} {i : Item} (h : IsType n i) (kind : TokenKind) :
    i.isKind kind = false := by
  rcases h with rfl | rfl <;> rfl

/-- The item of an atom once its marker is resolved. -/
def AtomTerm.item : AtomTerm → Item
  | .brackets term => .group [.node term.node]
  | atom => .node atom.node

def SuffixedTerm.item : SuffixedTerm → Item
  | .mk atom 0 => atom.item
  | term => .node term.node

def OptionalTerm.item : OptionalTerm → Item
  | .plain term => term.item
  | term => .node term.node

def JointTerm.item : JointTerm → Item
  | .mk first [] => first.item
  | term => .node term.node

def UnionTerm.item : UnionTerm → Item
  | .mk first [] => first.item
  | term => .node term.node

theorem AtomTerm.isType_item (a : AtomTerm) : IsType a.node a.item := by
  cases a with
  | brackets term => exact .inr (by simp only [item, node])
  | _ => exact .inl rfl

theorem SuffixedTerm.isType_item (s : SuffixedTerm) : IsType s.node s.item := by
  rcases s with ⟨atom, _ | suffixes⟩
  · exact atom.isType_item
  · exact .inl rfl

theorem OptionalTerm.isType_item (o : OptionalTerm) : IsType o.node o.item := by
  cases o with
  | plain term => simpa only [node, item] using term.isType_item
  | marked term => exact .inl rfl

theorem JointTerm.isType_item (j : JointTerm) : IsType j.node j.item := by
  rcases j with ⟨first, _ | ⟨second, rest⟩⟩
  · simpa only [node, optionalNodes, joined, item] using first.isType_item
  · exact .inl rfl

theorem UnionTerm.isType_item (u : UnionTerm) : IsType u.node u.item := by
  rcases u with ⟨first, _ | ⟨second, rest⟩⟩
  · simpa only [node, jointNodes, joined, item] using first.isType_item
  · exact .inl rfl

/-! ### Terms in a level -/

def separator (kind : TokenKind) (text : String) : Item := .token ⟨kind, text⟩

/-- The terms that an operator joins. -/
def UnionTerm.operands : UnionTerm → List JointTerm
  | .mk first rest => first :: rest

def JointTerm.operands : JointTerm → List OptionalTerm
  | .mk first rest => first :: rest

/-- The items of a term, given those of its operands. -/
def UnionTerm.spread (f : JointTerm → List Item) : UnionTerm → List Item
  | .mk first rest => f first ++ rest.flatMap fun j => separator .union "|" :: f j

def JointTerm.spread (f : OptionalTerm → List Item) : JointTerm → List Item
  | .mk first rest => f first ++ rest.flatMap fun o => separator .intersection "&" :: f o

def OptionalTerm.spread (f : SuffixedTerm → List Item) : OptionalTerm → List Item
  | .plain term => f term
  | .marked term => separator .optional "?" :: f term

def SuffixedTerm.spread (f : AtomTerm → List Item) : SuffixedTerm → List Item
  | .mk atom suffixes => f atom ++ List.replicate suffixes (separator .arraySuffix "$")

section Spread

variable {p : Pass}

theorem UnionTerm.carries_spread (hs : p.Carries [separator .union "|"] [separator .union "|"])
    {f g : JointTerm → List Item} {u : UnionTerm} (h : ∀ j ∈ u.operands, p.Carries (f j) (g j)) :
    p.Carries (u.spread f) (u.spread g) := by
  obtain ⟨first, rest⟩ := u
  rw [operands, List.forall_mem_cons] at h
  exact h.1.append (Pass.Carries.flatMap fun j hj => hs.append (h.2 j hj))

theorem JointTerm.carries_spread
    (hs : p.Carries [separator .intersection "&"] [separator .intersection "&"])
    {f g : OptionalTerm → List Item} {j : JointTerm} (h : ∀ o ∈ j.operands, p.Carries (f o) (g o)) :
    p.Carries (j.spread f) (j.spread g) := by
  obtain ⟨first, rest⟩ := j
  rw [operands, List.forall_mem_cons] at h
  exact h.1.append (Pass.Carries.flatMap fun o ho => hs.append (h.2 o ho))

theorem OptionalTerm.carries_spread
    (hs : p.Carries [separator .optional "?"] [separator .optional "?"])
    {f g : SuffixedTerm → List Item} {o : OptionalTerm}
    (h : ∀ s, o = .plain s ∨ o = .marked s → p.Carries (f s) (g s)) :
    p.Carries (o.spread f) (o.spread g) := by
  cases o with
  | plain term => exact h term (.inl rfl)
  | marked term => exact hs.append (h term (.inr rfl))

theorem SuffixedTerm.carries_spread
    (hs : p.Carries [separator .arraySuffix "$"] [separator .arraySuffix "$"])
    {f g : AtomTerm → List Item} (h : ∀ a, p.Carries (f a) (g a)) (s : SuffixedTerm) :
    p.Carries (s.spread f) (s.spread g) := by
  obtain ⟨atom, suffixes⟩ := s
  refine (h atom).append ?_
  induction suffixes with
  | zero => exact Pass.carries_nil
  | succ suffixes ih => exact hs.append ih

end Spread

/-! ### Atoms -/

/-- What a level of terms with commas between them becomes. -/
def elementsItem (first : UnionTerm) : List UnionTerm → Item
  | [] => .group [.node first.node]
  | rest => .group (first.item :: rest.map UnionTerm.item)

/-- What the inside of a shape becomes. -/
def fieldsItem : List FieldTerm → Item
  | [] => .group []
  | fields => .body (properties fields) (indexer? fields)

/-- The marker of an atom and the operand behind it. -/
def AtomTerm.marked? : AtomTerm → Option (Token × Item)
  | .name _ | .brackets _ => none
  | .array element => some (⟨.array, "~"⟩, elementsItem element [])
  | .tuple first rest => some (⟨.tuple, "^"⟩, elementsItem first rest)
  | .shape exact fields =>
    some (if exact then ⟨.exactShape, "#"⟩ else ⟨.shape, "@"⟩, fieldsItem fields)

/-- The items of an atom when the markers of some kinds are resolved. -/
def AtomTerm.items (done : List TokenKind) (a : AtomTerm) : List Item :=
  match a.marked? with
  | none => [a.item]
  | some (t, operand) => if t.kind ∈ done then [.node a.node] else [.token t, operand]

theorem unionNodes_eq_map (us : List UnionTerm) : unionNodes us = us.map UnionTerm.node := by
  induction us with
  | nil => rfl
  | cons u rest ih => simp [unionNodes, ih]

theorem asTypes_map_item (us : List UnionTerm) :
    asTypes (us.map UnionTerm.item) = .ok (us.map UnionTerm.node) := by
  induction us with
  | nil => rfl
  | cons u rest ih =>
    simp only [List.map_cons, asTypes, u.isType_item.asType_eq, ih]
    rfl

theorem asElements_elementsItem (first : UnionTerm) (rest : List UnionTerm) :
    asElements (elementsItem first rest) = .ok (first.node :: unionNodes rest) := by
  rw [unionNodes_eq_map]
  cases rest with
  | nil => rfl
  | cons second rest => exact asTypes_map_item (first :: second :: rest)

theorem asShape_fieldsItem (exact : Bool) (fields : List FieldTerm) :
    asShape exact (fieldsItem fields) = .ok (.shape exact (properties fields) (indexer? fields)) := by
  cases fields with
  | nil => simp [fieldsItem, asShape, properties, indexer?]; rfl
  | cons field rest => rfl

theorem gives_readShape {exact : Bool} {i : Item} {n : Node} (h : asShape exact i = .ok n) :
    Gives (readShape exact i) n := by
  refine (gives_ofExcept_iff.2 h).bind ?_
  split
  · exact (gives_warn _).bind (gives_pure _)
  · exact (gives_pure _).bind (gives_pure _)

/-- The operand of a marker is none that the passes refuse. -/
theorem AtomTerm.isNoOperand_of_marked? {a : AtomTerm} {t : Token} {operand : Item}
    (h : a.marked? = some (t, operand)) : operand.isNoOperand = false ∧ operand.isToken = false := by
  cases a with
  | name text => simp [marked?] at h
  | brackets term => simp [marked?] at h
  | array element =>
    simp only [marked?, Option.some.injEq, Prod.mk.injEq] at h
    obtain ⟨-, rfl⟩ := h
    exact ⟨rfl, rfl⟩
  | tuple first rest =>
    simp only [marked?, Option.some.injEq, Prod.mk.injEq] at h
    obtain ⟨-, rfl⟩ := h
    cases rest <;> exact ⟨rfl, rfl⟩
  | shape exact fields =>
    simp only [marked?, Option.some.injEq, Prod.mk.injEq] at h
    obtain ⟨-, rfl⟩ := h
    cases fields <;> exact ⟨rfl, rfl⟩

theorem AtomTerm.carries_items {kind : TokenKind} {read : Item → Reading Node}
    (done : List TokenKind) {a : AtomTerm}
    (h : ∀ t operand, a.marked? = some (t, operand) → t.kind = kind → Gives (read operand) a.node) :
    (prefixPass kind read).Carries (a.items done) (a.items (kind :: done)) := by
  rw [items, items]
  cases hm : a.marked? with
  | none => exact prefixPass_carries_one (a.isType_item.isKind_eq kind)
  | some p =>
    obtain ⟨t, operand⟩ := p
    obtain ⟨ho, ht⟩ := isNoOperand_of_marked? hm
    simp only [List.mem_cons]
    by_cases hd : t.kind ∈ done
    · simp only [hd, or_true, if_true]
      exact prefixPass_carries_one rfl
    · by_cases hk : t.kind = kind
      · simp only [hk ▸ hd, hk, true_or, if_true, if_false]
        exact prefixPass_carries_marked hk ho (h t operand hm hk)
      · simp only [hd, hk, or_self, if_false]
        have hi : operand.isKind kind = false := by
          cases operand with
          | token t => simp [isToken] at ht
          | _ => rfl
        exact (prefixPass_carries_one (by simp [isKind, hk])).append (prefixPass_carries_one hi)

/-- The operand of each marker is read as what the atom stands for. -/
theorem AtomTerm.gives_of_marked? {a : AtomTerm} {t : Token} {operand : Item}
    (h : a.marked? = some (t, operand)) :
    (t.kind = .exactShape → Gives (readShape true operand) a.node)
      ∧ (t.kind = .shape → Gives (readShape false operand) a.node)
      ∧ (t.kind = .array → Gives (readArray operand) a.node)
      ∧ (t.kind = .tuple → Gives (readTuple operand) a.node) := by
  cases a with
  | name text => simp [marked?] at h
  | brackets term => simp [marked?] at h
  | array element =>
    simp only [marked?, Option.some.injEq, Prod.mk.injEq] at h
    obtain ⟨rfl, rfl⟩ := h
    refine ⟨nofun, nofun, fun _ => ?_, nofun⟩
    exact (gives_ofExcept_iff.2 rfl).bind (gives_pure _)
  | tuple first rest =>
    simp only [marked?, Option.some.injEq, Prod.mk.injEq] at h
    obtain ⟨rfl, rfl⟩ := h
    refine ⟨nofun, nofun, nofun, fun _ => ?_⟩
    exact (gives_ofExcept_iff.2 (asElements_elementsItem first rest)).bind (gives_pure _)
  | shape exact fields =>
    simp only [marked?, Option.some.injEq, Prod.mk.injEq] at h
    obtain ⟨rfl, rfl⟩ := h
    cases exact with
    | true => exact ⟨fun _ => gives_readShape (asShape_fieldsItem _ _), nofun, nofun, nofun⟩
    | false => exact ⟨nofun, fun _ => gives_readShape (asShape_fieldsItem _ _), nofun, nofun⟩

/-- With all markers resolved an atom is one item. -/
theorem AtomTerm.items_all (a : AtomTerm) :
    a.items [.tuple, .array, .shape, .exactShape] = [a.item] := by
  cases a with
  | shape exact fields => cases exact <;> rfl
  | _ => rfl

/-! ### Terms through the passes -/

theorem jointsLegal_iff {js : List JointTerm} : jointsLegal js ↔ ∀ j ∈ js, j.Legal := by
  induction js with
  | nil => simp [jointsLegal]
  | cons j rest ih => simp [jointsLegal, ih]

theorem optionalsLegal_iff {os : List OptionalTerm} : optionalsLegal os ↔ ∀ o ∈ os, o.Legal := by
  induction os with
  | nil => simp [optionalsLegal]
  | cons o rest ih => simp [optionalsLegal, ih]

theorem optionalNodes_eq_map (os : List OptionalTerm) :
    optionalNodes os = os.map OptionalTerm.node := by
  induction os with
  | nil => rfl
  | cons o rest ih => simp [optionalNodes, ih]

theorem jointNodes_eq_map (js : List JointTerm) : jointNodes js = js.map JointTerm.node := by
  induction js with
  | nil => rfl
  | cons j rest ih => simp [jointNodes, ih]

/-- The items of a term when the markers of some kinds are resolved. -/
def SuffixedTerm.raw (done : List TokenKind) (s : SuffixedTerm) : List Item :=
  s.spread (AtomTerm.items done)

def OptionalTerm.raw (done : List TokenKind) (o : OptionalTerm) : List Item :=
  o.spread (SuffixedTerm.raw done)

def JointTerm.raw (done : List TokenKind) (j : JointTerm) : List Item :=
  j.spread (OptionalTerm.raw done)

def UnionTerm.raw (done : List TokenKind) (u : UnionTerm) : List Item :=
  u.spread (JointTerm.raw done)

/-- The marker passes resolve the markers of their kind and leave all else alone. -/
theorem UnionTerm.carries_raw {kind : TokenKind} {read : Item → Reading Node}
    (hk : kind ∉ [.union, .intersection, .optional, .arraySuffix]) (done : List TokenKind)
    (h : ∀ (a : AtomTerm) t operand, a.marked? = some (t, operand) → t.kind = kind →
      Gives (read operand) a.node) (u : UnionTerm) :
    (prefixPass kind read).Carries (u.raw done) (u.raw (kind :: done)) := by
  have hs : ∀ other text, kind ≠ other →
      (prefixPass kind read).Carries [separator other text] [separator other text] := by
    intro other text hne
    exact prefixPass_carries_one (by simpa [separator, isKind] using hne.symm)
  simp only [List.mem_cons, List.not_mem_nil, or_false, not_or] at hk
  refine carries_spread (hs _ _ hk.1) fun j _ => ?_
  refine JointTerm.carries_spread (hs _ _ hk.2.1) fun o _ => ?_
  refine OptionalTerm.carries_spread (hs _ _ hk.2.2.1) fun s _ => ?_
  exact SuffixedTerm.carries_spread (hs _ _ hk.2.2.2) (fun a => a.carries_items done (h a)) s

theorem AtomTerm.item_ne_existential {a : AtomTerm}
    (h : ∀ text, a = .name text → text ≠ "*") : a.item ≠ .node (.leaf Node.existential) := by
  intro he
  cases a with
  | name text =>
    simp only [item, node, Item.node.injEq, Node.leaf.injEq] at he
    exact h text rfl he
  | brackets term => simp [item] at he
  | array element => simp [item, node] at he
  | tuple first rest => simp [item, node] at he
  | shape exact fields => simp [item, node] at he

theorem SuffixedTerm.carries_suffixPass {s : SuffixedTerm} (h : s.Legal) :
    suffixPass.Carries (s.spread fun a => [a.item]) [s.item] := by
  obtain ⟨atom, _ | suffixes⟩ := s
  · exact suffixPass_carries_one (atom.isType_item.isKind_eq _)
  · have hs := AtomTerm.item_ne_existential (h.2.resolve_left (Nat.succ_ne_zero _))
    exact suffixPass_carries_suffixes suffixes rfl atom.isType_item.isToken_eq hs
      atom.isType_item.asType_eq

theorem OptionalTerm.carries_prefixPass (o : OptionalTerm) :
    (prefixPass .optional readOptional).Carries (o.spread fun s => [s.item]) [o.item] := by
  cases o with
  | plain term => exact prefixPass_carries_one (term.isType_item.isKind_eq _)
  | marked term =>
    refine prefixPass_carries_marked rfl term.isType_item.isNoOperand_eq ?_
    exact (gives_ofExcept_iff.2 term.isType_item.asType_eq).bind (gives_pure _)

theorem JointTerm.carries_foldPass (j : JointTerm) :
    (foldPass .intersection .intersection).Carries (j.spread fun o => [o.item]) [j.item] := by
  obtain ⟨first, _ | ⟨second, rest⟩⟩ := j
  · exact foldPass_carries_one (first.isType_item.isKind_eq _)
  · have hi : item (.mk first (second :: rest))
        = .node (.intersection (first.node :: (second :: rest).map OptionalTerm.node)) := by
      rw [← optionalNodes_eq_map]
      rfl
    rw [hi]
    exact foldPass_carries_chain ⟨.intersection, "&"⟩ OptionalTerm.item OptionalTerm.node rfl
      first.isType_item.isToken_eq first.isType_item.asType_eq (List.cons_ne_nil _ _)
      fun o _ => ⟨o.isType_item.isNoOperand_eq, o.isType_item.asType_eq⟩

theorem UnionTerm.carries_foldPass (u : UnionTerm) :
    (foldPass .union .union).Carries (u.spread fun j => [j.item]) [u.item] := by
  obtain ⟨first, _ | ⟨second, rest⟩⟩ := u
  · exact foldPass_carries_one (first.isType_item.isKind_eq _)
  · have hi : item (.mk first (second :: rest))
        = .node (.union (first.node :: (second :: rest).map JointTerm.node)) := by
      rw [← jointNodes_eq_map]
      rfl
    rw [hi]
    exact foldPass_carries_chain ⟨.union, "|"⟩ JointTerm.item JointTerm.node rfl
      first.isType_item.isToken_eq first.isType_item.asType_eq (List.cons_ne_nil _ _)
      fun j _ => ⟨j.isType_item.isNoOperand_eq, j.isType_item.asType_eq⟩

/-- A legal term goes through all passes and comes out as its item. -/
theorem UnionTerm.carried {u : UnionTerm} (h : u.Legal) : Carried passes (u.raw []) [u.item] := by
  have hj : ∀ j ∈ u.operands, j.Legal := by
    obtain ⟨first, rest⟩ := u
    exact List.forall_mem_cons.2 ⟨h.1, jointsLegal_iff.1 h.2⟩
  have ho : ∀ j ∈ u.operands, ∀ o ∈ j.operands, o.Legal := by
    rintro ⟨first, rest⟩ hm
    have h := hj _ hm
    exact List.forall_mem_cons.2 ⟨h.1, optionalsLegal_iff.1 h.2⟩
  have hitems : AtomTerm.items [.tuple, .array, .shape, .exactShape] = fun a => [a.item] :=
    funext AtomTerm.items_all
  refine ⟨_, u.carries_raw (by simp) _ fun a t i hm => (AtomTerm.gives_of_marked? hm).1,
    _, u.carries_raw (by simp) _ fun a t i hm => (AtomTerm.gives_of_marked? hm).2.1,
    _, u.carries_raw (by simp) _ fun a t i hm => (AtomTerm.gives_of_marked? hm).2.2.1,
    _, u.carries_raw (by simp) _ fun a t i hm => (AtomTerm.gives_of_marked? hm).2.2.2, ?_⟩
  have hraw : u.raw [.tuple, .array, .shape, .exactShape]
      = u.spread fun j => j.spread fun o => o.spread fun s => s.spread fun a => [a.item] := by
    rw [← hitems]
    rfl
  rw [hraw]
  refine ⟨u.spread fun j => j.spread fun o => o.spread fun s => [s.item], ?_,
    u.spread fun j => j.spread fun o => [o.item], ?_, u.spread fun j => [j.item], ?_, _,
    u.carries_foldPass, rfl⟩
  · refine carries_spread (suffixPass_carries_one rfl) fun j hm => ?_
    refine JointTerm.carries_spread (suffixPass_carries_one rfl) fun o hmo => ?_
    refine OptionalTerm.carries_spread (suffixPass_carries_one rfl) fun s hs => ?_
    have hl := ho j hm o hmo
    rcases hs with rfl | rfl <;> exact SuffixedTerm.carries_suffixPass hl
  · refine carries_spread (prefixPass_carries_one rfl) fun j _ => ?_
    exact JointTerm.carries_spread (prefixPass_carries_one rfl) fun o _ => o.carries_prefixPass
  · exact carries_spread (foldPass_carries_one rfl) fun j _ => j.carries_foldPass

/-! ### Levels of terms -/

/-- What no pass looks at goes through all of them. -/
theorem carried_one {i : Item} (h : ∀ kind ∈ [TokenKind.exactShape, .shape, .array, .tuple,
    .arraySuffix, .optional, .intersection, .union], i.isKind kind = false) :
    Carried passes [i] [i] := by
  simp only [List.forall_mem_cons] at h
  exact ⟨_, prefixPass_carries_one h.1, _, prefixPass_carries_one h.2.1,
    _, prefixPass_carries_one h.2.2.1, _, prefixPass_carries_one h.2.2.2.1,
    _, suffixPass_carries_one h.2.2.2.2.1, _, prefixPass_carries_one h.2.2.2.2.2.1,
    _, foldPass_carries_one h.2.2.2.2.2.2.1, _, foldPass_carries_one h.2.2.2.2.2.2.2.1, rfl⟩

/-- The items of a level of terms with commas between them. -/
def rawElements (first : UnionTerm) (rest : List UnionTerm) : List Item :=
  first.raw [] ++ rest.flatMap fun u => separator .comma "," :: u.raw []

theorem filter_comma_elements (first : UnionTerm) (rest : List UnionTerm) :
    ([first.item] ++ rest.flatMap fun u => [separator .comma ",", u.item]).filter
      (!·.isKind .comma) = first.item :: rest.map UnionTerm.item := by
  have hu : ∀ u : UnionTerm, (!u.item.isKind .comma) = true := by
    intro u
    rw [u.isType_item.isKind_eq]
    rfl
  have hc : (!(separator .comma ",").isKind .comma) = false := rfl
  simp only [List.singleton_append, List.filter_cons, hu, if_true]
  congr 1
  induction rest with
  | nil => rfl
  | cons u rest ih =>
    rw [List.flatMap_cons, List.filter_append, ih]
    simp [hu, hc]

theorem close_elements (first : UnionTerm) (rest : List UnionTerm) :
    close (first.item :: rest.map UnionTerm.item) = .ok (elementsItem first rest) := by
  have hcolon : (first.item :: rest.map UnionTerm.item).any (isKind .colon) = false := by
    simp only [List.any_cons, List.any_map, first.isType_item.isKind_eq, Bool.false_or,
      List.any_eq_false]
    intro u _
    simp [u.isType_item.isKind_eq]
  rw [close.eq_def, hcolon, if_neg Bool.false_ne_true]
  rcases first.isType_item with h | h <;> cases rest <;> simp only [elementsItem, h] <;> rfl

theorem gives_resolve_elements {first : UnionTerm} {rest : List UnionTerm} (hf : first.Legal)
    (hr : ∀ u ∈ rest, u.Legal) :
    Gives (resolve (rawElements first rest)) (elementsItem first rest) := by
  have hc : Carried passes (rawElements first rest)
      ([first.item] ++ rest.flatMap fun u => [separator .comma ",", u.item]) := by
    refine (first.carried hf).append (Carried.flatMap fun u hu => ?_)
    exact (carried_one (by simp [separator, isKind])).append (u.carried (hr u hu))
  exact gives_resolve hc (by rw [filter_comma_elements, close_elements])

/-- A level of one term only holds the type of the term. -/
theorem gives_resolve_term {u : UnionTerm} (h : u.Legal) :
    Gives (resolve (u.raw [])) (.group [.node u.node]) := by
  have hg := @gives_resolve_elements u [] h (by simp)
  rwa [rawElements, List.flatMap_nil, List.append_nil] at hg

/-! ### Levels of fields -/

/-- The text of the name before the colon of a field. -/
def FieldTerm.name : FieldTerm → String
  | .property key optional _ => (keyWord key optional).text
  | .indexer name _ => name

def FieldTerm.type : FieldTerm → UnionTerm
  | .property _ _ type | .indexer _ type => type

/-- The items of a field. -/
def FieldTerm.raw (f : FieldTerm) : List Item :=
  [.node (.leaf f.name), separator .colon ":"] ++ f.type.raw []

def FieldTerm.items (f : FieldTerm) : List Item :=
  [.node (.leaf f.name), separator .colon ":", f.type.item]

/-- The items of a level of fields with commas between them. -/
def rawFields : List FieldTerm → List Item
  | [] => []
  | first :: rest => first.raw ++ rest.flatMap fun f => separator .comma "," :: f.raw

theorem FieldTerm.carried {f : FieldTerm} (h : f.type.Legal) :
    Carried passes f.raw f.items := by
  have hn : Carried passes [.node (.leaf f.name)] [.node (.leaf f.name)] :=
    carried_one (by simp [isKind])
  have hc : Carried passes [separator .colon ":"] [separator .colon ":"] :=
    carried_one (by simp [separator, isKind])
  exact (hn.append hc).append (f.type.carried h)

theorem FieldTerm.filter_items (f : FieldTerm) :
    f.items.filter (!·.isKind .comma) = f.items := by
  have ht := f.type.isType_item.isKind_eq .comma
  simp only [items, List.filter_cons, ht]
  rfl

theorem entries_colon {i : Item} (h : i.isKind .colon = true)
    (current : Option (String × List Item)) (rest : List Item) :
    entries current (i :: rest) = entries current rest := by
  rw [entries.eq_def]
  simp only [h, if_true]

theorem entries_key {rest : List Item} (h : beginsWith .colon rest = true)
    (current : Option (String × List Item)) (name : String) :
    entries current (.node (.leaf name) :: rest)
      = (do return current.toList ++ (← entries (some (name, [])) rest)) := by
  have hr : (rest.head?.map (isKind .colon)).getD false = true := by
    cases rest with
    | nil => simp [beginsWith] at h
    | cons i rest => simpa [beginsWith] using h
  rw [entries.eq_def]
  simp [isKind, hr]

theorem entries_value {i : Item} {rest : List Item} (hi : i.isKind .colon = false)
    (h : beginsWith .colon rest = false) (name : String) (values : List Item) :
    entries (some (name, values)) (i :: rest) = entries (some (name, values ++ [i])) rest := by
  have hr : (rest.head?.map (isKind .colon)).getD false = false := by
    cases rest with
    | nil => rfl
    | cons i rest => simpa [beginsWith] using h
  rw [entries.eq_def]
  simp only [hi, hr, Bool.false_eq_true, if_false]

theorem entries_items (fields : List FieldTerm) (current : Option (String × List Item)) :
    entries current (fields.flatMap FieldTerm.items)
      = .ok (current.toList ++ fields.map fun f => (f.name, [f.type.item])) := by
  induction fields generalizing current with
  | nil => cases current <;> rfl
  | cons f rest ih =>
    have ht : f.type.item.isKind .colon = false := f.type.isType_item.isKind_eq .colon
    have hh : beginsWith .colon (rest.flatMap FieldTerm.items) = false := by
      cases rest <;> rfl
    rw [List.flatMap_cons, FieldTerm.items, List.cons_append, List.cons_append, List.cons_append,
      List.nil_append, entries_key rfl, entries_colon rfl, entries_value ht hh, ih]
    rfl

/-! ### Bodies of shapes -/

theorem toList_keyWord (key : String) (optional : Bool) :
    (keyWord key optional).text.toList
      = '"' :: (key.toList ++ (if optional then [MarkerForm.optionalMark] else []) ++ ['"']) := by
  simp [keyWord, word]

theorem quoted?_keyWord (key : String) (optional : Bool) :
    Escapes.quoted? (keyWord key optional).text.toList
      = some ('"', key.toList ++ if optional then [MarkerForm.optionalMark] else []) := by
  rw [toList_keyWord]
  simp [Escapes.quoted?, Escapes.isQuote]

/-- A name is marked for an optional property, or by the last character of the key. -/
theorem hasOptionalMark_keyWord (key : String) (optional : Bool) :
    hasOptionalMark (keyWord key optional).text
      = (optional || key.toList.getLast? == some MarkerForm.optionalMark) := by
  rw [hasOptionalMark, toList_keyWord]
  cases optional with
  | true => simp [List.isSuffixOf]
  | false =>
    rw [Bool.eq_iff_iff, List.isSuffixOf_iff_suffix]
    have hcut : '"' :: (key.toList ++ [] ++ ['"']) = ('"' :: key.toList) ++ ['"'] := by simp
    change [MarkerForm.optionalMark] ++ ['"'] <:+ '"' :: (key.toList ++ [] ++ ['"']) ↔ _
    rw [hcut, List.suffix_append_self_iff, List.singleton_suffix_iff_getLast?_eq_some,
      List.getLast?_cons]
    cases hk : key.toList.getLast? with
    | none => simp [MarkerForm.optionalMark]
    | some c => simp

/-- The key and the mark of a property are read off its name, unless the key of a
required property ends in the mark. -/
theorem keyText_keyWord {key : String} {optional : Bool}
    (h : optional = true ∨ key.toList.getLast? ≠ some MarkerForm.optionalMark) :
    keyText (keyWord key optional).text = key
      ∧ hasOptionalMark (keyWord key optional).text = optional := by
  rw [keyText, quoted?_keyWord, hasOptionalMark_keyWord]
  cases optional with
  | true => simp
  | false =>
    have hk : key.toList.getLast? ≠ some MarkerForm.optionalMark := h.resolve_left (by simp)
    simp [hk]

theorem addEntries_property {name : String} {items : List Item} {value : Node}
    (ht : entryType name items = .ok value)
    (hq : (Escapes.quoted? name.toList).isSome = true) {ps : List Property}
    (hf : ps.any (·.key == keyText name) = false) (ix : Option Indexer)
    (rest : List (String × List Item)) :
    addEntries ps ix ((name, items) :: rest)
      = addEntries (ps ++ [.mk (keyText name) value (hasOptionalMark name)]) ix rest := by
  rw [addEntries, ht]
  change (if _ then _ else _) = _
  rw [if_pos hq]
  simp only [hf, Bool.false_eq_true, if_false]

theorem addEntries_indexer {name : String} {items : List Item} {value : Node}
    (ht : entryType name items = .ok value)
    (hq : (Escapes.quoted? name.toList).isSome = false) (ps : List Property)
    (rest : List (String × List Item)) :
    addEntries ps none ((name, items) :: rest)
      = addEntries ps (some (.mk (.leaf name) value)) rest := by
  rw [addEntries, ht]
  change (if _ then _ else _) = _
  rw [if_neg (by rw [hq]; exact Bool.false_ne_true)]
  rfl

/-- Entries are added as the properties and the indexer that their fields declare. -/
theorem addEntries_fields (fields : List FieldTerm) {ps : List Property} {ix : Option Indexer}
    (hkeys : (ps.map Property.key ++ fields.filterMap FieldTerm.key?).Nodup)
    (hix : ix = none ∨ fields.countP (·.key?.isNone) = 0)
    (hone : fields.countP (·.key?.isNone) ≤ 1)
    (hplain : ∀ f ∈ fields, f.isQuotedIndexer = false)
    (hmark : ∀ p ∈ properties fields, p.optional = true
      ∨ p.key.toList.getLast? ≠ some MarkerForm.optionalMark) :
    addEntries ps ix (fields.map fun f => (f.name, [f.type.item]))
      = .ok (.body (ps ++ properties fields) (ix <|> indexer? fields)) := by
  induction fields generalizing ps ix with
  | nil => simp [addEntries, properties, indexer?]; rfl
  | cons f rest ih =>
    rw [List.forall_mem_cons] at hplain
    have htype : entryType f.name [f.type.item] = .ok f.type.node := by
      rw [entryType]
      exact f.type.isType_item.asType_eq
    rw [List.map_cons]
    cases f with
    | property key optional type =>
      rw [properties, List.forall_mem_cons] at hmark
      obtain ⟨htext, hopt⟩ := keyText_keyWord hmark.1
      simp only [Property.key, Property.optional] at htext hopt
      have hk : (FieldTerm.property key optional type :: rest).filterMap FieldTerm.key?
          = key :: rest.filterMap FieldTerm.key? := rfl
      rw [hk] at hkeys
      have hfresh : ps.any (·.key == keyText (keyWord key optional).text) = false := by
        rw [List.any_eq_false, htext]
        intro p hp he
        have hd := (List.nodup_append.1 hkeys).2.2 p.key (List.mem_map_of_mem hp) key
          (List.mem_cons_self ..)
        exact hd (by simpa using he)
      have hcount : (FieldTerm.property key optional type :: rest).countP (·.key?.isNone)
          = rest.countP (·.key?.isNone) := List.countP_cons_of_neg (by simp [FieldTerm.key?])
      rw [hcount] at hix hone
      have hq : (Escapes.quoted? (keyWord key optional).text.toList).isSome = true := by
        rw [quoted?_keyWord]
        rfl
      have hstep := addEntries_property htype hq hfresh ix
        (rest.map fun f => (f.name, [f.type.item]))
      rw [hstep, FieldTerm.name, FieldTerm.type, htext, hopt]
      rw [ih (by simpa [Property.key] using hkeys) hix hone hplain.2 hmark.2, properties, indexer?,
        List.append_assoc]
      rfl
    | indexer name type =>
      have hcount : (FieldTerm.indexer name type :: rest).countP (·.key?.isNone)
          = rest.countP (·.key?.isNone) + 1 := List.countP_cons_of_pos rfl
      rw [hcount] at hix hone
      obtain rfl : ix = none := hix.resolve_right (by omega)
      have hk : (FieldTerm.indexer name type :: rest).filterMap FieldTerm.key?
          = rest.filterMap FieldTerm.key? := rfl
      rw [hk] at hkeys
      have hstep := addEntries_indexer htype hplain.1 ps (rest.map fun f => (f.name, [f.type.item]))
      rw [hstep, FieldTerm.type, FieldTerm.name]
      rw [ih hkeys (.inr (by omega)) (by omega) hplain.2 (by simpa only [properties] using hmark),
        properties, indexer?]
      rfl

/-- Fields that fit together and do not mislead are the body that they stand for. -/
theorem gives_resolve_fields {fields : List FieldTerm} (hfit : fitTogether fields)
    (hl : ∀ f ∈ fields, f.type.Legal)
    (hmark : ∀ p ∈ properties fields, p.optional = true
      ∨ p.key.toList.getLast? ≠ some MarkerForm.optionalMark) :
    Gives (resolve (rawFields fields)) (fieldsItem fields) := by
  cases fields with
  | nil => exact gives_resolve Carried.nil rfl
  | cons first rest =>
    have hc : Carried passes (rawFields (first :: rest))
        (first.items ++ rest.flatMap fun f => [separator .comma ","] ++ f.items) := by
      refine (FieldTerm.carried (hl first (List.mem_cons_self ..))).append
        (Carried.flatMap fun f hf => ?_)
      exact (carried_one (by simp [separator, isKind])).append
        (FieldTerm.carried (hl f (List.mem_cons_of_mem _ hf)))
    have hfilter : (first.items ++ rest.flatMap fun f => [separator .comma ","] ++ f.items).filter
        (!·.isKind .comma) = (first :: rest).flatMap FieldTerm.items := by
      rw [List.filter_append, first.filter_items, List.filter_flatMap, List.flatMap_cons]
      congr 1
      refine List.flatMap_congr fun f _ => ?_
      rw [List.filter_append, f.filter_items]
      rfl
    refine gives_resolve hc ?_
    have hcolon : ((first :: rest).flatMap FieldTerm.items).any (isKind .colon) = true := rfl
    rw [hfilter, close.eq_def, if_pos hcolon, entries_items]
    exact addEntries_fields (first :: rest) hfit.1 (.inl rfl) hfit.2.1 hfit.2.2 hmark

end StructuralTypes.Grammar

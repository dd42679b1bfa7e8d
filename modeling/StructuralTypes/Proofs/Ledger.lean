import Mathlib.Algebra.Group.Basic
import StructuralTypes.Node.Regular
import StructuralTypes.Proofs.Outcomes
import StructuralTypes.Proofs.Passes
import StructuralTypes.Token.Additions

/-! Accounts of what types are made of. A ledger says which amounts a type may be made of
and how the ways of making types add them up. Every pass keeps the amount of a level, but
for the words that it adds, so what is read from a token tree is made of the names of the
tree and of the words that optional marks and array suffixes stand for. A reading that fails
does so with a fault in the type. -/

namespace StructuralTypes

/-- Members of a list with amounts that add up to a total. -/
inductive Sums {α M : Type} [AddCommMonoid M] (R : α → M → Prop) : List α → M → Prop
  | nil : Sums R [] 0
  | cons {a : α} {x y : M} {rest : List α} (head : R a x) (tail : Sums R rest y) :
    Sums R (a :: rest) (x + y)

/-- The ways in which reading makes types, and how the amounts of the parts add up. -/
structure Ledger.Laws {M : Type} [AddCommMonoid M] (made : Node → M → Prop)
    (amount : String → M) (ofOptional ofSuffix : M) : Prop where
  name : ∀ text, made (.leaf text) (amount text)
  null : made (.leaf "null") ofOptional
  array : made (.leaf "array") ofSuffix
  suffix : ∀ {n m}, made n m → made (.array n) m
  union : ∀ {members m}, Sums made members m → 2 ≤ members.length → made (.union members) m
  intersection : ∀ {members m}, Sums made members m → 2 ≤ members.length →
    made (.intersection members) m
  tuple : ∀ {elements m}, Sums made elements m → elements ≠ [] → made (.tuple elements) m
  empty : ∀ exact, made (.shape exact [] none) 0
  exactness : ∀ {exact ps ix m}, made (.shape false ps ix) m → made (.shape exact ps ix) m
  property : ∀ {ps ix m text x value y}, made (.shape false ps ix) m → made (.leaf text) x →
    made value y → (Escapes.quoted? text.toList).isSome = true →
    ps.any (·.key == Item.keyText text) = false →
    made (.shape false (ps ++ [.mk (Item.keyText text) value (Item.hasOptionalMark text)]) ix)
      (m + (x + y))
  indexer : ∀ {ps m text x value y}, made (.shape false ps none) m → made (.leaf text) x →
    made value y → (Escapes.quoted? text.toList).isSome = false →
    made (.shape false ps (some (.mk (.leaf text) value))) (m + (x + y))

/-- Which amounts types may be made of, and what a name amounts to, an optional mark, and
an array suffix behind a bare `*`. -/
structure Ledger (M : Type) [AddCommMonoid M] where
  made : Node → M → Prop
  amount : String → M
  ofOptional : M
  ofSuffix : M
  laws : Ledger.Laws made amount ofOptional ofSuffix

/-- What a token other than a name amounts to by itself. -/
def Ledger.ofToken {M : Type} [AddCommMonoid M] (L : Ledger M) (t : Token) : M :=
  if t.kind = .optional then L.ofOptional else 0

/-! ### Sums -/

section Sums

variable {α M : Type} [AddCommMonoid M] {R : α → M → Prop} {m : M}

theorem sums_nil_iff : Sums R [] m ↔ m = 0 := by
  constructor
  · rintro ⟨⟩
    rfl
  · rintro rfl
    exact .nil

theorem sums_cons_iff {a : α} {rest : List α} :
    Sums R (a :: rest) m ↔ ∃ x y, R a x ∧ Sums R rest y ∧ m = x + y := by
  constructor
  · rintro ⟨⟩
    exact ⟨_, _, ‹_›, ‹_›, rfl⟩
  · rintro ⟨x, y, hx, hy, rfl⟩
    exact .cons hx hy

theorem sums_singleton_iff {a : α} : Sums R [a] m ↔ R a m := by
  rw [sums_cons_iff]
  constructor
  · rintro ⟨x, y, hx, hy, rfl⟩
    rwa [sums_nil_iff.1 hy, add_zero]
  · exact fun h => ⟨m, 0, h, .nil, (add_zero m).symm⟩

theorem Sums.append {xs ys : List α} {x y : M} (hx : Sums R xs x) (hy : Sums R ys y) :
    Sums R (xs ++ ys) (x + y) := by
  induction hx with
  | nil => rwa [List.nil_append, zero_add]
  | cons head tail ih =>
    rw [List.cons_append, add_assoc]
    exact .cons head ih

theorem Sums.split {xs ys : List α} (h : Sums R (xs ++ ys) m) :
    ∃ x y, Sums R xs x ∧ Sums R ys y ∧ m = x + y := by
  induction xs generalizing m with
  | nil => exact ⟨0, m, .nil, h, (zero_add m).symm⟩
  | cons a rest ih =>
    obtain ⟨x, w, hx, hw, rfl⟩ := sums_cons_iff.1 h
    obtain ⟨y, z, hy, hz, rfl⟩ := ih hw
    exact ⟨x + y, z, .cons hx hy, hz, (add_assoc x y z).symm⟩

end Sums

/-! ### Readings that may fail -/

/-- Whether a cause lies in what is written, apart from what its names stand for. -/
def Cause.IsWritten (cause : Cause) : Prop :=
  cause.causeClass ∈ [CauseClass.malformed, .conflict, .unsupported]

/-- A result of some kind, or else a fault in what is read. -/
def Yields {α : Type} (e : Except Fault α) (P : α → Prop) : Prop :=
  match e with
  | .ok a => P a
  | .error fault => ∃ cause : Cause, cause.IsWritten ∧ fault = .ofCause cause

section Yields

variable {α β : Type} {P : α → Prop} {Q : β → Prop}

theorem yields_ok {a : α} (h : P a) : Yields (.ok a) P := h

theorem yields_throw {cause : Cause}
    (h : cause.IsWritten := by simp [Cause.IsWritten, Cause.causeClass]) :
    Yields (throw (.ofCause cause)) P :=
  ⟨cause, h, rfl⟩

theorem Yields.imp {e : Except Fault α} {P' : α → Prop} (h : Yields e P) (hP : ∀ a, P a → P' a) :
    Yields e P' := by
  cases e with
  | ok a => exact hP a h
  | error fault => exact h

theorem Yields.and {e : Except Fault α} {P' : α → Prop} (h : Yields e P)
    (hP : ∀ a, e = .ok a → P' a) : Yields e fun a => P a ∧ P' a := by
  cases e with
  | ok a => exact ⟨h, hP a rfl⟩
  | error fault => exact h

theorem Yields.bind {e : Except Fault α} {f : α → Except Fault β} (h : Yields e P)
    (hf : ∀ a, P a → Yields (f a) Q) : Yields (e >>= f) Q := by
  cases e with
  | ok a => exact hf a h
  | error fault => exact h

end Yields

namespace Reading

variable {α β : Type}

/-- A reading that has a result of some kind, or fails with a fault in the type. -/
def Ensures (r : Reading α) (P : α → Prop) : Prop :=
  ∀ warnings, Yields (r.run warnings).1 P

variable {P : α → Prop} {Q : β → Prop}

theorem ensures_pure {a : α} (h : P a) : Ensures (pure a) P := fun _ => h

theorem ensures_throw {cause : Cause}
    (h : cause.IsWritten := by simp [Cause.IsWritten, Cause.causeClass]) :
    Ensures (throw (.ofCause cause)) P :=
  fun _ => yields_throw h

theorem ensures_ofExcept {e : Except Fault α} (h : Yields e P) : Ensures (Reading.ofExcept e) P :=
  fun _ => h

theorem Ensures.bind {r : Reading α} {f : α → Reading β} (h : Ensures r P)
    (hf : ∀ a, P a → Ensures (f a) Q) : Ensures (r >>= f) Q := by
  intro warnings
  have hr := h warnings
  rw [run_bind]
  rcases hrun : r.run warnings with ⟨fault | a, added⟩ <;> rw [hrun] at hr
  · exact hr
  · exact hf a hr added

end Reading

namespace Item

open Reading

variable {M : Type} [AddCommMonoid M] {L : Ledger M}

/-! ### Items -/

/-- What an item is made of: stray values of nothing that is known. -/
inductive Made (L : Ledger M) : Item → M → Prop
  | token (t : Token) : Made L (.token t) (L.ofToken t)
  | node {n : Node} {m : M} (h : L.made n m) : Made L (.node n) m
  | group {items : List Item} {m : M} (h : Sums (Made L) items m) : Made L (.group items) m
  | body {ps : List Property} {ix : Option Indexer} {m : M} (h : L.made (.shape false ps ix) m) :
    Made L (.body ps ix) m

theorem Made.of_token {t : Token} {m : M} (h : Made L (.token t) m) : m = L.ofToken t := by
  cases h
  rfl

theorem Made.of_isKind {i : Item} {kind : TokenKind} {m : M} (hk : i.isKind kind = true)
    (h : Made L i m) (hno : kind ≠ .optional := by decide) : m = 0 := by
  cases i with
  | token t =>
    have ht : t.kind = kind := by simpa [isKind] using hk
    rw [h.of_token, Ledger.ofToken, if_neg (ht ▸ hno)]
  | _ => simp [isKind] at hk

theorem Made.of_node {n : Node} {m : M} (h : Made L (.node n) m) : L.made n m := by
  cases h
  assumption

theorem Made.of_group {items : List Item} {m : M} (h : Made L (.group items) m) :
    Sums (Made L) items m := by
  cases h
  assumption

mutual

theorem Made.asType : ∀ {i : Item} {m : M}, Made L i m → Yields i.asType (L.made · m)
  | .node _, _, h => yields_ok h.of_node
  | .group [], _, _ => yields_throw
  | .group [item], _, h => (sums_singleton_iff.1 h.of_group).asType
  | .group (first :: second :: rest), _, h => (made_asTypes h.of_group).bind fun ns hns =>
    yields_ok (L.laws.union hns.1 (by rw [hns.2]; simp))
  | .body .., _, _ => yields_throw
  | .token _, _, _ => yields_throw
  | .stray _, _, h => nomatch h

theorem made_asTypes : ∀ {items : List Item} {m : M}, Sums (Made L) items m →
    Yields (asTypes items) fun ns => Sums L.made ns m ∧ ns.length = items.length
  | [], _, h => yields_ok ⟨sums_nil_iff.2 (sums_nil_iff.1 h), rfl⟩
  | item :: rest, _, h => by
    obtain ⟨x, y, hx, hy, rfl⟩ := sums_cons_iff.1 h
    refine hx.asType.bind fun n hn => (made_asTypes hy).bind fun ns hns => yields_ok ?_
    exact ⟨.cons hn hns.1, congrArg (· + 1) hns.2⟩

end

theorem made_asElements {i : Item} {m : M} (h : Made L i m) :
    Yields (asElements i) fun ns => Sums L.made ns m ∧ ns ≠ [] := by
  have hone : ∀ {i : Item}, Made L i m →
      Yields (do return [← asType i]) fun ns => Sums L.made ns m ∧ ns ≠ [] := fun h =>
    h.asType.bind fun n hn => yields_ok ⟨sums_singleton_iff.2 hn, List.cons_ne_nil _ _⟩
  cases i with
  | group items =>
    cases items with
    | nil => exact yields_throw
    | cons first rest =>
      exact (made_asTypes h.of_group).imp fun ns hns =>
        ⟨hns.1, List.ne_nil_of_length_pos (by rw [hns.2]; simp)⟩
  | token t => exact hone h
  | node n => exact hone h
  | body ps ix => exact hone h
  | stray v => exact nomatch h

theorem made_asShape {exact : Bool} {i : Item} {m : M} (h : Made L i m) :
    Yields (asShape exact i) (L.made · m) := by
  cases i with
  | group items =>
    cases items with
    | nil =>
      rw [sums_nil_iff.1 h.of_group]
      exact yields_ok (L.laws.empty exact)
    | cons first rest => exact yields_throw
  | body ps ix =>
    cases h with
    | body h => exact yields_ok (L.laws.exactness h)
  | token t => exact yields_throw
  | node n => exact yields_throw
  | stray v => exact yields_throw

/-! ### Passes -/

/-- A way to read the operand of a marker that makes a composite type of both. -/
def KeepsAmount (L : Ledger M) (kind : TokenKind) (read : Item → Reading Node) : Prop :=
  ∀ {t : Token} {i : Item} {m : M}, t.kind = kind → Made L i m →
    Ensures (read i) fun n => L.made n (L.ofToken t + m) ∧ n.isLeaf = false

theorem keepsAmount_readShape {kind : TokenKind} (hk : kind ≠ .optional) (exact : Bool) :
    KeepsAmount L kind (readShape exact) := by
  intro t i m ht h
  rw [Ledger.ofToken, if_neg (ht ▸ hk), zero_add]
  have hleaf : ∀ n, asShape exact i = .ok n → n.isLeaf = false := fun n hn => by
    cases i with
    | group items => cases items <;> cases hn; rfl
    | body ps ix => cases hn; rfl
    | _ => cases hn
  refine (ensures_ofExcept ((made_asShape h).and hleaf)).bind fun n hn => ?_
  split
  · have hw : Ensures (Reading.warn .exactShapeIndexer) fun _ => True := fun _ => trivial
    exact hw.bind fun _ _ => ensures_pure hn
  · exact ensures_pure hn

theorem keepsAmount_readArray : KeepsAmount L .array readArray := fun ht h => by
  rw [Ledger.ofToken, if_neg (ht ▸ by decide), zero_add]
  exact (ensures_ofExcept h.asType).bind fun _ hn => ensures_pure ⟨L.laws.suffix hn, rfl⟩

theorem keepsAmount_readTuple : KeepsAmount L .tuple readTuple := fun ht h => by
  rw [Ledger.ofToken, if_neg (ht ▸ by decide), zero_add]
  exact (ensures_ofExcept (made_asElements h)).bind fun _ hn =>
    ensures_pure ⟨L.laws.tuple hn.1 hn.2, rfl⟩

theorem keepsAmount_readOptional : KeepsAmount L .optional readOptional := by
  intro t i m ht h
  rw [Ledger.ofToken, if_pos ht]
  refine (ensures_ofExcept h.asType).bind fun n hn => ensures_pure ⟨?_, rfl⟩
  exact L.laws.union (.cons L.laws.null (sums_singleton_iff.2 hn)) (by simp)

/-- A place of a level, as far as one token or name tells. -/
def place : Item → Option Token
  | token t => some t
  | node (.leaf name) => some ⟨.name, name⟩
  | _ => none

theorem place_node {n : Node} (h : n.isLeaf = false) : (node n).place = none := by
  cases n with
  | leaf name => cases h
  | _ => rfl

open TokenTree (bareSuffixes isSuffixed star takers)

/-- The suffixes right behind a bare `*` are the same before and after a pass that resolves
markers, which take what stands before suffixes no more once they are resolved. -/
structure SameSuffixes (kind : TokenKind) (kinds : List TokenKind) (items out : List Item) :
    Prop where
  head : isSuffixed (out.map place) = isSuffixed (items.map place)
  count : ∀ taken, bareSuffixes kinds taken (out.map place)
    = bareSuffixes (kind :: kinds) taken (items.map place)

section Prefix

variable {kind : TokenKind} {kinds : List TokenKind}

theorem sameSuffixes_nil : SameSuffixes kind kinds [] [] :=
  ⟨rfl, fun _ => rfl⟩

theorem any_place_of_operand (hnames : .name ∉ kinds) {operand : Item}
    (ho : operand.isNoOperand = false) : operand.place.any (·.kind ∈ kinds) = false := by
  cases operand with
  | token t => simp [isNoOperand] at ho
  | node n => cases n <;> simp [place, hnames]
  | _ => rfl

/-- A `*` behind the marker is its operand, and so no bare one. -/
theorem sameSuffixes_marked {t : Token} {operand : Item} {n : Node} {rest out : List Item}
    (hnames : .name ∉ kind :: kinds) (hk : kind ≠ .arraySuffix) (ht : t.kind = kind)
    (ho : operand.isNoOperand = false) (hn : n.isLeaf = false)
    (h : SameSuffixes kind kinds rest out) :
    SameSuffixes kind kinds (token t :: operand :: rest) (node n :: out) := by
  have hstar : t ≠ star := by
    rintro rfl
    exact hnames (ht ▸ List.mem_cons_self)
  have hmarker : (some t).any (·.kind ∈ kind :: kinds) = true := by simp [ht]
  have hplace : (token t).place = some t := rfl
  constructor
  · rw [List.map_cons, List.map_cons, place_node hn, hplace]
    simp [isSuffixed, ht, hk]
  · intro taken
    rw [List.map_cons, List.map_cons, List.map_cons, place_node hn, hplace, bareSuffixes,
      bareSuffixes, bareSuffixes, hmarker, any_place_of_operand hnames ho]
    simp [h.count, hstar]

theorem sameSuffixes_cons {item : Item} {rest out : List Item}
    (hnames : .name ∉ kind :: kinds) (hk : item.isKind kind = false)
    (h : SameSuffixes kind kinds rest out) :
    SameSuffixes kind kinds (item :: rest) (item :: out) := by
  have hplace : item.place.any (·.kind ∈ kind :: kinds) = item.place.any (·.kind ∈ kinds) := by
    cases item with
    | token t =>
      have ht : t.kind ≠ kind := by simpa [isKind] using hk
      simp [place, ht]
    | node n =>
      rw [List.mem_cons, not_or] at hnames
      cases n <;> simp [place, hnames.1]
    | _ => rfl
  refine ⟨rfl, fun taken => ?_⟩
  rw [List.map_cons, List.map_cons, bareSuffixes, bareSuffixes, h.head, h.count, hplace]

end Prefix

theorem sums_resolvePrefix {kind : TokenKind} {kinds : List TokenKind}
    {read : Item → Reading Node} (hread : KeepsAmount L kind read)
    (hnames : .name ∉ kind :: kinds) (hsuffix : kind ≠ .arraySuffix) {items : List Item} {m : M}
    (h : Sums (Made L) items m) :
    Ensures (resolvePrefix kind read items) fun out =>
      Sums (Made L) out m ∧ SameSuffixes kind kinds items out := by
  refine resolvePrefix_induction (motive := fun items r => ∀ m, Sums (Made L) items m →
      Ensures r fun out => Sums (Made L) out m ∧ SameSuffixes kind kinds items out)
    (fun m h => ensures_pure ⟨h, sameSuffixes_nil⟩) (fun _ _ => ensures_throw)
    (fun {item rest r} hk ih m h => ?_) (fun {t operand rest r} ht ho ih m h => ?_) items m h
  · obtain ⟨x, y, hx, hy, rfl⟩ := sums_cons_iff.1 h
    exact (ih y hy).bind fun out hout =>
      ensures_pure ⟨.cons hx hout.1, sameSuffixes_cons hnames hk hout.2⟩
  · obtain ⟨x, w, hx, hw, rfl⟩ := sums_cons_iff.1 h
    obtain ⟨y, z, hy, hz, rfl⟩ := sums_cons_iff.1 hw
    rw [hx.of_token, ← add_assoc]
    refine (hread ht hy).bind fun n hn => (ih z hz).bind fun out hout => ?_
    exact ensures_pure ⟨.cons (.node hn.1) hout.1,
      sameSuffixes_marked hnames hsuffix ht ho hn.2 hout.2⟩

theorem any_place_kind (item : Item) {kind : TokenKind} (hk : kind ≠ .name) :
    item.place.any (·.kind == kind) = item.isKind kind := by
  cases item with
  | node n => cases n <;> simp [place, isKind, hk.symm]
  | _ => rfl

/-- The suffixes right behind a `*`, when no markers are left that take what follows them. -/
def starCount (items : List Item) : Nat :=
  bareSuffixes [] false (items.map place)

theorem starCount_cons {item : Item} (hi : item.place ≠ some star) (rest : List Item) :
    starCount (item :: rest) = starCount rest := by
  simp [starCount, bareSuffixes, hi]

theorem starCount_cons_suffix {last item : Item} {rest : List Item}
    (hk : item.isKind .arraySuffix = true) : starCount (last :: item :: rest)
      = (if last.place = some star then 1 else 0) + starCount rest := by
  have hsuffix := @any_place_kind item .arraySuffix (by decide)
  have hstar : item.place ≠ some star := by
    intro e
    rw [e, hk] at hsuffix
    cases hsuffix
  simp [starCount, bareSuffixes, isSuffixed, hsuffix, hk, hstar]

theorem starCount_cons_cons {last item : Item} {rest : List Item}
    (hk : item.isKind .arraySuffix = false) :
    starCount (last :: item :: rest) = starCount (item :: rest) := by
  have hsuffix := @any_place_kind item .arraySuffix (by decide)
  simp [starCount, bareSuffixes, isSuffixed, hsuffix, hk]

/-- The pass over suffixes adds the word `array` for each that stands right behind a `*`. -/
theorem sums_resolveSuffixes {items : List Item} {last : Option Item} {m : M}
    (h : Sums (Made L) (last.toList ++ items) m) :
    Yields (resolveSuffixes last items)
      (Sums (Made L) · (m + starCount (last.toList ++ items) • L.ofSuffix)) := by
  induction items generalizing last m with
  | nil =>
    have hnone : starCount (last.toList ++ []) = 0 := by
      cases last <;> simp [starCount, bareSuffixes, isSuffixed]
    rw [hnone, zero_nsmul, add_zero]
    exact yields_ok (by simpa using h)
  | cons item rest ih =>
    obtain ⟨x, w, hx, hw, rfl⟩ := h.split
    rw [resolveSuffixes.eq_def]
    by_cases hk : item.isKind .arraySuffix = true
    · obtain ⟨z, y, hz, hy, rfl⟩ := sums_cons_iff.1 hw
      rw [hz.of_isKind hk, zero_add]
      simp only [hk, Bool.not_true, Bool.false_eq_true, if_false]
      have hwrap : ∀ {i : Item}, Sums (Made L) [i] x → i.place ≠ some star →
          Yields (do resolveSuffixes (some (node (.array (← asType i)))) rest)
            (Sums (Made L) · (x + y + starCount (i :: item :: rest) • L.ofSuffix)) := by
        intro i hi hstar
        rw [starCount_cons_suffix hk, if_neg hstar, Nat.zero_add]
        refine (sums_singleton_iff.1 hi).asType.bind fun n hn => ?_
        have hout := @ih (some (.node (.array n))) _ (.cons (.node (L.laws.suffix hn)) hy)
        rwa [Option.toList_some, List.singleton_append, starCount_cons (by simp [place])] at hout
      rcases last with _ | ⟨t | n | items | ⟨ps, ix⟩ | v⟩
      · exact yields_throw
      · exact yields_throw
      · cases n with
        | leaf name =>
          by_cases hn : name = Node.existential
          · simp only [hn, if_true]
            have hword : Sums (Made L) (node (.leaf "array") :: rest) (L.ofSuffix + y) :=
              .cons (.node L.laws.array) hy
            refine (@ih (some (.node (.leaf "array"))) _ hword).bind fun out hout => ?_
            rw [Option.toList_some, List.singleton_append, starCount_cons (by decide),
              add_assoc] at hout
            have hbare : (node (.leaf Node.existential)).place = some star := rfl
            rw [Option.toList_some, List.singleton_append, starCount_cons_suffix hk,
              if_pos hbare, add_nsmul, one_nsmul, add_assoc, add_left_comm y, ← hn]
            exact yields_ok (.cons (sums_singleton_iff.1 hx) hout)
          · simp only [hn, if_false]
            exact hwrap hx (by simpa [place, TokenTree.star] using hn)
        | _ => exact hwrap hx (by simp [place])
      · exact hwrap hx (by simp [place])
      · exact hwrap hx (by simp [place])
      · exact hwrap hx (by simp [place])
    · have hk : item.isKind .arraySuffix = false := by simpa using hk
      have hcount : starCount (last.toList ++ item :: rest) = starCount (item :: rest) := by
        cases last with
        | none => rfl
        | some last => exact starCount_cons_cons hk
      simp only [hk, Bool.not_false, if_true, hcount]
      refine (@ih (some item) _ hw).bind fun out hout => yields_ok ?_
      rw [add_assoc]
      exact hx.append hout

/-- What the operand before an operator is made of. -/
def Pending.MadeOf (L : Ledger M) (pending : Pending) (m : M) : Prop :=
  match pending with
  | .nothing => m = 0
  | .item i => Made L i m
  | .chain members => Sums L.made members m ∧ 2 ≤ members.length

section Fold

variable {kind : TokenKind} {make : List Node → Node} (hkind : kind ≠ .optional)
  (hmake : ∀ {members : List Node} {m : M}, Sums L.made members m → 2 ≤ members.length →
    L.made (make members) m)

include hkind hmake

omit hkind in
theorem sums_flush {pending : Pending} {m : M} (h : pending.MadeOf L m) :
    Sums (Made L) (pending.flush make) m := by
  cases pending with
  | nothing => exact sums_nil_iff.2 h
  | item i => exact sums_singleton_iff.2 h
  | chain members => exact sums_singleton_iff.2 (.node (hmake h.1 h.2))

omit hkind hmake in
theorem sums_members {pending : Pending} {m : M} (operator : String) (h : pending.MadeOf L m) :
    Yields (pending.members operator) fun members =>
      Sums L.made members m ∧ 1 ≤ members.length := by
  have hone : ∀ {i : Item}, Made L i m → Yields (do return [← asType i]) fun members =>
      Sums L.made members m ∧ 1 ≤ members.length := fun h =>
    h.asType.bind fun n hn => yields_ok ⟨sums_singleton_iff.2 hn, Nat.le_refl 1⟩
  cases pending with
  | nothing => exact yields_throw
  | item i =>
    cases i with
    | token t => exact yields_throw
    | _ => exact hone h
  | chain members => exact yields_ok ⟨h.1, by have := h.2; omega⟩

theorem sums_foldOperator : ∀ {items : List Item} {pending : Pending} {m m' : M},
    pending.MadeOf L m → Sums (Made L) items m' →
    Yields (foldOperator kind make pending items) (Sums (Made L) · (m + m'))
  | [], _, _, _, hp, h => by
    rw [sums_nil_iff.1 h, add_zero]
    exact yields_ok (sums_flush hmake hp)
  | item :: rest, pending, m, _, hp, h => by
    obtain ⟨x, y, hx, hy, rfl⟩ := sums_cons_iff.1 h
    by_cases hk : item.isKind kind = true
    · cases item with
      | token t =>
        have ht : t.kind = kind := by simpa [isKind] using hk
        rw [foldOperator.eq_def]
        simp only [if_pos ht]
        cases rest with
        | nil => exact yields_throw
        | cons operand rest =>
          obtain ⟨y, z, ho, hz, rfl⟩ := sums_cons_iff.1 hy
          by_cases hno : operand.isNoOperand = true
          · simp only [hno, if_true]
            exact yields_throw
          · simp only [hno, Bool.false_eq_true, if_false]
            refine (sums_members t.text hp).bind fun members hm => ?_
            refine ho.asType.bind fun n hn => ?_
            have hchain : Pending.MadeOf L (.chain (members ++ [n])) (m + y) :=
              ⟨hm.1.append (sums_singleton_iff.2 hn), by have := hm.2; simp; omega⟩
            rw [hx.of_isKind hk hkind, zero_add, ← add_assoc]
            exact sums_foldOperator hchain hz
      | _ => simp [isKind] at hk
    · rw [foldOperator_cons (by simpa using hk)]
      have hi : Pending.MadeOf L (.item item) x := hx
      exact (sums_foldOperator hi hy).bind fun out hout =>
        yields_ok ((sums_flush hmake hp).append hout)

end Fold

/-! ### Bodies of shapes -/

/-- What an entry of a shape is made of: its name and its items. -/
def EntryMade (L : Ledger M) (entry : String × List Item) (m : M) : Prop :=
  ∃ x y, L.made (.leaf entry.1) x ∧ Sums (Made L) entry.2 y ∧ m = x + y

theorem sums_entries {items : List Item} {current : Option (String × List Item)} {m m' : M}
    (hc : Sums (EntryMade L) current.toList m) (h : Sums (Made L) items m') :
    Yields (entries current items) (Sums (EntryMade L) · (m + m')) := by
  induction items generalizing current m m' with
  | nil =>
    rw [sums_nil_iff.1 h, add_zero]
    cases current <;> exact yields_ok hc
  | cons item rest ih =>
    obtain ⟨x, y, hx, hy, rfl⟩ := sums_cons_iff.1 h
    rw [entries.eq_def]
    by_cases hk : item.isKind .colon = true
    · simp only [hk, if_true]
      rw [hx.of_isKind hk, zero_add]
      exact ih hc hy
    · simp only [hk, Bool.false_eq_true, if_false]
      by_cases hn : (rest.head?.map (isKind .colon)).getD false = true
      · simp only [hn, if_true]
        rcases item with t | n | items | ⟨ps, ix⟩ | v
        · exact yields_throw
        · cases n with
          | leaf name =>
            have hentry : EntryMade L (name, []) x := ⟨x, 0, hx.of_node, .nil, (add_zero x).symm⟩
            exact (@ih (some (name, [])) _ _ (sums_singleton_iff.2 hentry) hy).bind fun out hout =>
              yields_ok (hc.append hout)
          | _ => exact yields_throw
        · exact yields_throw
        · exact yields_throw
        · exact yields_throw
      · simp only [hn, Bool.false_eq_true, if_false]
        rcases current with _ | ⟨name, values⟩
        · exact yields_throw
        · obtain ⟨a, b, ha, hb, rfl⟩ := sums_singleton_iff.1 hc
          have hentry : EntryMade L (name, values ++ [item]) (a + b + x) :=
            ⟨a, b + x, ha, hb.append (sums_singleton_iff.2 hx), add_assoc a b x⟩
          rw [← add_assoc]
          exact @ih (some (name, values ++ [item])) _ _ (sums_singleton_iff.2 hentry) hy

theorem made_entryType {name : String} {items : List Item} {m : M}
    (h : Sums (Made L) items m) : Yields (entryType name items) (L.made · m) := by
  match items with
  | [] => exact yields_throw
  | [item] => exact (sums_singleton_iff.1 h).asType
  | first :: second :: rest =>
    exact (made_asTypes h).bind fun ns hns =>
      yields_ok (L.laws.union hns.1 (by rw [hns.2]; simp))

theorem made_addEntries {es : List (String × List Item)} {ps : List Property}
    {ix : Option Indexer} {m m' : M} (hb : L.made (.shape false ps ix) m)
    (h : Sums (EntryMade L) es m') : Yields (addEntries ps ix es) (Made L · (m + m')) := by
  induction es generalizing ps ix m m' with
  | nil =>
    rw [sums_nil_iff.1 h, add_zero]
    exact yields_ok (.body hb)
  | cons entry rest ih =>
    obtain ⟨name, items⟩ := entry
    obtain ⟨w, z, ⟨x, y, hx, hy, rfl⟩, hz, rfl⟩ := sums_cons_iff.1 h
    rw [← add_assoc, addEntries]
    refine (made_entryType hy).bind fun value hvalue => ?_
    by_cases hq : (Escapes.quoted? name.toList).isSome = true
    · simp only [hq, if_true]
      by_cases hd : ps.any (·.key == keyText name) = true
      · simp only [hd, if_true]
        exact yields_throw
      · simp only [hd, Bool.false_eq_true, if_false]
        exact ih (L.laws.property hb hx hvalue hq (by simpa using hd)) hz
    · simp only [hq, Bool.false_eq_true, if_false]
      cases ix with
      | some indexer => exact yields_throw
      | none => exact ih (L.laws.indexer hb hx hvalue (by simpa using hq)) hz

theorem sums_filter_comma {items : List Item} {m : M} (h : Sums (Made L) items m) :
    Sums (Made L) (items.filter (!·.isKind .comma)) m := by
  induction items generalizing m with
  | nil => exact h
  | cons item rest ih =>
    obtain ⟨x, y, hx, hy, rfl⟩ := sums_cons_iff.1 h
    by_cases hk : item.isKind .comma = true
    · rw [List.filter_cons_of_neg (by simp [hk]), hx.of_isKind hk, zero_add]
      exact ih hy
    · rw [List.filter_cons_of_pos (by simpa using hk)]
      exact .cons hx (ih hy)

theorem made_close {items : List Item} {m : M} (h : Sums (Made L) items m) :
    Yields (close items) (Made L · m) := by
  rw [close.eq_def]
  by_cases hc : items.any (isKind .colon) = true
  · rw [if_pos hc]
    refine (@sums_entries M _ L items none 0 m .nil h).bind fun es hes => ?_
    have hmade := made_addEntries (L.laws.empty false) hes
    rwa [zero_add, zero_add] at hmade
  · rw [if_neg hc]
    split
    · exact yields_ok (sums_singleton_iff.1 h)
    · exact yields_ok (.group h)

/-! ### Levels and trees -/

/-- What a level amounts to once the markers of some kinds and its suffixes are resolved. -/
def LevelMade (L : Ledger M) (kinds : List TokenKind) (items : List Item) (total : M) : Prop :=
  ∃ m, Sums (Made L) items m
    ∧ total = m + bareSuffixes kinds false (items.map place) • L.ofSuffix

theorem levelMade_resolvePrefix {kind : TokenKind} {kinds : List TokenKind}
    {read : Item → Reading Node} {items : List Item} {total : M}
    (h : LevelMade L (kind :: kinds) items total) (hread : KeepsAmount L kind read)
    (hnames : .name ∉ kind :: kinds) (hsuffix : kind ≠ .arraySuffix) :
    Ensures (resolvePrefix kind read items) (LevelMade L kinds · total) := by
  obtain ⟨m, hm, rfl⟩ := h
  intro warnings
  refine (sums_resolvePrefix hread hnames hsuffix hm warnings).imp fun out hout => ?_
  exact ⟨m, hout.1, by rw [hout.2.count]⟩

theorem place_addEntries {es : List (String × List Item)} {ps : List Property}
    {ix : Option Indexer} {i : Item} (h : addEntries ps ix es = .ok i) : i.place = none := by
  induction es generalizing ps ix with
  | nil =>
    cases h
    rfl
  | cons entry rest ih =>
    obtain ⟨value, -, h⟩ := Outcome.ok_of_bind h
    split at h
    · split at h
      · cases h
      · exact ih h
    · split at h
      · cases h
      · exact ih h

/-- A level is no token and no name. -/
theorem place_close {items : List Item} {i : Item} (h : close items = .ok i) :
    i.place = none := by
  rw [close.eq_def] at h
  split at h
  · obtain ⟨es, -, h⟩ := Outcome.ok_of_bind h
    exact place_addEntries h
  · split at h <;> cases h <;> rfl

/-- A level keeps what it is made of, and adds the words that its suffixes stand for. -/
theorem ensures_resolve {items : List Item} {m : M} (h : Sums (Made L) items m) :
    Ensures (resolve items) fun i =>
      Made L i (m + bareSuffixes takers false (items.map place) • L.ofSuffix)
        ∧ i.place = none := by
  have hfold : ∀ {kind make} {items : List Item} {m : M}, kind ≠ .optional →
      (∀ {members : List Node} {m : M},
        Sums L.made members m → 2 ≤ members.length → L.made (make members) m) →
      Sums (Made L) items m → Ensures (Reading.ofExcept (foldOperator kind make .nothing items))
        (Sums (Made L) · m) := by
    intro kind make items m hkind hmake h
    have hnothing : Pending.MadeOf L .nothing 0 := rfl
    have hout := @sums_foldOperator M _ L kind make hkind hmake items .nothing 0 m hnothing h
    rw [zero_add] at hout
    exact ensures_ofExcept hout
  have hlevel : LevelMade L takers items _ := ⟨m, h, rfl⟩
  refine (levelMade_resolvePrefix hlevel (keepsAmount_readShape (by decide) true)
    (by decide) (by decide)).bind
    fun items h => ?_
  refine (levelMade_resolvePrefix h (keepsAmount_readShape (by decide) false)
    (by decide) (by decide)).bind
    fun items h => ?_
  refine (levelMade_resolvePrefix h keepsAmount_readArray (by decide) (by decide)).bind
    fun items h => ?_
  refine (levelMade_resolvePrefix h keepsAmount_readTuple (by decide) (by decide)).bind
    fun items h => ?_
  obtain ⟨m', hm', htotal⟩ := h
  rw [htotal]
  refine (ensures_ofExcept (@sums_resolveSuffixes M _ L _ none _ hm')).bind fun items h => ?_
  have hoptional := @sums_resolvePrefix M _ L .optional [] readOptional keepsAmount_readOptional
    (by decide) (by decide)
  refine (hoptional h).bind fun items h => ?_
  refine (hfold (by decide) L.laws.intersection h.1).bind fun items h => ?_
  refine (hfold (by decide) L.laws.union h).bind fun items h => ?_
  exact ensures_ofExcept ((made_close (sums_filter_comma h)).and fun _ => place_close)

end Item

/-! ### Trees -/

namespace TokenTree

mutual

/-- The texts of the names in a tree, in order. -/
def names : TokenTree → List String
  | token t => if t.kind = .name then [t.text] else []
  | group items => namesAll items
  | stray _ => []

def namesAll : List TokenTree → List String
  | [] => []
  | tree :: rest => names tree ++ namesAll rest

end

mutual

/-- A tree of tokens and groups only. -/
def IsClean : TokenTree → Prop
  | token _ => True
  | group items => AllClean items
  | stray _ => False

def AllClean : List TokenTree → Prop
  | [] => True
  | tree :: rest => IsClean tree ∧ AllClean rest

end

theorem allClean_append {xs ys : List TokenTree} :
    AllClean (xs ++ ys) ↔ AllClean xs ∧ AllClean ys := by
  induction xs with
  | nil => simp [AllClean]
  | cons tree rest ih => simp [AllClean, ih, and_assoc]

/-- Nesting tokens makes trees of tokens and groups only. -/
theorem allClean_of_build {tokens : List Token} {level trees : List TokenTree}
    {outer : List (List TokenTree)} (h : build level outer tokens = .ok trees)
    (hl : AllClean level) (ho : ∀ level ∈ outer, AllClean level) : AllClean trees := by
  induction tokens generalizing level outer with
  | nil =>
    rw [build.eq_def] at h
    cases outer with
    | nil =>
      cases h
      exact hl
    | cons parent outer => cases h
  | cons t rest ih =>
    rw [build.eq_def] at h
    dsimp only at h
    split at h
    next => exact ih h trivial (List.forall_mem_cons.2 ⟨hl, ho⟩)
    next => cases h
    next =>
      rw [List.forall_mem_cons] at ho
      exact ih h (allClean_append.2 ⟨ho.1, hl, trivial⟩) ho.2
    next => exact ih h (allClean_append.2 ⟨hl, trivial, trivial⟩) ho

end TokenTree

open Reading

variable {M : Type} [AddCommMonoid M] {L : Ledger M}

/-- What a tree amounts to: its names, and the words that its optional marks and the array
suffixes right behind a bare `*` stand for. -/
def TokenTree.total (L : Ledger M) (tree : TokenTree) : M :=
  (tree.names.map L.amount).sum + tree.optionals • L.ofOptional + tree.starSuffixes • L.ofSuffix

def TokenTree.totalAll (L : Ledger M) (trees : List TokenTree) : M :=
  ((namesAll trees).map L.amount).sum + optionalsAll trees • L.ofOptional
    + starSuffixesAll trees • L.ofSuffix

theorem TokenTree.totalAll_cons (tree : TokenTree) (rest : List TokenTree) :
    totalAll L (tree :: rest) = tree.total L + totalAll L rest := by
  rw [totalAll, total, totalAll, namesAll, optionalsAll, starSuffixesAll, List.map_append,
    List.sum_append, add_nsmul, add_nsmul]
  ac_rfl

theorem TokenTree.total_group (items : List TokenTree) : (group items).total L
    = totalAll L items + bareSuffixes takers false (items.map token?) • L.ofSuffix := by
  rw [totalAll, total, names, optionals, starSuffixes, add_nsmul]
  ac_rfl

/-- A token amounts to what the item is made of that it is read as. -/
theorem made_ofToken (t : Token) :
    Item.Made L (if t.kind = .name then .node (.leaf t.text) else .token t)
      ((TokenTree.token t).total L) := by
  rw [TokenTree.total, TokenTree.names, TokenTree.optionals, TokenTree.starSuffixes, zero_nsmul,
    add_zero]
  by_cases ht : t.kind = .name
  · simp only [ht, if_true, List.map_cons, List.map_nil, List.sum_cons, List.sum_nil, add_zero]
    simpa using Item.Made.node (L.laws.name t.text)
  · simp only [ht, if_false, List.map_nil, List.sum_nil, zero_add]
    have hmade := Item.Made.token (L := L) t
    rw [Ledger.ofToken] at hmade
    split at hmade
    next hk => rwa [if_pos hk, one_nsmul]
    next hk => rwa [if_neg hk, zero_nsmul]

mutual

theorem ensures_ofTree : ∀ tree : TokenTree, tree.IsClean →
    Ensures (Item.ofTree tree) fun i => Item.Made L i (tree.total L) ∧ i.place = tree.token?
  | .token t, _ => by
    refine ensures_pure ⟨made_ofToken t, ?_⟩
    split
    next ht => exact congrArg (fun kind => some (Token.mk kind t.text)) ht.symm
    next => rfl
  | .group items, h => (ensures_ofTrees items h).bind fun out hout => by
    rw [TokenTree.total_group, ← hout.2]
    exact Item.ensures_resolve hout.1

theorem ensures_ofTrees : ∀ trees : List TokenTree, TokenTree.AllClean trees →
    Ensures (Item.ofTrees trees) fun items =>
      Sums (Item.Made L) items (TokenTree.totalAll L trees)
        ∧ items.map Item.place = trees.map TokenTree.token?
  | [], _ => by
    have htotal : TokenTree.totalAll L [] = 0 := by
      simp [TokenTree.totalAll, TokenTree.namesAll, TokenTree.optionalsAll,
        TokenTree.starSuffixesAll]
    exact ensures_pure ⟨sums_nil_iff.2 htotal, rfl⟩
  | tree :: rest, h => by
    rw [TokenTree.totalAll_cons]
    exact (ensures_ofTree tree h.1).bind fun _ hi =>
      (ensures_ofTrees rest h.2).bind fun _ hs =>
        ensures_pure ⟨.cons hi.1 hs.1, by rw [List.map_cons, List.map_cons, hi.2, hs.2]⟩

end

/-- What is read from token trees is made of their names and of the words that are added. -/
theorem Node.ensures_ofTree {trees : List TokenTree} (h : TokenTree.AllClean trees) :
    Ensures (Node.ofTree trees) (L.made · ((TokenTree.group trees).total L)) := by
  refine (@StructuralTypes.ensures_ofTree M _ L (.group trees) h).bind fun i hi => ?_
  split
  · exact ensures_throw
  · exact ensures_ofExcept hi.1.asType

end StructuralTypes

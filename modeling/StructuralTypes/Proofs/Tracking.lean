import StructuralTypes.Proofs.Outcomes
import StructuralTypes.Proofs.Passes
import StructuralTypes.Proofs.Walk

/-! Where the items of a level get to. A pass leaves an item where it stands, with a colon
behind it or not as before, or makes it part of a type, and it makes types of nothing else. So
a name with a colon behind it in the end is a name that had one at first, a condition that holds
of a part of a type holds of the type that a whole annotation stands for, and a condition on all
shapes holds of that type if it holds of the bodies of all levels. -/

namespace StructuralTypes

/-! ### Conditions on parts -/

/-- A condition that a type has from its parts, and a chain of an operator from them only. -/
structure Node.Rising (P : Node → Prop) : Prop where
  part : ∀ {n part : Node}, part ∈ n.parts → P part → P n
  union : ∀ {members : List Node}, P (.union members) → ∃ m ∈ members, P m
  intersection : ∀ {members : List Node}, P (.intersection members) → ∃ m ∈ members, P m

/-- What some node of a type is, chains of operators aside, is such a condition. -/
theorem Node.rising_walk {holds : Node → Prop} (hu : ∀ members, ¬ holds (.union members))
    (hi : ∀ members, ¬ holds (.intersection members)) :
    Rising fun n => ∃ k ∈ n.walk, holds k where
  part {n part} hp := by
    rintro ⟨k, hk, h⟩
    have hs : n.isStray = false := by
      cases n with
      | stray s => cases hp
      | _ => rfl
    refine ⟨k, ?_, h⟩
    rw [walk_eq_cons hs]
    exact List.mem_cons_of_mem _ (List.mem_flatMap.2 ⟨part, hp, hk⟩)
  union {members} := by
    rintro ⟨k, hk, h⟩
    rw [walk_eq_cons rfl, List.mem_cons, List.mem_flatMap] at hk
    rcases hk with rfl | ⟨m, hm, hk⟩
    · exact absurd h (hu members)
    · exact ⟨m, hm, k, hk, h⟩
  intersection {members} := by
    rintro ⟨k, hk, h⟩
    rw [walk_eq_cons rfl, List.mem_cons, List.mem_flatMap] at hk
    rcases hk with rfl | ⟨m, hm, hk⟩
    · exact absurd h (hi members)
    · exact ⟨m, hm, k, hk, h⟩

/-- A condition on the shapes of a type. Shapes without properties have it. -/
structure Node.Pervading (P : Node → Prop) : Prop where
  leaf : ∀ name, P (.leaf name)
  empty : ∀ exact, P (.shape exact [] none)
  array : ∀ {element : Node}, P element → P (.array element)
  tuple : ∀ {elements : List Node}, (∀ e ∈ elements, P e) → P (.tuple elements)
  union : ∀ {members : List Node}, P (.union members) ↔ ∀ m ∈ members, P m
  intersection : ∀ {members : List Node}, P (.intersection members) ↔ ∀ m ∈ members, P m

/-- What all shapes of a type are is such a condition. -/
theorem Node.pervading_walk {holds : Node → Prop}
    (hother : ∀ n, (∀ exact ps ix, n ≠ .shape exact ps ix) → holds n)
    (hempty : ∀ exact, holds (.shape exact [] none)) :
    Pervading fun n => ∀ k ∈ n.walk, holds k where
  leaf name := by simpa [walk] using hother (.leaf name) (by simp)
  empty exact := by simpa [walk, walkProperties, walkIndexer] using hempty exact
  array h := (forall_mem_walk rfl).2 ⟨hother _ (by simp), by simpa [parts] using h⟩
  tuple h := (forall_mem_walk rfl).2 ⟨hother _ (by simp), h⟩
  union := (forall_mem_walk rfl).trans (and_iff_right (hother _ (by simp)))
  intersection := (forall_mem_walk rfl).trans (and_iff_right (hother _ (by simp)))

/-! ### Readings with results of a kind -/

namespace Reading

/-- Whatever a reading results in is of some kind; it may fail. -/
def Brings {α : Type} (r : Reading α) (P : α → Prop) : Prop :=
  ∀ warnings a, (r.run warnings).1 = .ok a → P a

variable {α β : Type} {P : α → Prop} {Q : β → Prop}

theorem brings_pure {a : α} (h : P a) : Brings (pure a) P := by
  rintro warnings b ⟨⟩
  exact h

theorem brings_throw {fault : Fault} : Brings (throw fault) P := by
  rintro warnings b ⟨⟩

theorem brings_ofExcept {e : Except Fault α} (h : ∀ a, e = .ok a → P a) :
    Brings (Reading.ofExcept e) P :=
  fun _ a ha => h a ha

theorem Brings.bind {r : Reading α} {f : α → Reading β} (h : Brings r P)
    (hf : ∀ a, P a → Brings (f a) Q) : Brings (r >>= f) Q := by
  intro warnings b hb
  rw [run_bind] at hb
  have hr := h warnings
  rcases hrun : r.run warnings with ⟨fault | a, added⟩ <;> rw [hrun] at hb hr
  · cases hb
  · exact hf a (hr a rfl) added b hb

theorem Brings.imp {r : Reading α} {P' : α → Prop} (h : Brings r P) (hP : ∀ a, P a → P' a) :
    Brings r P' :=
  fun warnings a ha => hP a (h warnings a ha)

end Reading

namespace Item

open Node Reading

/-! ### Items -/

/-- A condition holds of what an item comes to. -/
inductive Carries (P : Node → Prop) : Item → Prop
  | node {n : Node} (h : P n) : Carries P (node n)
  | group {item : Item} {items : List Item} (hm : item ∈ items) (h : Carries P item) :
    Carries P (group items)
  | body {ps : List Property} {ix : Option Indexer} (h : ∀ exact, P (.shape exact ps ix)) :
    Carries P (body ps ix)

variable {P : Node → Prop}

theorem Carries.of_node {n : Node} (h : Carries P (.node n)) : P n := by
  cases h
  assumption

theorem mem_asTypes {items : List Item} {ns : List Node} (h : asTypes items = .ok ns)
    {item : Item} (hm : item ∈ items) : ∃ n ∈ ns, item.asType = .ok n := by
  induction items generalizing ns with
  | nil => cases hm
  | cons first rest ih =>
    obtain ⟨n, hn, h⟩ := Outcome.ok_of_bind h
    obtain ⟨more, hmore, h⟩ := Outcome.ok_of_bind h
    cases h
    rcases List.mem_cons.1 hm with rfl | hm
    · exact ⟨n, List.mem_cons_self, hn⟩
    · obtain ⟨k, hk, hitem⟩ := ih hmore hm
      exact ⟨k, List.mem_cons_of_mem _ hk, hitem⟩

/-- An item that is read as a type has the conditions of its parts. -/
theorem Carries.asType (hP : Rising P) {item : Item} (h : Carries P item) :
    ∀ {n}, item.asType = .ok n → P n := by
  induction h with
  | node h =>
    rintro n ⟨⟩
    exact h
  | @group item items hm h ih =>
    intro n hn
    match items with
    | [] => cases hm
    | [one] =>
      obtain rfl := List.mem_singleton.1 hm
      exact ih hn
    | first :: second :: rest =>
      obtain ⟨ns, hns, hunion⟩ := Outcome.ok_of_bind hn
      cases hunion
      obtain ⟨k, hk, hitem⟩ := mem_asTypes hns hm
      exact hP.part hk (ih hitem)
  | body h =>
    intro n hn
    cases hn

theorem Carries.mem_asTypes (hP : Rising P) {item : Item} (h : Carries P item)
    {items : List Item} (hm : item ∈ items) {ns : List Node} (hns : asTypes items = .ok ns) :
    ∃ n ∈ ns, P n := by
  obtain ⟨n, hn, hitem⟩ := Item.mem_asTypes hns hm
  exact ⟨n, hn, h.asType hP hitem⟩

theorem Carries.asElements (hP : Rising P) {item : Item} (h : Carries P item) {ns : List Node}
    (hns : item.asElements = .ok ns) : ∃ n ∈ ns, P n := by
  have hone : ∀ {item : Item}, Carries P item → (do return [← item.asType]) = Except.ok ns →
      ∃ n ∈ ns, P n := by
    intro item h hns
    obtain ⟨n, hn, hns⟩ := Outcome.ok_of_bind hns
    cases hns
    exact ⟨n, List.mem_singleton_self n, h.asType hP hn⟩
  cases h with
  | node h => exact hone (.node h) hns
  | @group item items hm h =>
    cases items with
    | nil => cases hm
    | cons first rest => exact h.mem_asTypes hP hm hns
  | body h => exact hone (.body h) hns

theorem Carries.asShape {item : Item} (h : Carries P item) {exact : Bool} {n : Node}
    (hn : item.asShape exact = .ok n) : P n := by
  cases h with
  | node h => cases hn
  | @group item items hm h =>
    cases items with
    | nil => cases hm
    | cons first rest => cases hn
  | body h =>
    cases hn
    exact h exact

/-- A condition holds of all that an item comes to. -/
inductive Sound (P : Node → Prop) : Item → Prop
  | token (t : Token) : Sound P (token t)
  | stray (v : Value) : Sound P (stray v)
  | node {n : Node} (h : P n) : Sound P (node n)
  | group {items : List Item} (h : ∀ i ∈ items, Sound P i) : Sound P (group items)
  | body {ps : List Property} {ix : Option Indexer} (h : ∀ exact, P (.shape exact ps ix)) :
    Sound P (body ps ix)

theorem Sound.of_node {n : Node} (h : Sound P (.node n)) : P n := by
  cases h
  assumption

theorem Sound.of_group {items : List Item} (h : Sound P (.group items)) :
    ∀ i ∈ items, Sound P i := by
  cases h
  assumption

theorem forall_mem_asTypes {items : List Item} {ns : List Node} (h : asTypes items = .ok ns)
    (hi : ∀ i ∈ items, ∀ {n}, i.asType = .ok n → P n) : ∀ n ∈ ns, P n := by
  induction items generalizing ns with
  | nil =>
    cases h
    simp
  | cons first rest ih =>
    obtain ⟨n, hn, h⟩ := Outcome.ok_of_bind h
    obtain ⟨more, hmore, h⟩ := Outcome.ok_of_bind h
    cases h
    rw [List.forall_mem_cons] at hi
    exact List.forall_mem_cons.2 ⟨hi.1 hn, ih hmore hi.2⟩

/-- An item that is read as a type is made of nothing else. -/
theorem Sound.asType (hP : Pervading P) {item : Item} (h : Sound P item) :
    ∀ {n}, item.asType = .ok n → P n := by
  induction h with
  | token t => nofun
  | stray v => nofun
  | node h =>
    rintro n ⟨⟩
    exact h
  | @group items h ih =>
    intro n hn
    match items with
    | [] => cases hn
    | [one] => exact ih one List.mem_cons_self hn
    | first :: second :: rest =>
      obtain ⟨ns, hns, hunion⟩ := Outcome.ok_of_bind hn
      cases hunion
      exact hP.union.2 (forall_mem_asTypes hns ih)
  | body h => nofun

theorem Sound.asElements (hP : Pervading P) {item : Item} (h : Sound P item) {ns : List Node}
    (hns : item.asElements = .ok ns) : ∀ n ∈ ns, P n := by
  have hone : (do return [← item.asType]) = Except.ok ns → ∀ n ∈ ns, P n := by
    intro hns
    obtain ⟨n, hn, hns⟩ := Outcome.ok_of_bind hns
    cases hns
    simpa using h.asType hP hn
  cases item with
  | group items =>
    cases items with
    | nil => cases hns
    | cons first rest => exact forall_mem_asTypes hns fun i hi _ hn => (h.of_group i hi).asType hP hn
  | _ => exact hone hns

theorem Sound.asShape (hP : Pervading P) {item : Item} (h : Sound P item) {exact : Bool} {n : Node}
    (hn : item.asShape exact = .ok n) : P n := by
  cases h with
  | token t => cases hn
  | stray v => cases hn
  | node h => cases hn
  | @group items h =>
    cases items with
    | nil =>
      cases hn
      exact hP.empty exact
    | cons first rest => cases hn
  | body h =>
    cases hn
    exact h exact

/-- A type that is made of items and nothing else. -/
def Formed (items : List Item) (n : Node) : Prop :=
  ∀ P, Pervading P → (∀ i ∈ items, Sound P i) → P n

/-- A type that an item is made part of: it has the conditions of the item, and is no name. -/
def Absorbs (item : Item) (n : Node) : Prop :=
  n.isLeaf = false ∧ ∀ P, Rising P → Carries P item → P n

/-- A type that is made of one item. -/
def Wraps (item : Item) (n : Node) : Prop :=
  Absorbs item n ∧ Formed [item] n

theorem Formed.of_asType {item : Item} {n : Node} (h : item.asType = .ok n) : Formed [item] n :=
  fun _ hP hs => (hs item List.mem_cons_self).asType hP h

theorem wraps_array {item : Item} {n : Node} (h : item.asType = .ok n) : Wraps item (.array n) :=
  ⟨⟨rfl, fun _ hP hc => hP.part List.mem_cons_self (hc.asType hP h)⟩,
    fun P hP hs => hP.array (Formed.of_asType h P hP hs)⟩

theorem brings_readShape (exact : Bool) (item : Item) :
    Brings (readShape exact item) (Wraps item) := by
  have hshape : ∀ n, item.asShape exact = .ok n → Wraps item n := by
    intro n hn
    refine ⟨⟨?_, fun _ _ hc => hc.asShape hn⟩, fun P hP hs =>
      (hs item List.mem_cons_self).asShape hP hn⟩
    cases item with
    | group items => cases items <;> cases hn; rfl
    | body ps ix => cases hn; rfl
    | _ => cases hn
  refine (brings_ofExcept hshape).bind fun n hn => ?_
  split
  · have hwarn : Brings (Reading.warn .exactShapeIndexer) fun _ => True := fun _ _ _ => trivial
    exact hwarn.bind fun _ _ => brings_pure hn
  · exact brings_pure hn

theorem brings_readArray (item : Item) : Brings (readArray item) (Wraps item) :=
  (brings_ofExcept fun _ h => wraps_array h).bind fun _ hn => brings_pure hn

theorem brings_readTuple (item : Item) : Brings (readTuple item) (Wraps item) := by
  have htuple : ∀ ns, item.asElements = .ok ns → Wraps item (.tuple ns) := by
    intro ns hns
    refine ⟨⟨rfl, fun _ hP hc => ?_⟩, fun P hP hs =>
      hP.tuple ((hs item List.mem_cons_self).asElements hP hns)⟩
    obtain ⟨n, hn, h⟩ := hc.asElements hP hns
    exact hP.part hn h
  exact (brings_ofExcept htuple).bind fun _ hn => brings_pure hn

theorem brings_readOptional (item : Item) : Brings (readOptional item) (Wraps item) := by
  have hunion : ∀ n, item.asType = .ok n → Wraps item (.union [.leaf "null", n]) :=
    fun n hn => ⟨⟨rfl, fun _ hP hc => hP.part (by simp [parts]) (hc.asType hP hn)⟩,
      fun P hP hs => hP.union.2 (by
        simpa using ⟨hP.leaf "null", Formed.of_asType hn P hP hs⟩)⟩
  exact (brings_ofExcept hunion).bind fun _ hn => brings_pure hn

/-! ### Colons -/

/-- Whether a colon comes next, commas aside. -/
def colonNext (items : List Item) : Bool :=
  (items.dropWhile (isKind .comma)).head?.any (isKind .colon)

theorem colonNext_comma {item : Item} (h : item.isKind .comma = true) (rest : List Item) :
    colonNext (item :: rest) = colonNext rest := by
  rw [colonNext, List.dropWhile_cons_of_pos h, colonNext]

theorem colonNext_cons {item : Item} (h : item.isKind .comma = false) (rest : List Item) :
    colonNext (item :: rest) = item.isKind .colon := by
  rw [colonNext, List.dropWhile_cons_of_neg (by simp [h])]
  rfl

/-- Neither a comma nor a colon. -/
def IsPlain (item : Item) : Prop :=
  item.isKind .comma = false ∧ item.isKind .colon = false

theorem isPlain_of_isToken {item : Item} (h : item.isToken = false) : item.IsPlain := by
  cases item with
  | token t => cases h
  | _ => exact ⟨rfl, rfl⟩

theorem isPlain_of_kind {t : Token} {kind : TokenKind} (h : t.kind = kind)
    (hc : kind ≠ .comma) (hc' : kind ≠ .colon) : (token t).IsPlain := by
  constructor <;> simp [isKind, h, hc, hc']

theorem IsPlain.colonNext_eq {item : Item} (h : item.IsPlain) (rest : List Item) :
    colonNext (item :: rest) = false := by
  rw [colonNext_cons h.1, h.2]

/-! ### Places -/

/-- What an item with a colon next or not becomes in some passes, and whether a colon is next
then: the item as it was, or a type that it is part of. -/
inductive Becomes (item : Item) (colon : Bool) : Item → Bool → Prop
  | same : Becomes item colon item colon
  | part {n : Node} {colon' : Bool} (h : Absorbs item n) (hc : colon = true → colon' = true) :
    Becomes item colon (node n) colon'

theorem Becomes.trans {i j k : Item} {a b c : Bool} (h : Becomes i a j b)
    (h' : Becomes j b k c) : Becomes i a k c := by
  cases h with
  | same => exact h'
  | part hn hab =>
    cases h' with
    | same => exact .part hn hab
    | part hm hbc =>
      exact .part ⟨hm.1, fun P hP hc => hm.2 P hP (.node (hn.2 P hP hc))⟩ fun ha => hbc (hab ha)

theorem Becomes.isToken {i j : Item} {a b : Bool} (h : Becomes i a j b)
    (hi : i.isToken = false) : j.isToken = false := by
  cases h with
  | same => exact hi
  | part => rfl

/-- Only a name becomes a name, and what is next to it stays. -/
theorem Becomes.eq_leaf {i : Item} {a b : Bool} {name : String}
    (h : Becomes i a (.node (.leaf name)) b) : i = .node (.leaf name) ∧ b = a := by
  cases h with
  | same => exact ⟨rfl, rfl⟩
  | part h => cases h.1

theorem Becomes.colon {i j : Item} {a b : Bool} (h : Becomes i a j b) (ha : a = true) :
    b = true := by
  cases h with
  | same => exact ha
  | part _ hc => exact hc ha

theorem Becomes.carries {P : Node → Prop} {i j : Item} {a b : Bool} (h : Becomes i a j b)
    (hP : Rising P) (hc : Carries P i) : Carries P j := by
  cases h with
  | same => exact hc
  | part h => exact .node (h.2 P hP hc)

/-- Where an item comes from that has a colon next or not: it was there, or it is a type made
of what was there. The word for arrays is put in for a suffix. -/
inductive Stems (items : List Item) : Item → Bool → Prop
  | same {xs ys : List Item} {i : Item} {colon : Bool} (h : items = xs ++ i :: ys)
    (hc : colonNext ys = colon) : Stems items i colon
  | made {n : Node} {colon : Bool} (hleaf : ∀ name, n = .leaf name → name = "array")
    (h : Formed items n) : Stems items (node n) colon

theorem Formed.mono {items more : List Item} {n : Node} (h : Formed items n)
    (hsub : items ⊆ more) : Formed more n :=
  fun P hP hs => h P hP fun i hi => hs i (hsub hi)

theorem Stems.cons {items : List Item} {o : Item} {colon : Bool} (h : Stems items o colon)
    (item : Item) : Stems (item :: items) o colon := by
  cases h with
  | @same xs _ _ _ h hc => exact @Stems.same _ (item :: xs) _ _ _ (by rw [h, List.cons_append]) hc
  | made hleaf h => exact .made hleaf (h.mono (List.subset_cons_self _ _))

theorem Stems.sound {P : Node → Prop} {items : List Item} {o : Item} {colon : Bool}
    (h : Stems items o colon) (hP : Pervading P) (hs : ∀ i ∈ items, Sound P i) : Sound P o := by
  cases h with
  | same h _ => exact hs o (by simp [h])
  | made hleaf h => exact .node (h P hP hs)

/-- Every item that is no token is in its place, or part of a type that is, and no other item
is there. -/
structure Tracks (items out : List Item) : Prop where
  next : colonNext out = colonNext items
  item : ∀ {xs : List Item} {i : Item} {ys : List Item}, items = xs ++ i :: ys →
    i.isToken = false →
      ∃ xs' o ys', out = xs' ++ o :: ys' ∧ Becomes i (colonNext ys) o (colonNext ys')
  origin : ∀ {xs' : List Item} {o : Item} {ys' : List Item}, out = xs' ++ o :: ys' →
    Stems items o (colonNext ys')

theorem Tracks.refl (items : List Item) : Tracks items items :=
  ⟨rfl, fun h _ => ⟨_, _, _, h, .same⟩, fun h => .same h rfl⟩

variable {items out rest : List Item}

theorem Tracks.sound {P : Node → Prop} (h : Tracks items out) (hP : Pervading P)
    (hs : ∀ i ∈ items, Sound P i) : ∀ o ∈ out, Sound P o := by
  intro o ho
  obtain ⟨xs, ys, hout⟩ := List.append_of_mem ho
  exact (h.origin hout).sound hP hs

theorem Tracks.trans {final : List Item} (h : Tracks items out) (h' : Tracks out final) :
    Tracks items final := by
  refine ⟨h'.next.trans h.next, fun heq hi => ?_, fun heq => ?_⟩
  · obtain ⟨xs, o, ys, hout, ho⟩ := h.item heq hi
    obtain ⟨xs', o', ys', hfinal, ho'⟩ := h'.item hout (ho.isToken hi)
    exact ⟨xs', o', ys', hfinal, ho.trans ho'⟩
  · cases h'.origin heq with
    | same hout hc => exact hc ▸ h.origin hout
    | made hleaf hn => exact .made hleaf fun P hP hs => hn P hP (h.sound hP hs)

/-- An item that stays in front. -/
theorem Tracks.cons (item : Item) (h : Tracks rest out) : Tracks (item :: rest) (item :: out) := by
  constructor
  · by_cases hc : item.isKind .comma = true
    · rw [colonNext_comma hc, colonNext_comma hc, h.next]
    · rw [colonNext_cons (by simpa using hc), colonNext_cons (by simpa using hc)]
  · intro xs i ys heq hi
    cases xs with
    | nil =>
      cases heq
      exact ⟨[], item, out, rfl, h.next ▸ .same⟩
    | cons x xs =>
      obtain ⟨rfl, hrest⟩ := List.cons.inj heq
      obtain ⟨xs', o, ys', rfl, ho⟩ := h.item hrest hi
      exact ⟨item :: xs', o, ys', rfl, ho⟩
  · intro xs' o ys' heq
    cases xs' with
    | nil =>
      cases heq
      exact @Stems.same _ [] _ _ _ rfl h.next.symm
    | cons x xs' =>
      obtain ⟨rfl, hrest⟩ := List.cons.inj heq
      exact (h.origin hrest).cons _

theorem Tracks.append_left (front : List Item) (h : Tracks rest out) :
    Tracks (front ++ rest) (front ++ out) := by
  induction front with
  | nil => exact h
  | cons item front ih => exact ih.cons item

/-- A new item in front, and what was there behind it. -/
theorem Tracks.origin_cons {merged : List Item} {n : Node} {xs' : List Item} {o : Item}
    {ys' : List Item} (hleaf : ∀ name, n = .leaf name → name = "array")
    (hn : Formed (merged ++ rest) n) (heq : node n :: rest = xs' ++ o :: ys') :
    Stems (merged ++ rest) o (colonNext ys') := by
  cases xs' with
  | nil =>
    cases heq
    exact .made hleaf hn
  | cons x xs' =>
    obtain ⟨rfl, rfl⟩ := List.cons.inj heq
    exact .same (List.append_assoc _ _ _).symm rfl

/-- A token in front that the word for arrays is put in for. -/
theorem tracks_token {t : Token} (h : (token t).IsPlain) (rest : List Item) :
    Tracks (token t :: rest) (node (.leaf "array") :: rest) := by
  refine ⟨?_, fun {xs i ys} heq hi => ?_, fun heq => @Tracks.origin_cons rest [token t] _ _ _ _
    (fun name hname => (Node.leaf.inj hname).symm) (fun P hP _ => hP.leaf _) heq⟩
  · rw [h.colonNext_eq, (isPlain_of_isToken rfl).colonNext_eq]
  · cases xs with
    | nil =>
      cases heq
      cases hi
    | cons x xs =>
      obtain ⟨rfl, rfl⟩ := List.cons.inj heq
      exact ⟨node (.leaf "array") :: xs, i, ys, rfl, .same⟩

/-- Items in front that become one type, made of them. -/
theorem tracks_merge {merged : List Item} {n : Node} (hne : merged ≠ [])
    (hplain : ∀ i ∈ merged, i.IsPlain)
    (habsorbs : ∀ i ∈ merged, i.isToken = false → Absorbs i n) (hleaf : n.isLeaf = false)
    (hformed : Formed merged n) (rest : List Item) :
    Tracks (merged ++ rest) (node n :: rest) := by
  refine ⟨?_, fun {xs i ys} heq hi => ?_, Tracks.origin_cons ?_
    (hformed.mono (List.subset_append_left _ _))⟩
  · obtain ⟨first, more, rfl⟩ := List.exists_cons_of_ne_nil hne
    rw [List.cons_append, (hplain first List.mem_cons_self).colonNext_eq,
      (isPlain_of_isToken rfl).colonNext_eq]
  · rcases List.append_eq_append_iff.1 heq with ⟨more, rfl, rfl⟩ | ⟨more, rfl, hys⟩
    · exact ⟨node n :: more, i, ys, rfl, .same⟩
    · cases more with
      | nil =>
        obtain rfl : i :: ys = rest := hys
        exact ⟨[node n], i, ys, rfl, .same⟩
      | cons m more =>
        obtain ⟨rfl, rfl⟩ := List.cons.inj hys
        refine ⟨[], node n, rest, rfl, .part (habsorbs i (by simp) hi) fun hc => ?_⟩
        cases more with
        | nil => exact hc
        | cons k more =>
          have hnext : colonNext (k :: (more ++ rest)) = false :=
            (hplain k (by simp)).colonNext_eq _
          exact absurd (hnext.symm.trans hc) (by decide)
  · rintro name rfl
    cases hleaf

/-- An item that becomes a type together with a token next to it. -/
theorem Wraps.tracks {item : Item} {t : Token} {n : Node} {merged : List Item}
    (hn : Wraps item n) (hi : item.isToken = false) (ht : (token t).IsPlain)
    (hmerged : merged.Perm [token t, item]) (rest : List Item) :
    Tracks (merged ++ rest) (node n :: rest) := by
  have hmem : ∀ {Q : Item → Prop}, Q (token t) → Q item → ∀ i ∈ merged, Q i := by
    intro Q htoken hitem i hi
    obtain rfl | rfl := List.mem_pair.1 (hmerged.subset hi)
    · exact htoken
    · exact hitem
  refine tracks_merge ?_ (hmem ht (isPlain_of_isToken hi)) (hmem nofun fun _ => hn.1) hn.1.1 ?_
    rest
  · rintro rfl
    cases hmerged.length_eq
  · exact hn.2.mono (by simpa using hmerged.symm.subset (List.mem_cons_of_mem _ (by simp)))

/-! ### Passes -/

theorem tracks_resolvePrefix {kind : TokenKind} {read : Item → Reading Node}
    (hcomma : kind ≠ .comma) (hcolon : kind ≠ .colon)
    (hread : ∀ operand, Brings (read operand) (Wraps operand)) :
    ∀ items, Brings (resolvePrefix kind read items) (Tracks items) := by
  refine resolvePrefix_induction (motive := fun items r => Brings r (Tracks items))
    (brings_pure (.refl [])) brings_throw (fun {item rest r} _ ih => ?_)
    fun {t operand rest r} ht ho ih => ?_
  · exact ih.bind fun out hout => brings_pure (hout.cons item)
  · refine (hread operand).bind fun n hn => ih.bind fun out hout => brings_pure ?_
    have hplain : (token t).IsPlain := isPlain_of_kind ht hcomma hcolon
    exact (hn.tracks (isToken_eq_false ho) hplain (.refl _) rest).trans (hout.cons (node n))

/-- An item with a suffix behind it becomes an array. -/
theorem tracks_suffix {item : Item} {t : Token} {n : Node} (hi : item.isToken = false)
    (ht : t.kind = .arraySuffix) (hn : item.asType = .ok n) (rest : List Item) :
    Tracks (item :: token t :: rest) (node (.array n) :: rest) :=
  (wraps_array hn).tracks hi (isPlain_of_kind ht (by decide) (by decide)) (.swap _ _ []) rest

theorem tracks_resolveSuffixes {last : Option Item}
    (h : resolveSuffixes last items = .ok out) : Tracks (last.toList ++ items) out := by
  induction items generalizing last out with
  | nil =>
    cases h
    rw [List.append_nil]
    exact .refl _
  | cons item rest ih =>
    obtain ⟨-, more, hmore, rfl⟩ | ⟨t, previous, rfl, ht, rfl, hp, hwrap⟩ := resolveSuffixes_cases h
    · exact .append_left _ (ih hmore)
    · obtain ⟨rfl, more, hmore, rfl⟩ | ⟨n, hn, h⟩ := hwrap
      · have hplain : (token t).IsPlain := isPlain_of_kind ht (by decide) (by decide)
        exact .cons _ ((tracks_token hplain rest).trans (ih hmore))
      · exact (tracks_suffix hp ht hn rest).trans (ih h)

section Fold

variable {kind : TokenKind} {make : List Node → Node} (hcomma : kind ≠ .comma)
  (hcolon : kind ≠ .colon) (hleaf : ∀ members, (make members).isLeaf = false)
  (hmember : ∀ {P : Node → Prop} {members : List Node} {m : Node}, Rising P → m ∈ members →
    P m → P (make members))
  (hchain : ∀ {P : Node → Prop} {members : List Node}, Rising P → P (make members) →
    ∃ m ∈ members, P m)
  (hmake : ∀ {P : Node → Prop} {members : List Node}, Pervading P →
    (P (make members) ↔ ∀ m ∈ members, P m))

section Pending

include hmake

/-- The pending operand is all that the chain is made of so far. -/
theorem formed_pending {pending : Pending} {operator : String} {members : List Node}
    (h : pending.members operator = .ok members) :
    ∀ m ∈ members, Formed (pending.flush make) m := by
  have hone : ∀ {i : Item}, (do return [← i.asType]) = Except.ok members →
      ∀ m ∈ members, Formed [i] m := by
    intro i h
    obtain ⟨m, hm, h⟩ := Outcome.ok_of_bind h
    cases h
    simpa using Formed.of_asType hm
  cases pending with
  | nothing => cases h
  | item i =>
    cases i with
    | token t => cases h
    | _ => exact hone h
  | chain ms =>
    cases h
    exact fun m hm P hP hs => (hmake hP).1 (hs _ List.mem_cons_self).of_node m hm

end Pending

include hleaf hmember hchain

/-- The pending operand becomes part of the chain that an operator makes of it. -/
theorem absorbs_pending {pending : Pending} {operator : String} {members : List Node}
    (h : pending.members operator = .ok members) (n : Node) :
    ∀ i ∈ pending.flush make, i.isToken = false ∧ Absorbs i (make (members ++ [n])) := by
  have hone : ∀ {i : Item}, i.isToken = false → (do return [← i.asType]) = Except.ok members →
      i.isToken = false ∧ Absorbs i (make (members ++ [n])) := by
    intro i hi h
    obtain ⟨m, hm, h⟩ := Outcome.ok_of_bind h
    cases h
    exact ⟨hi, hleaf _, fun P hP hc => hmember hP (by simp) (hc.asType hP hm)⟩
  cases pending with
  | nothing => cases h
  | item i =>
    intro j hj
    obtain rfl := List.mem_singleton.1 hj
    cases j with
    | token t => cases h
    | _ => exact hone rfl h
  | chain ms =>
    cases h
    intro j hj
    obtain rfl := List.mem_singleton.1 hj
    refine ⟨rfl, hleaf _, fun P hP hc => ?_⟩
    obtain ⟨m, hm, hp⟩ := hchain hP hc.of_node
    exact hmember hP (List.mem_append_left _ hm) hp

include hcomma hcolon hmake

/-- A pending operand, an operator and its right operand become one chain. -/
theorem tracks_chain {pending : Pending} {t : Token} {operand : Item} {members : List Node}
    {n : Node} (ht : t.kind = kind) (hm : pending.members t.text = .ok members)
    (ho : operand.isToken = false) (hn : operand.asType = .ok n) (rest : List Item) :
    Tracks (pending.flush make ++ token t :: operand :: rest)
      (node (make (members ++ [n])) :: rest) := by
  have hpending := absorbs_pending hleaf hmember hchain hm n
  have hplain : (token t).IsPlain := isPlain_of_kind ht hcomma hcolon
  have hlast : Absorbs operand (make (members ++ [n])) :=
    ⟨hleaf _, fun P hP hc => hmember hP (by simp) (hc.asType hP hn)⟩
  have hmerge := @tracks_merge (pending.flush make ++ [token t, operand])
    (make (members ++ [n])) (by simp) ?_ ?_ (hleaf _) ?_ rest
  · rwa [List.append_assoc] at hmerge
  · intro i hi
    rw [List.mem_append, List.mem_pair] at hi
    rcases hi with hi | rfl | rfl
    · exact isPlain_of_isToken (hpending i hi).1
    · exact hplain
    · exact isPlain_of_isToken ho
  · intro i hi htoken
    rw [List.mem_append, List.mem_pair] at hi
    rcases hi with hi | rfl | rfl
    · exact (hpending i hi).2
    · cases htoken
    · exact hlast
  · refine fun P hP hs => (hmake hP).2 fun m hmem => ?_
    rw [List.forall_mem_append] at hs
    rw [List.mem_append, List.mem_singleton] at hmem
    rcases hmem with hmem | rfl
    · exact formed_pending hmake hm m hmem P hP hs.1
    · exact (hs.2 operand (by simp)).asType hP hn

theorem tracks_foldOperator : ∀ {items : List Item} {pending : Pending} {out : List Item},
    foldOperator kind make pending items = .ok out → Tracks (pending.flush make ++ items) out
  | [], pending, out, h => by
    cases h
    rw [List.append_nil]
    exact .refl _
  | item :: rest, pending, out, h => by
    obtain ⟨-, more, hmore, rfl⟩ | ⟨t, operand, behind, members, n, rfl, ht, rfl, ho, hm, hn, h⟩ :=
      foldOperator_cases h
    · exact .append_left _ (tracks_foldOperator hmore)
    · exact (tracks_chain hcomma hcolon hleaf hmember hchain hmake ht hm ho hn behind).trans
        (tracks_foldOperator h)

end Fold

end Item

end StructuralTypes

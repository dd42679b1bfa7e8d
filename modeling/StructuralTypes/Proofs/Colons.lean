import StructuralTypes.Proofs.Canonical
import StructuralTypes.Proofs.Grouping
import StructuralTypes.Proofs.Tracking

/-! What a name means by the colon behind it. A quoted name with a colon next becomes a key of
the shape it stands in, and any other name without one a leaf, whatever stands around it and
however deep it is nested. The tokens of an annotation are followed to the level that they
are in, through the passes over it, and up to the type of the whole annotation. -/

namespace StructuralTypes

namespace Item

open Node Reading

/-! ### Entries -/

section Entries

variable {current : Option (String × List Item)} {xs ys : List Item} {item : Item}
  {name : String} {values : List Item} {es : List (String × List Item)}

/-- An item is a colon, the name of an entry that begins, or one more value of an entry. -/
theorem entries_cases (h : entries current (item :: ys) = .ok es) :
    (item.isKind .colon = true ∧ entries current ys = .ok es)
      ∨ (item.isKind .colon = false ∧ beginsWith .colon ys = true ∧
        ∃ name others, item = node (.leaf name) ∧ entries (some (name, [])) ys = .ok others
          ∧ es = current.toList ++ others)
      ∨ (item.isKind .colon = false ∧ beginsWith .colon ys = false ∧
        ∃ name values, current = some (name, values)
          ∧ entries (some (name, values ++ [item])) ys = .ok es) := by
  have hbegins : (ys.head?.map (isKind .colon)).getD false = beginsWith .colon ys := by
    cases ys <;> rfl
  rw [entries.eq_def] at h
  simp only [hbegins] at h
  by_cases hc : item.isKind .colon = true
  · rw [if_pos hc] at h
    exact .inl ⟨hc, h⟩
  · rw [if_neg hc] at h
    rw [Bool.not_eq_true] at hc
    by_cases hb : beginsWith .colon ys = true
    · rw [if_pos hb] at h
      split at h
      · rename_i name
        obtain ⟨others, hothers, h⟩ := Outcome.ok_of_bind h
        cases h
        exact .inr (.inl ⟨hc, hb, name, others, rfl, hothers, rfl⟩)
      · cases h
    · rw [if_neg hb] at h
      rw [Bool.not_eq_true] at hb
      split at h
      · cases h
      · exact .inr (.inr ⟨hc, hb, _, _, rfl, h⟩)

/-- The entry being filled is kept, with what is still added to it. -/
theorem entries_current (h : entries (some (name, values)) ys = .ok es) :
    ∃ more, (name, values ++ more) ∈ es := by
  induction ys generalizing values with
  | nil =>
    cases h
    exact ⟨[], by simp⟩
  | cons item rest ih =>
    obtain ⟨-, h⟩ | ⟨-, -, name', others, -, -, rfl⟩ | ⟨-, -, _, _, hcurrent, h⟩ :=
      entries_cases h
    · exact ih h
    · exact ⟨[], by simp⟩
    · cases hcurrent
      obtain ⟨more, hmore⟩ := ih h
      exact ⟨item :: more, by simpa using hmore⟩

/-- What comes last is read into entries, whatever was read before. -/
theorem entries_append (h : entries current (xs ++ ys) = .ok es) :
    ∃ current' es', entries current' ys = .ok es' ∧ es' ⊆ es := by
  induction xs generalizing current es with
  | nil => exact ⟨current, es, h, fun _ he => he⟩
  | cons item rest ih =>
    obtain ⟨-, h⟩ | ⟨-, -, name, others, -, hothers, rfl⟩ | ⟨-, -, _, _, -, h⟩ :=
      entries_cases h
    · exact ih h
    · obtain ⟨current', es', hes, hsub⟩ := ih hothers
      exact ⟨current', es', hes, fun _ he => List.mem_append_right _ (hsub he)⟩
    · exact ih h

/-- What stands right before a colon is the name of an entry. -/
theorem exists_entry_name (h : entries current (xs ++ item :: ys) = .ok es)
    (hi : item.isKind .colon = false) (hnext : beginsWith .colon ys = true) :
    ∃ name values, item = node (.leaf name) ∧ (name, values) ∈ es := by
  obtain ⟨current', es', h, hsub⟩ := entries_append h
  obtain ⟨hc, -⟩ | ⟨-, -, name, others, rfl, hothers, rfl⟩ | ⟨-, hb, -⟩ := entries_cases h
  · exact absurd (hi.symm.trans hc) (by decide)
  · obtain ⟨values, hvalues⟩ := entries_current hothers
    exact ⟨name, _, rfl, hsub (List.mem_append_right _ hvalues)⟩
  · exact absurd (hb.symm.trans hnext) (by decide)

/-- What has no colon right behind it is a value of an entry. -/
theorem exists_entry_value (h : entries current (xs ++ item :: ys) = .ok es)
    (hi : item.isKind .colon = false) (hnext : beginsWith .colon ys = false) :
    ∃ name values, (name, values) ∈ es ∧ item ∈ values := by
  obtain ⟨current', es', h, hsub⟩ := entries_append h
  obtain ⟨hc, -⟩ | ⟨-, hb, -⟩ | ⟨-, -, name, values, -, h⟩ := entries_cases h
  · exact absurd (hi.symm.trans hc) (by decide)
  · exact absurd (hnext.symm.trans hb) (by decide)
  · obtain ⟨more, hmore⟩ := entries_current h
    exact ⟨name, _, hsub hmore, by simp⟩

end Entries

/-! ### Bodies -/

/-- An entry is a property of a body, or its indexer. -/
def IsEntered (ps : List Property) (ix : Option Indexer) (e : String × List Item) : Prop :=
  ∃ value, entryType e.1 e.2 = .ok value ∧
    (.mk (keyText e.1) value (hasOptionalMark e.1) ∈ ps
        ∧ (Escapes.quoted? e.1.toList).isSome = true
      ∨ ix = some (.mk (.leaf e.1) value) ∧ (Escapes.quoted? e.1.toList).isSome = false)

/-- All entries get into the body. -/
theorem addEntries_body {es : List (String × List Item)} {ps : List Property}
    {ix : Option Indexer} {r : Item} (h : addEntries ps ix es = .ok r) :
    ∃ ps' ix', r = body ps' ix' ∧ ps ⊆ ps' ∧ (∀ i, ix = some i → ix' = some i)
      ∧ ∀ e ∈ es, IsEntered ps' ix' e := by
  induction es generalizing ps ix with
  | nil =>
    cases h
    exact ⟨ps, ix, rfl, fun _ hp => hp, fun _ hi => hi, fun _ he => absurd he (by simp)⟩
  | cons e rest ih =>
    obtain ⟨name, items⟩ := e
    rw [addEntries] at h
    obtain ⟨value, hv, h⟩ := Outcome.ok_of_bind h
    by_cases hq : (Escapes.quoted? name.toList).isSome = true
    · rw [if_pos hq] at h
      split at h
      · cases h
      · obtain ⟨ps', ix', rfl, hps, hix, hrest⟩ := ih h
        refine ⟨ps', ix', rfl, fun _ hp => hps (List.mem_append_left _ hp), hix, ?_⟩
        refine List.forall_mem_cons.2 ⟨⟨value, hv, .inl ⟨hps ?_, hq⟩⟩, hrest⟩
        exact List.mem_append_right _ (List.mem_singleton_self _)
    · rw [if_neg hq] at h
      rw [Bool.not_eq_true] at hq
      split at h
      · cases h
      · rename_i hnone
        obtain ⟨ps', ix', rfl, hps, hix, hrest⟩ := ih h
        refine ⟨ps', ix', rfl, hps, fun i hi => absurd (hi ▸ rfl) hnone, ?_⟩
        exact List.forall_mem_cons.2 ⟨⟨value, hv, .inr ⟨hix _ rfl, hq⟩⟩, hrest⟩

/-- The type of an entry has the conditions of its values. -/
theorem Carries.entryType {P : Node → Prop} (hP : Rising P) {item : Item} (hc : Carries P item)
    {name : String} {values : List Item} (hm : item ∈ values) {n : Node}
    (h : entryType name values = .ok n) : P n := by
  match values with
  | [] => cases hm
  | [one] =>
    obtain rfl := List.mem_singleton.1 hm
    exact hc.asType hP h
  | first :: second :: rest =>
    obtain ⟨ns, hns, h⟩ := Outcome.ok_of_bind h
    cases h
    obtain ⟨k, hk, hp⟩ := hc.mem_asTypes hP hm hns
    exact hP.part hk hp

/-- A body has the conditions of the values of its entries. -/
theorem Carries.body_of_value {P : Node → Prop} (hP : Rising P) {item : Item}
    (hc : Carries P item) {ps : List Property} {ix : Option Indexer} {e : String × List Item}
    (he : IsEntered ps ix e) (hm : item ∈ e.2) : Carries P (Item.body ps ix) := by
  obtain ⟨value, hv, ⟨hp, -⟩ | ⟨rfl, -⟩⟩ := he
  · refine .body fun exact => hP.part ?_ (hc.entryType hP hm hv)
    exact List.mem_append_left _ (List.mem_map.2 ⟨_, hp, rfl⟩)
  · refine .body fun exact => hP.part ?_ (hc.entryType hP hm hv)
    exact List.mem_append_right _ (by simp [Indexer.value])

/-! ### Levels -/

theorem colonNext_eq (items : List Item) :
    colonNext items = beginsWith .colon (items.filter (!·.isKind .comma)) := by
  induction items with
  | nil => rfl
  | cons item rest ih =>
    by_cases hc : item.isKind .comma = true
    · rw [colonNext_comma hc, ih, List.filter_cons_of_neg (by simp [hc])]
    · rw [colonNext_cons (by simpa using hc), List.filter_cons_of_pos (by simp [hc])]
      rfl

section Close

variable {xs ys : List Item} {item r : Item}

theorem filter_commas (hi : item.isToken = false) :
    (xs ++ item :: ys).filter (!·.isKind .comma)
      = xs.filter (!·.isKind .comma) ++ item :: ys.filter (!·.isKind .comma) := by
  rw [List.filter_append, List.filter_cons_of_pos (by simp [(isPlain_of_isToken hi).1])]

/-- With a colon a level is a body of its entries. -/
theorem close_body {items : List Item} (hcolon : items.any (isKind .colon) = true)
    (h : close items = .ok r) : ∃ es ps ix, entries none items = .ok es ∧ r = body ps ix
      ∧ ∀ e ∈ es, IsEntered ps ix e := by
  rw [close.eq_def, if_pos hcolon] at h
  obtain ⟨es, hes, hadd⟩ := Outcome.ok_of_bind h
  obtain ⟨ps, ix, rfl, -, -, hall⟩ := addEntries_body hadd
  exact ⟨es, ps, ix, hes, rfl, hall⟩

/-- Without a colon a level is a group of its items, and one group is not wrapped again. -/
theorem close_group {items : List Item} (h : items.any (isKind .colon) = false) :
    close items = .ok (group items) ∨ ∃ inner, items = [group inner]
      ∧ close items = .ok (group inner) := by
  rw [close.eq_def, if_neg (by simp [h])]
  split
  · exact .inr ⟨_, rfl, rfl⟩
  · exact .inl rfl

/-- With a colon next an item is a name, and the entry that it begins gets into a body. -/
theorem close_name (h : close ((xs ++ item :: ys).filter (!·.isKind .comma)) = .ok r)
    (hi : item.isToken = false) (hnext : colonNext ys = true) :
    ∃ name values ps ix, item = node (.leaf name) ∧ r = body ps ix
      ∧ IsEntered ps ix (name, values) := by
  rw [filter_commas hi] at h
  rw [colonNext_eq] at hnext
  have hcolon : (xs.filter (!·.isKind .comma) ++ item :: ys.filter (!·.isKind .comma)).any
      (isKind .colon) = true := by
    obtain ⟨next, hhead, hkind⟩ := (Option.any_eq_true _ _).1 hnext
    exact List.any_eq_true.2 ⟨next, by simp [List.mem_of_mem_head? hhead], hkind⟩
  obtain ⟨es, ps, ix, hes, rfl, hall⟩ := close_body hcolon h
  obtain ⟨name, values, rfl, he⟩ := exists_entry_name hes (isPlain_of_isToken hi).2 hnext
  exact ⟨name, values, ps, ix, rfl, rfl, hall _ he⟩

/-- What a level amounts to has the conditions of its items, names before colons aside. -/
theorem carries_close {P : Node → Prop} (hP : Rising P)
    (h : close ((xs ++ item :: ys).filter (!·.isKind .comma)) = .ok r)
    (hi : item.isToken = false) (hc : Carries P item)
    (hnext : ∀ name, item = node (.leaf name) → colonNext ys = false) : Carries P r := by
  cases hn : colonNext ys with
  | true =>
    obtain ⟨name, -, -, -, hname, -⟩ := close_name h hi hn
    exact absurd ((hnext name hname).symm.trans hn) (by decide)
  | false =>
    rw [filter_commas hi] at h
    rw [colonNext_eq] at hn
    cases hcolon : (xs.filter (!·.isKind .comma) ++ item :: ys.filter (!·.isKind .comma)).any
        (isKind .colon) with
    | true =>
      obtain ⟨es, ps, ix, hes, rfl, hall⟩ := close_body hcolon h
      obtain ⟨name, values, he, hm⟩ := exists_entry_value hes (isPlain_of_isToken hi).2 hn
      exact hc.body_of_value hP (hall _ he) hm
    | false =>
      obtain hgroup | ⟨inner, hitems, hgroup⟩ := close_group hcolon
      · cases h.symm.trans hgroup
        exact .group (by simp) hc
      · cases h.symm.trans hgroup
        have hm : item ∈ [group inner] := hitems ▸ by simp
        exact List.mem_singleton.1 hm ▸ hc

end Close

theorem brings_run {p : Pass} (hp : p ∈ passes) (items : List Item) :
    Brings (p.run items) (Tracks items) := by
  have hmarker : ∀ {kind : TokenKind} {read : Item → Reading Node}, kind ≠ .comma →
      kind ≠ .colon → (∀ operand, Brings (read operand) (Wraps operand)) →
      Brings ((prefixPass kind read).run items) (Tracks items) :=
    fun hcomma hcolon hread => tracks_resolvePrefix hcomma hcolon hread items
  simp only [passes, List.mem_cons, List.not_mem_nil, or_false] at hp
  rcases hp with rfl | rfl | rfl | rfl | rfl | rfl | rfl | rfl
  · exact hmarker (by decide) (by decide) (brings_readShape true)
  · exact hmarker (by decide) (by decide) (brings_readShape false)
  · exact hmarker (by decide) (by decide) brings_readArray
  · exact hmarker (by decide) (by decide) brings_readTuple
  · exact brings_ofExcept fun out hout => tracks_resolveSuffixes hout
  · exact hmarker (by decide) (by decide) brings_readOptional
  · exact brings_ofExcept fun out hout => tracks_foldOperator (by decide) (by decide)
      (fun _ => rfl) (fun hP hm hp => hP.part hm hp) (fun hP => hP.intersection)
      (fun hP => hP.intersection) hout
  · exact brings_ofExcept fun out hout => tracks_foldOperator (by decide) (by decide)
      (fun _ => rfl) (fun hP hm hp => hP.part hm hp) (fun hP => hP.union)
      (fun hP => hP.union) hout

theorem brings_passes {ps : List Pass} (h : ∀ p ∈ ps, ∀ items, Brings (p.run items) (Tracks items))
    (items : List Item) : Brings (ps.foldlM (fun items p => p.run items) items) (Tracks items) := by
  induction ps generalizing items with
  | nil => exact brings_pure (.refl items)
  | cons p rest ih =>
    rw [List.forall_mem_cons] at h
    rw [List.foldlM_cons]
    exact (h.1 items).bind fun out hout => (ih h.2 out).imp fun _ => hout.trans

section Resolve

variable {xs ys : List Item} {item : Item} {name : String}

/-- A level is closed once its items are tracked through the passes. -/
theorem brings_resolve {Q : Item → Prop} (items : List Item)
    (h : ∀ out r, Tracks items out → close (out.filter (!·.isKind .comma)) = .ok r → Q r) :
    Brings (resolve items) Q := by
  rw [resolve_eq]
  refine (brings_passes (fun _ => brings_run) items).bind fun out hout => ?_
  exact brings_ofExcept fun r hr => h out r hout hr

/-- A quoted name with a colon next is a key of the shape that the level is read as. -/
theorem brings_resolve_key (hq : (Escapes.quoted? name.toList).isSome = true)
    (hnext : colonNext ys = true) :
    Brings (resolve (xs ++ node (.leaf name) :: ys)) (Carries fun n =>
      ∃ k ∈ n.walk, k.declares (keyText name) (hasOptionalMark name) = true) := by
  refine brings_resolve _ fun out r hout hr => ?_
  obtain ⟨xs', o, ys', rfl, ho⟩ := hout.item rfl rfl
  obtain ⟨name', values, ps, ix, rfl, rfl, value, -, hentered⟩ :=
    close_name hr (ho.isToken rfl) (ho.colon hnext)
  cases ho.eq_leaf.1
  obtain ⟨hp, -⟩ | ⟨-, hq'⟩ := hentered
  · refine .body fun exact => ⟨.shape exact ps ix, ?_, List.any_eq_true.2 ⟨_, hp, ?_⟩⟩
    · rw [walk_eq_cons rfl]
      exact List.mem_cons_self
    · simp [Property.key, Property.optional]
  · exact absurd (hq.symm.trans hq') (by decide)

/-- A level has the conditions of its items, names before colons aside. -/
theorem brings_resolve_carries {P : Node → Prop} (hP : Rising P) (hi : item.isToken = false)
    (hc : Carries P item) (hnext : ∀ name, item = node (.leaf name) → colonNext ys = false) :
    Brings (resolve (xs ++ item :: ys)) (Carries P) := by
  refine brings_resolve _ fun out r hout hr => ?_
  obtain ⟨xs', o, ys', rfl, ho⟩ := hout.item rfl hi
  refine carries_close hP hr (ho.isToken hi) (ho.carries hP hc) ?_
  rintro name rfl
  obtain ⟨rfl, hcolon⟩ := ho.eq_leaf
  exact hcolon.trans (hnext name rfl)

/-- A level is read as a group or as a body. -/
theorem brings_resolve_level (items : List Item) :
    Brings (resolve items) fun r => r.isToken = false ∧ ∀ name, r ≠ node (.leaf name) := by
  refine brings_resolve items fun out r _ hr => ?_
  cases hcolon : (out.filter (!·.isKind .comma)).any (isKind .colon) with
  | true =>
    obtain ⟨_, ps, ix, -, rfl, -⟩ := close_body hcolon hr
    exact ⟨rfl, by simp⟩
  | false =>
    obtain hgroup | ⟨inner, -, hgroup⟩ := close_group hcolon <;> cases hr.symm.trans hgroup <;>
      exact ⟨rfl, by simp⟩

end Resolve

/-! ### Trees -/

/-- The item that a token is read as. -/
def ofToken (t : Token) : Item :=
  if t.kind = .name then node (.leaf t.text) else token t

/-- As much of a tree as its neighbours see. -/
def face : TokenTree → Item
  | .token t => ofToken t
  | .group _ => group []
  | .stray v => stray v

theorem colonNext_congr {i j : Item} {xs ys : List Item}
    (h : ∀ kind, i.isKind kind = j.isKind kind) (hnext : colonNext xs = colonNext ys) :
    colonNext (i :: xs) = colonNext (j :: ys) := by
  cases hc : i.isKind .comma with
  | true => rw [colonNext_comma hc, colonNext_comma (h _ ▸ hc), hnext]
  | false => rw [colonNext_cons hc, colonNext_cons (h _ ▸ hc), h]

theorem brings_ofTree_face (tree : TokenTree) :
    Brings (ofTree tree) fun item => ∀ kind, item.isKind kind = (face tree).isKind kind := by
  cases tree with
  | token t => exact brings_pure fun _ => rfl
  | stray v => exact brings_pure fun _ => rfl
  | group items =>
    have hread : Brings (ofTrees items) fun _ => True := fun _ _ _ => trivial
    refine hread.bind fun out _ => (brings_resolve_level out).imp fun r hr kind => ?_
    cases r with
    | token t => cases hr.1
    | _ => rfl

theorem brings_ofTrees_next (trees : List TokenTree) :
    Brings (ofTrees trees) fun items => colonNext items = colonNext (trees.map face) := by
  induction trees with
  | nil => exact brings_pure rfl
  | cons tree rest ih =>
    refine (brings_ofTree_face tree).bind fun item hface => ih.bind fun items hnext => ?_
    exact brings_pure (colonNext_congr hface hnext)

/-- A tree is read where it stands, with a colon next or not as before. -/
theorem brings_ofTrees_cut {Q : Item → Prop} (xs : List TokenTree) {tree : TokenTree}
    (h : Brings (ofTree tree) Q) (ys : List TokenTree) :
    Brings (ofTrees (xs ++ tree :: ys)) fun items => ∃ xs' item ys',
      items = xs' ++ item :: ys' ∧ Q item ∧ colonNext ys' = colonNext (ys.map face) := by
  induction xs with
  | nil =>
    refine h.bind fun item hitem => (brings_ofTrees_next ys).bind fun ys' hnext => ?_
    exact brings_pure ⟨[], item, ys', rfl, hitem, hnext⟩
  | cons x xs ih =>
    refine (brings_ofTree_face x).bind fun first _ => ih.bind fun items hitems => ?_
    obtain ⟨xs', item, ys', rfl, hrest⟩ := hitems
    exact brings_pure ⟨first :: xs', item, ys', rfl, hrest⟩

/-- A level of a tree is of some kind. -/
inductive Somewhere (At : List TokenTree → Prop) : List TokenTree → Prop
  | here {level : List TokenTree} (h : At level) : Somewhere At level
  | inside {inner : List TokenTree} (xs ys : List TokenTree) (h : Somewhere At inner) :
    Somewhere At (xs ++ .group inner :: ys)

/-- What a level comes to, the levels around it come to. -/
theorem Somewhere.brings {P : Node → Prop} (hP : Rising P) {At : List TokenTree → Prop}
    (hAt : ∀ level, At level → Brings (ofTree (.group level)) (Carries P))
    {trees : List TokenTree} (h : Somewhere At trees) :
    Brings (ofTree (.group trees)) (Carries P) := by
  induction h with
  | here h => exact hAt _ h
  | @inside inner xs ys h ih =>
    have hinner : Brings (ofTree (.group inner)) fun r =>
        Carries P r ∧ r.isToken = false ∧ ∀ name, r ≠ node (.leaf name) := by
      intro warnings r hr
      have hlevel : Brings (ofTree (.group inner)) fun r =>
          r.isToken = false ∧ ∀ name, r ≠ node (.leaf name) :=
        Brings.bind (fun _ _ _ => trivial) fun items (_ : True) => brings_resolve_level items
      exact ⟨ih warnings r hr, hlevel warnings r hr⟩
    refine (brings_ofTrees_cut xs hinner ys).bind fun items hitems => ?_
    obtain ⟨xs', item, ys', rfl, ⟨hc, hi, hl⟩, -⟩ := hitems
    exact brings_resolve_carries hP hi hc fun name hname => absurd hname (hl name)

/-- A level with a name in it, and whether a colon is next. -/
def HasName (name : String) (colon : Bool) (level : List TokenTree) : Prop :=
  ∃ xs ys, level = xs ++ .token ⟨.name, name⟩ :: ys ∧ colonNext (ys.map face) = colon

theorem Somewhere.cons {name : String} {colon : Bool} {trees : List TokenTree}
    (h : Somewhere (HasName name colon) trees) (tree : TokenTree) :
    Somewhere (HasName name colon) (tree :: trees) := by
  cases h with
  | here h =>
    obtain ⟨xs, ys, rfl, hnext⟩ := h
    exact .here ⟨tree :: xs, ys, rfl, hnext⟩
  | inside xs ys h => exact .inside (tree :: xs) ys h

theorem brings_key {name : String} (hq : (Escapes.quoted? name.toList).isSome = true)
    {level : List TokenTree} (h : HasName name true level) :
    Brings (ofTree (.group level)) (Carries fun n =>
      ∃ k ∈ n.walk, k.declares (keyText name) (hasOptionalMark name) = true) := by
  obtain ⟨xs, ys, rfl, hnext⟩ := h
  refine (brings_ofTrees_cut xs (brings_pure rfl) ys).bind fun items hitems => ?_
  obtain ⟨xs', item, ys', rfl, rfl, hcolon⟩ := hitems
  exact brings_resolve_key hq (hcolon.trans hnext)

theorem brings_leaf {name : String} {level : List TokenTree} (h : HasName name false level) :
    Brings (ofTree (.group level)) (Carries fun n =>
      ∃ k ∈ n.walk, k.leafName? = some name) := by
  obtain ⟨xs, ys, rfl, hnext⟩ := h
  refine (brings_ofTrees_cut xs (brings_pure rfl) ys).bind fun items hitems => ?_
  obtain ⟨xs', item, ys', rfl, rfl, hcolon⟩ := hitems
  refine brings_resolve_carries (rising_walk (by simp [leafName?]) (by simp [leafName?])) rfl
    (.node ⟨.leaf name, by simp [walk], rfl⟩) fun _ _ => hcolon.trans hnext

end Item

namespace TokenTree

open Item Token

/-! ### Tokens -/

theorem colonNext_bracket {t : Token} (ht : t.kind = .groupOpen ∨ t.kind = .groupClose)
    (rest : List Token) : colonNext ((t :: rest).map ofToken) = false := by
  have hn : t.kind ≠ .name := by
    rcases ht with ht | ht <;> simp [ht]
  rw [List.map_cons, ofToken, if_neg hn]
  rcases ht with ht | ht <;> exact (isPlain_of_kind ht (by decide) (by decide)).colonNext_eq _

/-- The tokens of a level tell what is next in it, if no colon follows behind it. -/
theorem colonNext_tokensAll {trees : List TokenTree} (h : AllNested trees) {more : List Token}
    (hmore : colonNext (more.map ofToken) = false) :
    colonNext ((tokensAll trees ++ more).map ofToken) = colonNext (trees.map face) := by
  induction trees with
  | nil => exact hmore
  | cons tree rest ih =>
    cases tree with
    | token t => exact colonNext_congr (fun _ => rfl) (ih h.2)
    | group items =>
      have hplain : (Item.group []).IsPlain := isPlain_of_isToken rfl
      exact (colonNext_bracket (.inl rfl) _).trans (hplain.colonNext_eq _).symm
    | stray v => exact h.1.elim

theorem colonNext_uniform (tokens : List Token) :
    colonNext (tokens.map (ofToken ∘ uniform)) = colonNext (tokens.map ofToken) := by
  induction tokens with
  | nil => rfl
  | cons t rest ih =>
    refine colonNext_congr (fun kind => ?_) ih
    obtain ⟨hk, -, hu⟩ | ⟨hk, -, hu⟩ | ⟨-, hu⟩ := step_cases t
    · simp [hu, ofToken, isKind, hk, opening]
    · simp [hu, ofToken, isKind, hk, closing]
    · rw [Function.comp_apply, hu]

/-- A name among the tokens of a tree is in a level of it, with a colon next as there. -/
theorem somewhere_name {name : String} : ∀ {trees : List TokenTree}, AllNested trees →
    ∀ {before after more : List Token}, tokensAll trees = before ++ ⟨.name, name⟩ :: after →
      colonNext (more.map ofToken) = false →
      Somewhere (HasName name (colonNext ((after ++ more).map ofToken))) trees
  | [], _, before, after, more, heq, _ => by
    simp [tokensAll] at heq
  | .token t :: rest, h, before, after, more, heq, hmore => by
    cases before with
    | nil =>
      cases heq
      exact .here ⟨[], rest, rfl, (colonNext_tokensAll h.2 hmore).symm⟩
    | cons b before => exact (somewhere_name h.2 (List.cons.inj heq).2 hmore).cons _
  | .group items :: rest, h, before, after, more, heq, hmore => by
    have heq : .opening :: (tokensAll items ++ .closing :: tokensAll rest)
        = before ++ ⟨.name, name⟩ :: after := by
      simpa [tokensAll, tokens] using heq
    cases before with
    | nil => cases heq
    | cons b before =>
      obtain ⟨-, heq⟩ := List.cons.inj heq
      -- the name stands behind the group or in it
      obtain ⟨behind, rfl, hbehind⟩ | ⟨within, hitems, hwithin⟩ :=
        List.append_eq_append_iff.1 heq
      · cases behind with
        | nil => cases hbehind
        | cons c behind => exact (somewhere_name h.2 (List.cons.inj hbehind).2 hmore).cons _
      · cases within with
        | nil => cases hwithin
        | cons c within =>
          obtain ⟨rfl, rfl⟩ := List.cons.inj hwithin
          have hinner : Somewhere (HasName name (colonNext
              ((within ++ .closing :: (tokensAll rest ++ more)).map ofToken))) items :=
            somewhere_name h.1 hitems (colonNext_bracket (.inr rfl) _)
          simpa using hinner.inside [] rest
  | .stray v :: _, h, _, _, _, _, _ => h.1.elim

end TokenTree

namespace Node

/-! ### Annotations -/

section Annotations

variable {text name : String} {before after : List Token} {n : Node}

/-- The type of an annotation is that of the tree of its tokens. -/
theorem exists_trees_of_scan {tokens : List Token} (hscan : Token.scan text = .ok tokens)
    (hn : parse? text = .ok n) :
    ∃ trees, TokenTree.AllNested trees ∧ TokenTree.tokensAll trees = tokens.map Token.uniform
      ∧ ((Node.ofTree trees).run []).1 = .ok n := by
  have htext : TokenTree.ofText text = TokenTree.ofTokens tokens := by
    rw [TokenTree.ofText, hscan]
    rfl
  rw [parse?_eq, htext] at hn
  cases htrees : TokenTree.ofTokens tokens with
  | error f =>
    rw [htrees] at hn
    cases hn
  | ok trees =>
    rw [htrees] at hn
    obtain ⟨hnested, htokens⟩ := TokenTree.ofTokens_eq_ok_iff.1 htrees
    refine ⟨trees, hnested, htokens, ?_⟩
    cases hrun : ((Node.ofTree trees).run []).1 with
    | error f => simp only [hrun, Except.mapError, reduceCtorEq] at hn
    | ok m => simpa only [hrun, Except.mapError] using hn

/-- A name among the tokens of an annotation is in some level of its tree. -/
theorem exists_trees (hscan : Token.scan text = .ok (before ++ ⟨.name, name⟩ :: after))
    (hn : parse? text = .ok n) : ∃ trees,
      Item.Somewhere (Item.HasName name (Item.colonNext (after.map Item.ofToken))) trees
        ∧ ((Node.ofTree trees).run []).1 = .ok n := by
  obtain ⟨trees, hnested, htokens, hrun⟩ := exists_trees_of_scan hscan hn
  rw [List.map_append, List.map_cons] at htokens
  have hsome := @TokenTree.somewhere_name name trees hnested _ _ [] htokens rfl
  rw [List.append_nil, List.map_map, TokenTree.colonNext_uniform] at hsome
  exact ⟨trees, hsome, hrun⟩

theorem brings_ofTree {P : Node → Prop} (hP : Rising P) {trees : List TokenTree}
    (h : Reading.Brings (Item.ofTree (.group trees)) (Item.Carries P)) :
    Reading.Brings (Node.ofTree trees) P := by
  refine h.bind fun item hc => ?_
  split
  · exact Reading.brings_throw
  · exact Reading.brings_ofExcept fun n hn => hc.asType hP hn

/-- A quoted name with a colon next is a key that a shape declares. -/
theorem declares_of_scan (hscan : Token.scan text = .ok (before ++ ⟨.name, name⟩ :: after))
    (hn : parse? text = .ok n) (hq : (Escapes.quoted? name.toList).isSome = true)
    (hnext : Item.colonNext (after.map Item.ofToken) = true) :
    ∃ k ∈ n.walk, k.declares (Item.keyText name) (Item.hasOptionalMark name) = true := by
  obtain ⟨trees, hsome, hrun⟩ := exists_trees hscan hn
  have hP : Rising fun n => ∃ k ∈ n.walk,
      k.declares (Item.keyText name) (Item.hasOptionalMark name) = true :=
    rising_walk (by simp [declares]) (by simp [declares])
  rw [hnext] at hsome
  exact brings_ofTree hP (hsome.brings hP fun _ => Item.brings_key hq) [] n hrun

/-- A name without a colon next is a leaf. -/
theorem mem_leafNames_of_scan
    (hscan : Token.scan text = .ok (before ++ ⟨.name, name⟩ :: after))
    (hn : parse? text = .ok n) (hnext : Item.colonNext (after.map Item.ofToken) = false) :
    name ∈ n.leafNames := by
  obtain ⟨trees, hsome, hrun⟩ := exists_trees hscan hn
  rw [hnext] at hsome
  have hP : Rising fun n => ∃ k ∈ n.walk, k.leafName? = some name :=
    rising_walk (by simp [leafName?]) (by simp [leafName?])
  exact List.mem_filterMap.2
    (brings_ofTree hP (hsome.brings hP fun _ => Item.brings_leaf) [] n hrun)

end Annotations

end Node

end StructuralTypes

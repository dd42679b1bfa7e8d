import StructuralTypes.Proofs.Colons

/-! Where the properties of shapes come from. A level is read as a body only from the names
before its colons, and no type is made but from bodies and names. So every property of a type
is that of a quoted name with a colon next among the tokens of the annotation, and has its
optional mark just from there. -/

namespace StructuralTypes

namespace Item

open Node Reading

/-! ### Entries -/

section Entries

variable {current : Option (String × List Item)} {items : List Item}
  {es : List (String × List Item)} {e : String × List Item}

/-- The name of an entry has a colon right behind it. -/
theorem name_of_mem_entries (h : entries current items = .ok es) (he : e ∈ es) :
    (∃ values, current = some (e.1, values))
      ∨ ∃ xs ys, items = xs ++ node (.leaf e.1) :: ys ∧ beginsWith .colon ys = true := by
  induction items generalizing current es with
  | nil =>
    cases h
    obtain rfl := Option.mem_toList.1 he
    exact .inl ⟨e.2, rfl⟩
  | cons item rest ih =>
    have hlift : ∀ xs ys, rest = xs ++ node (.leaf e.1) :: ys → beginsWith .colon ys = true →
        ∃ xs ys, item :: rest = xs ++ node (.leaf e.1) :: ys ∧ beginsWith .colon ys = true :=
      fun xs ys hrest hnext => ⟨item :: xs, ys, by rw [hrest, List.cons_append], hnext⟩
    obtain ⟨-, h⟩ | ⟨-, hnext, name, others, rfl, hothers, rfl⟩ | ⟨-, -, name, values, rfl, hmore⟩ :=
      entries_cases h
    · obtain hcurrent | ⟨xs, ys, hrest, hnext⟩ := ih h he
      · exact .inl hcurrent
      · exact .inr (hlift xs ys hrest hnext)
    · obtain he | he := List.mem_append.1 he
      · obtain rfl := Option.mem_toList.1 he
        exact .inl ⟨e.2, rfl⟩
      · obtain ⟨_, hname⟩ | ⟨xs, ys, hrest, hcolon⟩ := ih hothers he
        · cases hname
          exact .inr ⟨[], rest, rfl, hnext⟩
        · exact .inr (hlift xs ys hrest hcolon)
    · obtain ⟨_, hname⟩ | ⟨xs, ys, hrest, hnext⟩ := ih hmore he
      · cases hname
        exact .inl ⟨values, rfl⟩
      · exact .inr (hlift xs ys hrest hnext)

/-- The values of entries stand in the level. -/
theorem mem_of_mem_entries (h : entries current items = .ok es) (he : e ∈ es) {i : Item}
    (hi : i ∈ e.2) : (∃ c ∈ current, i ∈ c.2) ∨ i ∈ items := by
  induction items generalizing current es with
  | nil =>
    cases h
    exact .inl ⟨e, Option.mem_toList.1 he, hi⟩
  | cons item rest ih =>
    obtain ⟨-, h⟩ | ⟨-, -, name, others, rfl, hothers, rfl⟩ | ⟨-, -, name, values, rfl, hmore⟩ :=
      entries_cases h
    · exact (ih h he).imp_right (List.mem_cons_of_mem _)
    · obtain he | he := List.mem_append.1 he
      · exact .inl ⟨e, Option.mem_toList.1 he, hi⟩
      · obtain ⟨c, hc, hi⟩ | hi := ih hothers he
        · cases hc
          cases hi
        · exact .inr (List.mem_cons_of_mem _ hi)
    · obtain ⟨c, hc, hi⟩ | hi := ih hmore he
      · cases hc
        obtain hi | hi := List.mem_append.1 hi
        · exact .inl ⟨_, rfl, hi⟩
        · exact .inr (List.mem_singleton.1 hi ▸ List.mem_cons_self)
      · exact .inr (List.mem_cons_of_mem _ hi)

end Entries

/-! ### Bodies -/

/-- A property is that of an entry. -/
def IsOfEntry (es : List (String × List Item)) (p : Property) : Prop :=
  ∃ e ∈ es, (Escapes.quoted? e.1.toList).isSome = true ∧ p.key = keyText e.1
    ∧ p.optional = hasOptionalMark e.1 ∧ entryType e.1 e.2 = .ok p.value

/-- A body has properties and an indexer from nothing but its entries. -/
theorem isOfEntry_of_addEntries {es : List (String × List Item)} {ps ps' : List Property}
    {ix ix' : Option Indexer} (h : addEntries ps ix es = .ok (body ps' ix')) :
    (∀ p ∈ ps', p ∈ ps ∨ IsOfEntry es p)
      ∧ ∀ i ∈ ix', ix = some i ∨ ∃ e ∈ es, i.key = .leaf e.1 ∧ entryType e.1 e.2 = .ok i.value := by
  induction es generalizing ps ix with
  | nil =>
    cases h
    exact ⟨fun p hp => .inl hp, fun i hi => .inl hi⟩
  | cons e rest ih =>
    obtain ⟨name, items⟩ := e
    rw [addEntries] at h
    obtain ⟨value, hv, h⟩ := Outcome.ok_of_bind h
    have hlater : ∀ p, IsOfEntry rest p → IsOfEntry ((name, items) :: rest) p := by
      rintro p ⟨e, he, hp⟩
      exact ⟨e, List.mem_cons_of_mem _ he, hp⟩
    by_cases hq : (Escapes.quoted? name.toList).isSome = true
    · rw [if_pos hq] at h
      split at h
      · cases h
      · obtain ⟨hps, hix⟩ := ih h
        refine ⟨fun p hp => ?_, fun i hi => ?_⟩
        · obtain hp | hp := hps p hp
          · obtain hp | hp := List.mem_append.1 hp
            · exact .inl hp
            · obtain rfl := List.mem_singleton.1 hp
              exact .inr ⟨(name, items), List.mem_cons_self, hq, rfl, rfl, hv⟩
          · exact .inr (hlater p hp)
        · obtain hi | ⟨e, he, hi⟩ := hix i hi
          · exact .inl hi
          · exact .inr ⟨e, List.mem_cons_of_mem _ he, hi⟩
    · rw [if_neg hq] at h
      split at h
      · cases h
      · obtain ⟨hps, hix⟩ := ih h
        refine ⟨fun p hp => (hps p hp).imp_right (hlater p), fun i hi => ?_⟩
        obtain hi | ⟨e, he, hi⟩ := hix i hi
        · cases hi
          exact .inr ⟨(name, items), List.mem_cons_self, rfl, hv⟩
        · exact .inr ⟨e, List.mem_cons_of_mem _ he, hi⟩

theorem Sound.entryType {P : Node → Prop} (hP : Pervading P) {name : String} {values : List Item}
    (hs : ∀ i ∈ values, Sound P i) {n : Node} (h : entryType name values = .ok n) : P n := by
  match values with
  | [] => cases h
  | [one] => exact (hs one List.mem_cons_self).asType hP h
  | first :: second :: rest =>
    obtain ⟨ns, hns, h⟩ := Outcome.ok_of_bind h
    cases h
    exact hP.union.2 (forall_mem_asTypes hns fun i hi _ hn => (hs i hi).asType hP hn)

/-! ### Shapes -/

/-- Every property that a node declares is that of a quoted name of some kind. -/
def KeyedBy (known : String → Prop) : Node → Prop
  | .shape _ ps _ => ∀ p ∈ ps, ∃ name, known name ∧ (Escapes.quoted? name.toList).isSome = true
    ∧ p.key = keyText name ∧ p.optional = hasOptionalMark name
  | _ => True

theorem pervading_keyedBy (known : String → Prop) :
    Pervading fun n => ∀ k ∈ n.walk, KeyedBy known k := by
  refine pervading_walk (fun n hn => ?_) fun exact => by simp [KeyedBy]
  cases n with
  | shape exact ps ix => exact absurd rfl (hn exact ps ix)
  | _ => trivial

variable {known : String → Prop}

/-- The shapes that an item comes to have properties of known names only. -/
abbrev IsKeyed (known : String → Prop) : Item → Prop :=
  Sound fun n => ∀ k ∈ n.walk, KeyedBy known k

/-- The quoted names of a level with a colon next are known. -/
def KnowsKeys (known : String → Prop) (items : List Item) : Prop :=
  ∀ {xs : List Item} {name : String} {ys : List Item}, items = xs ++ node (.leaf name) :: ys →
    colonNext ys = true → (Escapes.quoted? name.toList).isSome = true → known name

/-- What stands in a level without commas stands in the level. -/
theorem exists_split_of_filter {items xs ys : List Item} {item : Item}
    (h : items.filter (!·.isKind .comma) = xs ++ item :: ys) :
    ∃ xs' ys', items = xs' ++ item :: ys' ∧ ys = ys'.filter (!·.isKind .comma) := by
  obtain ⟨front, back, rfl, -, hback⟩ := List.filter_eq_append_iff.1 h
  obtain ⟨commas, rest, rfl, -, -, hrest⟩ := List.filter_eq_cons_iff.1 hback
  exact ⟨front ++ commas, rest, by simp, hrest.symm⟩

/-- A level with known keys is closed to a body with known keys, or to a group. -/
theorem isKeyed_close {items : List Item} {r : Item} (hs : ∀ i ∈ items, IsKeyed known i)
    (hkeys : KnowsKeys known items) (h : close (items.filter (!·.isKind .comma)) = .ok r) :
    IsKeyed known r := by
  have hP := pervading_keyedBy known
  have hs' : ∀ i ∈ items.filter (!·.isKind .comma), IsKeyed known i :=
    fun i hi => hs i (List.mem_of_mem_filter hi)
  cases hcolon : (items.filter (!·.isKind .comma)).any (isKind .colon) with
  | false =>
    obtain hgroup | ⟨inner, hitems, hgroup⟩ := close_group hcolon
    · cases h.symm.trans hgroup
      exact .group hs'
    · cases h.symm.trans hgroup
      exact hs' _ (hitems ▸ List.mem_cons_self)
  | true =>
    obtain ⟨-, ps, ix, -, rfl, -⟩ := close_body hcolon h
    rw [close.eq_def, if_pos hcolon] at h
    obtain ⟨es, hes, hadd⟩ := Outcome.ok_of_bind h
    obtain ⟨hps, hix⟩ := isOfEntry_of_addEntries hadd
    have hvalues : ∀ e ∈ es, ∀ i ∈ e.2, IsKeyed known i := fun e he i hi =>
      hs' i ((mem_of_mem_entries hes he hi).resolve_left (by simp))
    refine .body fun exact => (forall_mem_walk rfl).2 ⟨fun p hp => ?_, fun part hpart => ?_⟩
    · obtain ⟨e, he, hq, hkey, hoptional, -⟩ := (hps p hp).resolve_left (by simp)
      obtain ⟨_, hnone⟩ | ⟨xs, ys, hsplit, hnext⟩ := name_of_mem_entries hes he
      · cases hnone
      · obtain ⟨xs', ys', rfl, rfl⟩ := exists_split_of_filter hsplit
        rw [← colonNext_eq] at hnext
        exact ⟨e.1, hkeys rfl hnext hq, hq, hkey, hoptional⟩
    · obtain hpart | hpart := List.mem_append.1 hpart
      · obtain ⟨p, hp, rfl⟩ := List.mem_map.1 hpart
        obtain ⟨e, he, -, -, -, hv⟩ := (hps p hp).resolve_left (by simp)
        exact Sound.entryType hP (hvalues e he) hv
      · rcases ix with _ | i
        · simp at hpart
        obtain ⟨e, he, hkey, hv⟩ := (hix i rfl).resolve_left (by simp)
        obtain rfl | rfl : part = i.key ∨ part = i.value := by simpa using hpart
        · rw [hkey]
          exact hP.leaf _
        · exact Sound.entryType hP (hvalues e he) hv

/-- A level whose keys are known is read as something with known keys. -/
theorem brings_resolve_isKeyed {items : List Item} (hs : ∀ i ∈ items, IsKeyed known i)
    (hkeys : KnowsKeys known items) : Brings (resolve items) (IsKeyed known) := by
  refine brings_resolve items fun out r hout hr => ?_
  refine isKeyed_close (hout.sound (pervading_keyedBy known) hs) (fun hsplit hnext hq => ?_) hr
  cases hout.origin hsplit with
  | same hitems hc => exact hkeys hitems (hc.trans hnext) hq
  | made hleaf hn =>
    -- the word that is put in for a suffix is no key
    rw [hleaf _ rfl] at hq
    cases hq

/-! ### Trees -/

theorem brings_ofTree_name (tree : TokenTree) :
    Brings (ofTree tree) fun item => ∀ name, item = node (.leaf name) →
      tree = .token ⟨.name, name⟩ := by
  cases tree with
  | token t =>
    refine brings_pure fun name hname => ?_
    obtain ⟨kind, text⟩ := t
    split at hname
    · next hk =>
      cases hname
      exact congrArg (fun kind => TokenTree.token ⟨kind, text⟩) hk
    · cases hname
  | stray v => exact brings_pure fun name hname => nomatch hname
  | group items =>
    have hread : Brings (ofTrees items) fun _ => True := fun _ _ _ => trivial
    exact hread.bind fun out _ => (brings_resolve_level out).imp fun r hr name hname =>
      absurd hname (hr.2 name)

/-- A name that is read stands among the trees, with a colon next or not as it is read. -/
theorem brings_ofTrees_name (trees : List TokenTree) :
    Brings (ofTrees trees) fun items => ∀ {xs name ys}, items = xs ++ node (.leaf name) :: ys →
      HasName name (colonNext ys) trees := by
  induction trees with
  | nil => exact brings_pure fun h => by simp at h
  | cons tree rest ih =>
    refine (brings_ofTree_name tree).bind fun item hitem => ?_
    have hboth : Brings (ofTrees rest) fun items =>
        (∀ {xs name ys}, items = xs ++ node (.leaf name) :: ys → HasName name (colonNext ys) rest)
          ∧ colonNext items = colonNext (rest.map face) :=
      fun warnings items hrun => ⟨ih warnings items hrun, brings_ofTrees_next rest warnings items hrun⟩
    refine hboth.bind fun items hitems => brings_pure fun {xs name ys} hsplit => ?_
    cases xs with
    | nil =>
      obtain ⟨rfl, rfl⟩ := List.cons.inj hsplit
      exact ⟨[], rest, by rw [hitem name rfl, List.nil_append], hitems.2.symm⟩
    | cons x xs =>
      obtain ⟨ws, zs, rfl, hnext⟩ := hitems.1 (List.cons.inj hsplit).2
      exact ⟨tree :: ws, zs, rfl, hnext⟩

/-- All names with a colon next in a level and the levels below it are known. -/
def KnowsAll (known : String → Prop) (level : List TokenTree) : Prop :=
  ∀ name, Somewhere (HasName name true) level → known name

theorem KnowsAll.inside {level inner : List TokenTree} (h : KnowsAll known level)
    (hm : .group inner ∈ level) : KnowsAll known inner := by
  obtain ⟨xs, ys, rfl⟩ := List.append_of_mem hm
  exact fun name hname => h name (hname.inside xs ys)

mutual

theorem brings_ofTree_isKeyed : ∀ tree : TokenTree,
    (∀ inner, tree = .group inner → KnowsAll known inner) →
      Brings (ofTree tree) (IsKeyed known)
  | .token t, _ => brings_pure (by
      split
      · exact .node ((pervading_keyedBy known).leaf _)
      · exact .token t)
  | .stray v, _ => brings_pure (.stray v)
  | .group inner, h => by
    have hinner := h inner rfl
    have hitems : Brings (ofTrees inner) fun items =>
        (∀ i ∈ items, IsKeyed known i) ∧ KnowsKeys known items :=
      fun warnings items hrun => ⟨brings_ofTrees_isKeyed inner (fun _ hm => hinner.inside hm)
        warnings items hrun, fun hsplit hnext _ => hinner _ (.here
          (hnext ▸ brings_ofTrees_name inner warnings items hrun hsplit))⟩
    exact hitems.bind fun items hitems => brings_resolve_isKeyed hitems.1 hitems.2

theorem brings_ofTrees_isKeyed : ∀ trees : List TokenTree,
    (∀ inner, .group inner ∈ trees → KnowsAll known inner) →
      Brings (ofTrees trees) fun items => ∀ i ∈ items, IsKeyed known i
  | [], _ => brings_pure (by simp)
  | tree :: rest, h =>
    (brings_ofTree_isKeyed tree fun inner he => h inner (he ▸ List.mem_cons_self)).bind
      fun _ hi => (brings_ofTrees_isKeyed rest fun inner hm =>
        h inner (List.mem_cons_of_mem _ hm)).bind
      fun _ hs => brings_pure (List.forall_mem_cons.2 ⟨hi, hs⟩)

end

end Item

namespace TokenTree

open Item Token

/-! ### Tokens -/

/-- A name in some level of a tree is among the tokens of it, with a colon next as there. -/
theorem exists_tokens_of_somewhere {name : String} {colon : Bool} {trees : List TokenTree}
    (h : Somewhere (HasName name colon) trees) (hnested : AllNested trees) {more : List Token}
    (hmore : colonNext (more.map ofToken) = false) :
    ∃ before after, tokensAll trees = before ++ ⟨.name, name⟩ :: after
      ∧ colonNext ((after ++ more).map ofToken) = colon := by
  induction h generalizing more with
  | here h =>
    obtain ⟨xs, ys, rfl, hnext⟩ := h
    obtain ⟨-, -, hys⟩ := allNested_append.1 hnested
    refine ⟨tokensAll xs, tokensAll ys, ?_, (colonNext_tokensAll hys hmore).trans hnext⟩
    rw [tokensAll_append]
    rfl
  | @inside inner xs ys h ih =>
    obtain ⟨-, hinner, -⟩ := allNested_append.1 hnested
    obtain ⟨before, after, htokens, hnext⟩ :=
      @ih hinner (.closing :: (tokensAll ys ++ more)) (colonNext_bracket (.inr rfl) _)
    refine ⟨tokensAll xs ++ .opening :: before, after ++ .closing :: tokensAll ys, ?_, ?_⟩
    · rw [tokensAll_append, tokensAll, tokens, htokens]
      simp
    · simpa using hnext

end TokenTree

namespace Node

open Item

section Annotations

variable {text key : String} {optional : Bool} {tokens : List Token} {n : Node}

/-- A quoted name among some tokens with a colon next, which is a key by itself. -/
def HasKey (tokens : List Token) (key : String) (optional : Bool) : Prop :=
  ∃ before name after, tokens = before ++ ⟨.name, name⟩ :: after
    ∧ colonNext (after.map ofToken) = true ∧ (Escapes.quoted? name.toList).isSome = true
    ∧ key = keyText name ∧ optional = hasOptionalMark name

theorem hasKey_of_uniform (h : HasKey (tokens.map Token.uniform) key optional) :
    HasKey tokens key optional := by
  obtain ⟨before, name, after, htokens, hnext, hrest⟩ := h
  obtain ⟨xs, ys, rfl, rfl, hys⟩ := List.map_eq_append_iff.1 htokens
  obtain ⟨t, after, rfl, ht, rfl⟩ := List.map_eq_cons_iff.1 hys
  refine ⟨xs, name, after, ?_, ?_, hrest⟩
  · obtain ⟨hk, -, hu⟩ | ⟨hk, -, hu⟩ | ⟨-, hu⟩ := t.step_cases
    · cases hu.symm.trans ht
    · cases hu.symm.trans ht
    · rw [← hu, ht]
  · rw [List.map_map] at hnext
    exact (TokenTree.colonNext_uniform after).symm.trans hnext

/-- A tree whose keys are known is read as a type with properties of known names only. -/
theorem brings_keyedBy {known : String → Prop} {trees : List TokenTree}
    (h : KnowsAll known trees) :
    Reading.Brings (Node.ofTree trees) fun n => ∀ k ∈ n.walk, KeyedBy known k := by
  have htree := @brings_ofTree_isKeyed known (.group trees) fun inner hinner => by
    cases hinner
    exact h
  refine htree.bind fun item hitem => ?_
  split
  · exact Reading.brings_throw
  · exact Reading.brings_ofExcept fun m hm => hitem.asType (pervading_keyedBy known) hm

/-- The shapes of an annotation declare just the quoted names with a colon next. -/
theorem declares_iff_hasKey (hscan : Token.scan text = .ok tokens) (hn : parse? text = .ok n) :
    (∃ k ∈ n.walk, k.declares key optional = true) ↔ HasKey tokens key optional := by
  constructor
  · rintro ⟨k, hk, hd⟩
    obtain ⟨trees, hnested, htokens, hrun⟩ := exists_trees_of_scan hscan hn
    -- the known keys are those that the tokens have
    have hknown : KnowsAll (fun name => (Escapes.quoted? name.toList).isSome = true →
        HasKey tokens (keyText name) (hasOptionalMark name)) trees := by
      intro name hname hq
      obtain ⟨before, after, hall, hnext⟩ :=
        @TokenTree.exists_tokens_of_somewhere name true trees hname hnested [] rfl
      rw [htokens] at hall
      rw [List.append_nil] at hnext
      exact hasKey_of_uniform ⟨before, name, after, hall, hnext, hq, rfl, rfl⟩
    have hkeyed := brings_keyedBy hknown [] n hrun k hk
    cases k with
    | shape exact ps ix =>
      obtain ⟨p, hp, hdeclares⟩ := List.any_eq_true.1 hd
      obtain ⟨name, hname, hq, hkey, hoptional⟩ := hkeyed p hp
      obtain ⟨rfl, rfl⟩ : p.key = key ∧ p.optional = optional := by simpa using hdeclares
      rw [hkey, hoptional]
      exact hname hq
    | _ => cases hd
  · rintro ⟨before, name, after, rfl, hnext, hq, rfl, rfl⟩
    exact declares_of_scan hscan hn hq hnext

end Annotations

end Node

end StructuralTypes

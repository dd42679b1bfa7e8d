import Mathlib
import StructuralTypes.Proofs.Ledger
import StructuralTypes.Proofs.Walk

/-! Nothing written in an annotation is lost, doubled or made up. The leaves and keys of a
type are a ledger over multisets of words: each name is a leaf or, read as a key, a quoted
name, and what is not written is the `null` of an optional mark or the `array` of a suffix
behind a bare `*`. -/

namespace StructuralTypes

/-! ### Words as leaves and keys -/

/-- Leaves, and keys read from quoted names, that are these words together. -/
def Accounts (leaves keys words : Multiset String) : Prop :=
  ∃ asKey : Multiset String, (∀ k ∈ asKey, (Escapes.quoted? k.toList).isSome = true)
    ∧ keys = asKey.map Item.keyText ∧ leaves + asKey = words

theorem accounts_zero : Accounts 0 0 0 :=
  ⟨0, by simp, rfl, rfl⟩

theorem accounts_leaf (text : String) : Accounts {text} 0 {text} :=
  ⟨0, by simp, rfl, add_zero _⟩

theorem accounts_key {text : String} (h : (Escapes.quoted? text.toList).isSome = true) :
    Accounts 0 {Item.keyText text} {text} :=
  ⟨{text}, by simpa using h, rfl, zero_add _⟩

theorem Accounts.add {leaves keys words leaves' keys' words' : Multiset String}
    (h : Accounts leaves keys words) (h' : Accounts leaves' keys' words') :
    Accounts (leaves + leaves') (keys + keys') (words + words') := by
  obtain ⟨asKey, hquoted, rfl, rfl⟩ := h
  obtain ⟨asKey', hquoted', rfl, rfl⟩ := h'
  refine ⟨asKey + asKey', fun k hk => ?_, (Multiset.map_add _ _ _).symm, by ac_rfl⟩
  exact (Multiset.mem_add.1 hk).elim (hquoted k) (hquoted' k)

namespace Node

/-! ### Leaves and keys of composite types -/

theorem leafNames_eq {n : Node} (hs : n.isStray = false) (hl : n.isLeaf = false) :
    n.leafNames = n.parts.flatMap leafNames := by
  have hhead : n.leafName? = none := by cases n <;> first | rfl | cases hl
  rw [leafNames, walk_eq_cons hs, List.filterMap_cons, hhead, List.filterMap_flatMap]
  rfl

theorem allKeys_eq {n : Node} (hs : n.isStray = false) :
    n.allKeys = n.keys ++ n.parts.flatMap allKeys := by
  rw [allKeys, walk_eq_cons hs, List.flatMap_cons, List.flatMap_assoc]
  rfl

/-- The leaves and keys of a type are these words. -/
def IsWrittenIn (n : Node) (words : Multiset String) : Prop :=
  Accounts n.leafNames n.allKeys words

theorem accounts_parts {ns : List Node} {words : Multiset String}
    (h : Sums IsWrittenIn ns words) :
    Accounts (ns.flatMap leafNames : List String) (ns.flatMap allKeys : List String) words := by
  induction h with
  | nil => exact accounts_zero
  | cons head tail ih =>
    rw [List.flatMap_cons, List.flatMap_cons, ← Multiset.coe_add, ← Multiset.coe_add]
    exact head.add ih

/-- A type without words of its own is written in what its parts are written in. -/
theorem isWrittenIn_of_parts {n : Node} {words : Multiset String} (hs : n.isStray = false)
    (hl : n.isLeaf = false) (hk : n.keys = []) (h : Sums IsWrittenIn n.parts words) :
    n.IsWrittenIn words := by
  rw [IsWrittenIn, leafNames_eq hs hl, allKeys_eq hs, hk, List.nil_append]
  exact accounts_parts h

theorem eq_of_isWrittenIn_leaf {text : String} {words : Multiset String}
    (h : (leaf text).IsWrittenIn words) : words = {text} := by
  obtain ⟨asKey, -, hkeys, rfl⟩ := h
  have hnone : asKey = 0 := Multiset.map_eq_zero.1 hkeys.symm
  rw [hnone, add_zero]
  rfl

/-- What an indexer adds to the words of a shape. -/
def indexerParts (indexer : Option Indexer) : List Node :=
  (indexer.map fun i => [i.key, i.value]).getD []

theorem leafNames_shape (exact : Bool) (ps : List Property) (ix : Option Indexer) :
    ((shape exact ps ix).leafNames : Multiset String)
      = ((ps.map Property.value).flatMap leafNames : List String)
        + ((indexerParts ix).flatMap leafNames : List String) := by
  rw [leafNames_eq rfl rfl, parts, List.flatMap_append, Multiset.coe_add]
  rfl

theorem allKeys_shape (exact : Bool) (ps : List Property) (ix : Option Indexer) :
    ((shape exact ps ix).allKeys : Multiset String) = (ps.map Property.key : List String)
      + (((ps.map Property.value).flatMap allKeys : List String)
        + ((indexerParts ix).flatMap allKeys : List String)) := by
  rw [allKeys_eq rfl, keys, parts, List.flatMap_append, ← Multiset.coe_add, ← Multiset.coe_add]
  rfl

theorem wordLaws : Ledger.Laws IsWrittenIn (fun text => {text}) {"null"} {"array"} where
  name := accounts_leaf
  null := accounts_leaf "null"
  array := accounts_leaf "array"
  suffix h := isWrittenIn_of_parts rfl rfl rfl (sums_singleton_iff.2 h)
  union h _ := isWrittenIn_of_parts rfl rfl rfl h
  intersection h _ := isWrittenIn_of_parts rfl rfl rfl h
  tuple h _ := isWrittenIn_of_parts rfl rfl rfl h
  empty exact := accounts_zero
  exactness {exact ps ix m} h := by
    rw [IsWrittenIn, leafNames_shape, allKeys_shape] at h ⊢
    exact h
  property {ps ix m text x value y} h hx hy hq _ := by
    obtain rfl := eq_of_isWrittenIn_leaf hx
    have hadded := h.add ((accounts_key hq).add hy)
    rw [leafNames_shape, allKeys_shape] at hadded
    rw [IsWrittenIn, leafNames_shape, allKeys_shape]
    simp only [List.map_append, List.flatMap_append, List.map_cons, List.map_nil, List.flatMap_cons,
      List.flatMap_nil, List.append_nil, ← Multiset.coe_add, Property.key, Property.value]
    convert hadded using 1
    · rw [zero_add]
      ac_rfl
    · rw [Multiset.coe_singleton]
      ac_rfl
  indexer {ps m text x value y} h hx hy _ := by
    have hadded := h.add (hx.add hy)
    rw [leafNames_shape, allKeys_shape] at hadded
    rw [IsWrittenIn, leafNames_shape, allKeys_shape]
    simp only [indexerParts, Option.map_some, Option.map_none, Option.getD_some, Option.getD_none,
      List.flatMap_cons, List.flatMap_nil, List.append_nil, ← Multiset.coe_add, Multiset.coe_nil,
      add_zero, Indexer.key, Indexer.value] at hadded ⊢
    convert hadded using 1
    ac_rfl

/-- Words as a ledger: the leaves and keys of a type are the words it is read from. -/
def wordLedger : Ledger (Multiset String) :=
  ⟨IsWrittenIn, fun text => {text}, {"null"}, {"array"}, wordLaws⟩

theorem total_wordLedger (tree : TokenTree) : tree.total wordLedger
    = (tree.names : Multiset String) + Multiset.replicate tree.optionals "null"
      + Multiset.replicate tree.starSuffixes "array" := by
  rw [TokenTree.total, ← Multiset.nsmul_singleton, ← Multiset.nsmul_singleton]
  congr 2
  rw [← Multiset.sum_coe, ← Multiset.map_coe]
  exact Multiset.sum_map_singleton _

/-- A word that is added is no quoted one, so a key is read from a name. -/
theorem le_of_quoted {asKey leaves names : Multiset String} {nulls arrays : Nat}
    (hquoted : ∀ k ∈ asKey, (Escapes.quoted? k.toList).isSome = true)
    (h : leaves + asKey
      = names + Multiset.replicate nulls "null" + Multiset.replicate arrays "array") :
    asKey ≤ names := by
  refine Multiset.le_iff_count.2 fun k => ?_
  by_cases hk : k ∈ asKey
  · have hadded : ∀ {word : String} (count : Nat), (Escapes.quoted? word.toList).isSome = false →
        Multiset.count k (Multiset.replicate count word) = 0 := by
      intro word count hword
      rw [Multiset.count_eq_zero]
      intro hm
      rw [Multiset.eq_of_mem_replicate hm] at hk
      rw [hquoted word hk] at hword
      cases hword
    have hcount := congrArg (Multiset.count k) h
    rw [Multiset.count_add, Multiset.count_add, Multiset.count_add, hadded nulls (by decide),
      hadded arrays (by decide)] at hcount
    omega
  · rw [Multiset.count_eq_zero.2 hk]
    exact Nat.zero_le _

/-- Each name of a tree that stands for a type is a leaf of the type or, read without its
quotes and its optional mark, one of its keys. Its other leaves are a `null` for each optional
mark and an `array` for each array suffix right behind a bare `*`. -/
theorem words_conserved {trees : List TokenTree} (h : TokenTree.AllClean trees)
    {warnings : List Warning} {n : Node} (hn : ((Node.ofTree trees).run warnings).1 = .ok n) :
    ∃ asLeaf asKey : Multiset String,
      asLeaf + asKey = (TokenTree.namesAll trees : Multiset String)
      ∧ (∀ k ∈ asKey, (Escapes.quoted? k.toList).isSome = true)
      ∧ (n.allKeys : Multiset String) = asKey.map Item.keyText
      ∧ (n.leafNames : Multiset String) = asLeaf
        + Multiset.replicate (TokenTree.optionalsAll trees) "null"
        + Multiset.replicate (TokenTree.starSuffixes (.group trees)) "array" := by
  have hread := @ensures_ofTree (Multiset String) _ wordLedger trees h warnings
  rw [hn, total_wordLedger, TokenTree.names, TokenTree.optionals] at hread
  obtain ⟨asKey, hquoted, hkeys, hwords⟩ := hread
  obtain ⟨asLeaf, hnames⟩ := Multiset.le_iff_exists_add.1 (le_of_quoted hquoted hwords)
  refine ⟨asLeaf, asKey, by rw [hnames, add_comm], hquoted, hkeys,
    add_right_cancel (b := asKey) ?_⟩
  rw [hwords, hnames]
  ac_rfl

/-- The tokens of `{"a?": *[] | ?x, k: "b"}`, nested. -/
def wordyTrees : List TokenTree :=
  [.token ⟨.shape, "@"⟩, .group
    [.token ⟨.name, "\"a¿\""⟩, .token ⟨.colon, ":"⟩, .token ⟨.name, "*"⟩,
      .token ⟨.arraySuffix, "$"⟩, .token ⟨.union, "|"⟩, .token ⟨.optional, "?"⟩,
      .token ⟨.name, "x"⟩, .token ⟨.comma, ","⟩, .token ⟨.name, "k"⟩, .token ⟨.colon, ":"⟩,
      .token ⟨.name, "\"b\""⟩]]

theorem words_conserved_wordyTrees : TokenTree.AllClean wordyTrees
    ∧ ∃ n, ((Node.ofTree wordyTrees).run []).1 = .ok n ∧ ∃ asLeaf asKey : Multiset String,
      asLeaf + asKey = (TokenTree.namesAll wordyTrees : Multiset String)
      ∧ (∀ k ∈ asKey, (Escapes.quoted? k.toList).isSome = true)
      ∧ (n.allKeys : Multiset String) = asKey.map Item.keyText
      ∧ (n.leafNames : Multiset String) = asLeaf
        + Multiset.replicate (TokenTree.optionalsAll wordyTrees) "null"
        + Multiset.replicate (TokenTree.starSuffixes (.group wordyTrees)) "array" := by
  have hclean : TokenTree.AllClean wordyTrees := by
    simp [wordyTrees, TokenTree.AllClean, TokenTree.IsClean]
  have hread : (((Node.ofTree wordyTrees).run []).1).toBool = true := by decide +kernel
  cases hn : ((Node.ofTree wordyTrees).run []).1 with
  | error f => simp [hn, Except.toBool] at hread
  | ok n => exact ⟨hclean, n, rfl, words_conserved hclean hn⟩

end Node

end StructuralTypes

import Mathlib.Data.List.Basic
import StructuralTypes.Proofs.CanonicalText
import StructuralTypes.Proofs.Encoding

/-! Altered forms are refused. The identifier at the root is taken from the content at every
depth, so a text that keeps it has the content that was written, if digests tell contents
apart. What is left are the identifiers below the root, and reading comes to each of them:
it gives the type just when all of them are right, and refuses the text otherwise. -/

namespace StructuralTypes.Node

open Outcome Json

/-! ### Readings that refuse -/

section Settles

variable {α β : Type} {r : Except DecodeError α} {a : α} {b : β} {P Q : Prop}

/-- A reading that refuses what it reads. -/
def Refused (r : Except DecodeError α) : Prop :=
  ∃ e, r = .error e ∧ e.isRefusal = true

/-- A reading with a result on a condition, and a refusal without it. -/
def Settles (r : Except DecodeError α) (a : α) (P : Prop) : Prop :=
  (P → r = .ok a) ∧ (¬P → Refused r)

theorem settles_ok (a : α) : Settles (.ok a) a True :=
  ⟨fun _ => rfl, fun h => (h trivial).elim⟩

theorem Settles.congr (h : Settles r a P) (hpq : P ↔ Q) : Settles r a Q := by
  rwa [← propext hpq]

theorem Settles.bind {f : α → Except DecodeError β} (hr : Settles r a P)
    (hf : Settles (f a) b Q) : Settles (r >>= f) b (P ∧ Q) := by
  refine ⟨fun h => (bind_of_ok (hr.1 h.1) f).trans (hf.1 h.2), fun h => ?_⟩
  by_cases hp : P
  · rw [bind_of_ok (hr.1 hp)]
    exact hf.2 fun hq => h ⟨hp, hq⟩
  · obtain ⟨e, he, hrefusal⟩ := hr.2 hp
    exact ⟨e, bind_of_error he f, hrefusal⟩

/-- A reading that follows without a condition. -/
theorem Settles.bind_ok {f : α → Except DecodeError β} (hr : Settles r a P)
    (hf : f a = .ok b) : Settles (r >>= f) b P :=
  (hr.bind (hf ▸ settles_ok b)).congr (iff_of_eq (and_true P))

end Settles

/-! ### Members of altered objects -/

theorem canonicalText_eq (j : Json) : j.canonicalText = j.content.render (compact false) :=
  rfl

/-- Identifiers are the same where contents are. -/
theorem identifier_eq_of_content {d e : Json} (h : d.content = e.content) :
    d.identifier = e.identifier := by
  rw [identifier, identifier, canonicalText_eq, canonicalText_eq, h]

/-- Two values with the same content. -/
def Alike (d e : Json) : Prop :=
  d.Distinct ∧ d.content = e.content

theorem Alike.eq_of_atom {j e : Json} (h : Alike j e) (he : e.isAtom = true) :
    j = e := by
  refine eq_of_content_atom ?_ he
  rw [h.2]
  cases e with
  | array items | object members => cases he
  | _ => rfl

theorem Alike.exists_array {j : Json} {es : List Json} (h : Alike j (.array es)) :
    ∃ xs, j = .array xs ∧ xs.map content = es.map content := by
  obtain ⟨-, h⟩ := h
  rw [content_array] at h
  cases j with
  | array xs =>
    rw [content_array] at h
    exact ⟨xs, rfl, Json.array.inj h⟩
  | object members => rw [content_object] at h; cases h
  | _ => cases h

theorem Alike.exists_object {j : Json} {es : List (String × Json)} (h : Alike j (.object es)) :
    ∃ ms, j = .object ms := by
  obtain ⟨-, h⟩ := h
  rw [content_object] at h
  cases j with
  | array xs => rw [content_array] at h; cases h
  | object ms => exact ⟨ms, rfl⟩
  | _ => cases h

/-- Members hold, under the name of each field, a value that is related to it. -/
def AgreeOn (R : Json → Json → Prop) (members fields : List (String × Json)) : Prop :=
  ∀ p ∈ fields, ∃ j, Table.lookup? p.1 members = some j ∧ R j p.2

section Fields

variable {ms fields : List (String × Json)} {R : Json → Json → Prop}

@[simp] theorem agreeOn_nil : AgreeOn R ms [] ↔ True := by
  simp [AgreeOn]

@[simp] theorem agreeOn_cons {key : String} {value : Json} :
    AgreeOn R ms ((key, value) :: fields)
      ↔ (∃ j, Table.lookup? key ms = some j ∧ R j value) ∧ AgreeOn R ms fields :=
  List.forall_mem_cons

theorem lookup?_identifierName (h : identifierName ∉ Table.keys fields) (j : Json) :
    Table.lookup? identifierName (fields ++ [(identifierName, j)]) = some j := by
  rw [Table.lookup?_append h, Table.lookup?, if_pos rfl]

theorem lookup?_fields {key : String} (h : key ≠ identifierName) (j : Json) :
    Table.lookup? key (fields ++ [(identifierName, j)]) = Table.lookup? key fields := by
  induction fields with
  | nil => exact if_neg h.symm
  | cons p rest ih => rw [List.cons_append, Table.lookup?, Table.lookup?, ih]

theorem nodup_keys_identified (h : (Table.keys fields ++ [identifierName]).Nodup) (j : Json) :
    (Table.keys (fields ++ [(identifierName, j)])).Nodup := by
  rwa [Table.keys_concat]

/-- The names of fields, and that of identifiers, are distinct. -/
abbrev FieldNames (fields : List (String × Json)) : Prop :=
  (Table.keys fields ++ [identifierName]).Nodup

theorem FieldNames.fresh (h : FieldNames fields) : identifierName ∉ Table.keys fields :=
  fun hm => (List.nodup_append.1 h).2.2 _ hm _ List.mem_cons_self rfl

theorem lookup?_of_alike (hf : FieldNames fields)
    (h : Alike (.object ms) (identified fields)) {key : String} (hk : key ≠ identifierName) :
    (Table.lookup? key ms).map content = (Table.lookup? key fields).map content := by
  have hc := (content_object_eq_iff h.1.1 (nodup_keys_identified hf _)).1 h.2 key hk
  rwa [lookup?_fields hk] at hc

theorem agreeOn_alike (hf : FieldNames fields) (h : Alike (.object ms) (identified fields)) :
    AgreeOn Alike ms fields := by
  rintro ⟨key, value⟩ hp
  have hk : key ≠ identifierName := fun e => hf.fresh (e ▸ List.mem_map_of_mem hp)
  have hc := lookup?_of_alike hf h hk
  rw [Table.lookup?_of_mem hf.of_append_left hp] at hc
  obtain ⟨j, hj, hjc⟩ := Option.map_eq_some_iff.1 hc
  exact ⟨j, hj, h.1.of_lookup? hj, hjc⟩

/-- An object of the right content is the one that was written, up to order, if its own
identifier is right and its members are the ones that were written. -/
theorem sameButOrder_identified_iff (hf : FieldNames fields)
    (h : Alike (.object ms) (identified fields)) :
    SameButOrder (.object ms) (identified fields)
      ↔ Table.lookup? identifierName ms = some (.string (identifier (.object fields)))
        ∧ AgreeOn SameButOrder ms fields := by
  rw [identified, sameButOrder_object_iff h.1.1 (nodup_keys_identified hf _)]
  constructor
  · intro hall
    refine ⟨?_, ?_⟩
    · have hid := hall identifierName
      rw [lookup?_identifierName hf.fresh] at hid
      obtain ⟨j, hj, hs⟩ := Option.map_eq_some_iff.1 hid
      rw [hj, eq_of_sortMembers_atom hs rfl]
      rfl
    · rintro ⟨key, value⟩ hp
      have hk : key ≠ identifierName := fun e => hf.fresh (e ▸ List.mem_map_of_mem hp)
      have hs := hall key
      rw [lookup?_fields hk, Table.lookup?_of_mem hf.of_append_left hp] at hs
      exact Option.map_eq_some_iff.1 hs
  · rintro ⟨hid, hall⟩ key
    by_cases hk : key = identifierName
    · rw [hk, hid, lookup?_identifierName hf.fresh]
    · rw [lookup?_fields hk]
      cases hl : Table.lookup? key fields with
      | none =>
        have hc := lookup?_of_alike hf h hk
        rw [hl] at hc
        rw [Option.map_eq_none_iff.1 hc]
      | some value =>
        exact Option.map_eq_some_iff.2 (hall _ (Table.mem_of_lookup? hl))

theorem identifier_of_alike (h : Alike (.object ms) (identified fields)) :
    identifier (.object ms) = identifier (.object fields) := by
  rw [← identifier_append fields (.string (identifier (.object fields)))]
  exact identifier_eq_of_content h.2

/-- An identifier is verified against the content that was written. -/
theorem settles_verify (h : Alike (.object ms) (identified fields)) :
    Settles (verify ms) ()
      (Table.lookup? identifierName ms = some (.string (identifier (.object fields)))) := by
  rw [← identifier_of_alike h]
  constructor
  · intro hid
    rw [verify, hid]
    exact if_pos rfl
  · intro hid
    rw [verify]
    split
    · exact ⟨_, rfl, rfl⟩
    · exact ⟨_, rfl, rfl⟩
    next stored hs =>
      rw [if_neg fun e => hid (by rw [hs, e])]
      exact ⟨_, rfl, rfl⟩
    · exact ⟨_, rfl, rfl⟩

end Fields

/-! ### Reading altered values -/

/-- Among the values of the content of `e`, a reading gives `a` for those that are `e` up to
order, and refuses the others. -/
def Guards {α : Type} (read : Json → Except DecodeError α) (e : Json) (a : α) : Prop :=
  ∀ j, Alike j e → Settles (read j) a (j.SameButOrder e)

theorem decodeAt_eq (name : String) (members : List (String × Json)) :
    decodeAt name members = (Table.lookup? name members).map decode := by
  induction members with
  | nil => rfl
  | cons p rest ih =>
    rw [decodeAt, Table.lookup?, ih]
    split <;> rfl

theorem decodeItemsAt_eq (name : String) (members : List (String × Json)) :
    decodeItemsAt name members = (Table.lookup? name members).map decodeItems := by
  induction members with
  | nil => rfl
  | cons p rest ih =>
    rw [decodeItemsAt, Table.lookup?, ih]
    split <;> rfl

theorem decodePropertiesAt_eq (name : String) (members : List (String × Json)) :
    decodePropertiesAt name members = (Table.lookup? name members).map decodeProperties := by
  induction members with
  | nil => rfl
  | cons p rest ih =>
    rw [decodePropertiesAt, Table.lookup?, ih]
    split <;> rfl

theorem decodeIndexerAt_eq (name : String) (members : List (String × Json)) :
    decodeIndexerAt name members = (Table.lookup? name members).map decodeIndexer := by
  induction members with
  | nil => rfl
  | cons p rest ih =>
    rw [decodeIndexerAt, Table.lookup?, ih]
    split <;> rfl

section Lists

variable {α : Type} {read : Json → Except DecodeError α} {write : α → Json}

/-- Items are read one after the other, and refused with the first that is refused. -/
theorem settles_mapM {as : List α} (h : ∀ a ∈ as, Guards read (write a) a) {xs : List Json}
    (hd : ∀ j ∈ xs, j.Distinct) (hc : xs.map content = (as.map write).map content) :
    Settles (xs.mapM read) as (xs.map sortMembers = (as.map write).map sortMembers) := by
  induction as generalizing xs with
  | nil =>
    obtain rfl : xs = [] := by simpa using hc
    exact (settles_ok []).congr (by simp)
  | cons a as ih =>
    obtain ⟨j, xs, rfl⟩ : ∃ j rest, xs = j :: rest := by
      cases xs with
      | nil => cases hc
      | cons j rest => exact ⟨j, rest, rfl⟩
    rw [List.forall_mem_cons] at h hd
    rw [List.map_cons, List.map_cons, List.map_cons, List.cons.injEq] at hc
    rw [List.mapM_cons]
    have hrest := (ih h.2 hd.2 hc.2).bind_ok (f := fun as => pure (a :: as)) rfl
    refine ((h.1 j ⟨hd.1, hc.1⟩).bind hrest).congr ?_
    rw [List.map_cons, List.map_cons, List.map_cons, List.cons.injEq]
    rfl

theorem guards_array {as : List α} (h : ∀ a ∈ as, Guards read (write a) a)
    {readAll : Json → Except DecodeError (List α)}
    (hread : ∀ xs, readAll (.array xs) = xs.mapM read) :
    Guards readAll (.array (as.map write)) as := by
  intro j hj
  obtain ⟨xs, rfl, hc⟩ := hj.exists_array
  rw [hread]
  refine (settles_mapM h (fun j hx => hj.1.of_mem hx) hc).congr ?_
  rw [SameButOrder, sortMembers_array, sortMembers_array, Json.array.injEq]

end Lists

/-- An object is read after its identifier was verified. -/
theorem guards_identified {α : Type} {read : Json → Except DecodeError α}
    {fields : List (String × Json)} {a : α}
    (hread : ∀ ms, AgreeOn Alike ms fields → ∃ r, read (.object ms) = verify ms >>= (fun _ => r)
      ∧ Settles r a (AgreeOn SameButOrder ms fields))
    (hf : FieldNames fields) : Guards read (identified fields) a := by
  intro j hj
  obtain ⟨ms, rfl⟩ := hj.exists_object
  obtain ⟨r, hr, hsettles⟩ := hread ms (agreeOn_alike hf hj)
  rw [hr]
  refine ((settles_verify hj).bind hsettles).congr ?_
  exact (sameButOrder_identified_iff hf hj).symm

theorem decodeAll_eq_mapM (items : List Json) : decodeAll items = items.mapM decode := by
  induction items with
  | nil => rfl
  | cons j rest ih => rw [decodeAll, List.mapM_cons, ih]

theorem decodeEachProperty_eq_mapM (items : List Json) :
    decodeEachProperty items = items.mapM decodeProperty := by
  induction items with
  | nil => rfl
  | cons j rest ih => rw [decodeEachProperty, List.mapM_cons, ih]

theorem encodeAll_eq_map (nodes : List Node) : encodeAll nodes = nodes.map encode := by
  induction nodes with
  | nil => rfl
  | cons n rest ih => rw [encodeAll, ih, List.map_cons]

theorem encodeProperties_eq_map (properties : List Property) :
    encodeProperties properties = properties.map encodeProperty := by
  induction properties with
  | nil => rfl
  | cons p rest ih => rw [encodeProperties, ih, List.map_cons]

theorem needText_of_lookup? {name s : String} {ms : List (String × Json)}
    (h : Table.lookup? name ms = some (.string s)) : needText name ms = .ok s := by
  rw [needText, need, h]
  rfl

attribute [local simp] decode

theorem guards_leaf (name : String) : Guards decode (encode (leaf name)) (leaf name) := by
  rw [encode]
  refine guards_identified (fun ms h => ?_) (by simp [FieldNames, Table.keys, identifierName])
  simp only [agreeOn_cons] at h
  obtain ⟨⟨j, htype, hj⟩, ⟨k, hname, hk⟩, -⟩ := h
  obtain rfl := hj.eq_of_atom rfl
  obtain rfl := hk.eq_of_atom rfl
  refine ⟨_, by rw [decode, htype], ?_⟩
  rw [needText_of_lookup? hname]
  exact (settles_ok _).congr (by simp [htype, hname, SameButOrder])

theorem guards_array_node {element : Node} (h : Guards decode (encode element) element) :
    Guards decode (encode (array element)) (array element) := by
  rw [encode]
  refine guards_identified (fun ms hm => ?_) (by simp [FieldNames, Table.keys, identifierName])
  simp only [agreeOn_cons] at hm
  obtain ⟨⟨j, htype, hj⟩, ⟨k, helement, hk⟩, -⟩ := hm
  obtain rfl := hj.eq_of_atom rfl
  refine ⟨_, by rw [decode, htype], ?_⟩
  rw [decodeAt_eq, helement]
  refine Settles.congr (Settles.bind_ok (h k hk) rfl) ?_
  simp [htype, helement, SameButOrder]

theorem guards_items {nodes : List Node} (h : ∀ n ∈ nodes, Guards decode (encode n) n) :
    Guards decodeItems (.array (encodeAll nodes)) nodes := by
  rw [encodeAll_eq_map]
  exact guards_array h fun xs => by rw [decodeItems, decodeAll_eq_mapM]

theorem guards_properties {properties : List Property}
    (h : ∀ p ∈ properties, Guards decodeProperty (encodeProperty p) p) :
    Guards decodeProperties (.array (encodeProperties properties)) properties := by
  rw [encodeProperties_eq_map]
  exact guards_array h fun xs => by rw [decodeProperties, decodeEachProperty_eq_mapM]

theorem guards_property {p : Property} (h : Guards decode (encode p.value) p.value) :
    Guards decodeProperty (encodeProperty p) p := by
  obtain ⟨key, value, optional⟩ := p
  rw [encodeProperty]
  refine guards_identified (fun ms hm => ?_) (by simp [FieldNames, Table.keys, identifierName])
  simp only [agreeOn_cons] at hm
  obtain ⟨⟨i, hkey, hi⟩, ⟨j, hvalue, hj⟩, ⟨k, hoptional, hk⟩, -⟩ := hm
  obtain rfl := hi.eq_of_atom rfl
  obtain rfl := hk.eq_of_atom rfl
  refine ⟨_, by rw [decodeProperty], ?_⟩
  rw [needText_of_lookup? hkey, decodeAt_eq, hvalue, hoptional]
  refine Settles.congr (Settles.bind (settles_ok key) (Settles.bind_ok (h j hj) rfl)) ?_
  simp [hkey, hvalue, hoptional, SameButOrder, Property.value]

theorem guards_indexer {indexer : Option Indexer}
    (h : ∀ i ∈ indexer,
      Guards decode (encode i.key) i.key ∧ Guards decode (encode i.value) i.value) :
    Guards decodeIndexer (encodeIndexer indexer) indexer := by
  rcases indexer with _ | ⟨key, value⟩
  · intro j hj
    obtain rfl := hj.eq_of_atom rfl
    exact (settles_ok none).congr (by simp [encodeIndexer, SameButOrder])
  · obtain ⟨hk, hv⟩ := h _ rfl
    rw [encodeIndexer]
    refine guards_identified (fun ms hm => ?_) (by simp [FieldNames, Table.keys, identifierName])
    simp only [agreeOn_cons] at hm
    obtain ⟨⟨i, hkey, hi⟩, ⟨j, hvalue, hj⟩, -⟩ := hm
    refine ⟨_, by rw [decodeIndexer], ?_⟩
    rw [decodeAt_eq, decodeAt_eq, hkey, hvalue]
    refine Settles.congr (Settles.bind (hk i hi) (Settles.bind_ok (hv j hj) rfl)) ?_
    simp [hkey, hvalue, Indexer.key, Indexer.value]

/-- The types that are a list of parts are written and read alike. -/
theorem guards_parts {label name : String} {make : List Node → Node} {nodes : List Node}
    (h : ∀ n ∈ nodes, Guards decode (encode n) n)
    (hwrite : encode (make nodes)
      = identified [("type", .string label), (name, .array (encodeAll nodes))])
    (hread : ∀ ms k, Table.lookup? "type" ms = some (.string label) →
      Table.lookup? name ms = some k →
      decode (.object ms) = verify ms >>= fun _ => decodeItems k >>= fun nodes => pure (make nodes))
    (hf : FieldNames [("type", .string label), (name, .array (encodeAll nodes))]) :
    Guards decode (encode (make nodes)) (make nodes) := by
  rw [hwrite]
  refine guards_identified (fun ms hm => ?_) hf
  simp only [agreeOn_cons] at hm
  obtain ⟨⟨j, htype, hj⟩, ⟨k, hnodes, hk⟩, -⟩ := hm
  obtain rfl := hj.eq_of_atom rfl
  refine ⟨_, hread ms k htype hnodes, ?_⟩
  refine Settles.congr (Settles.bind_ok (guards_items h k hk) rfl) ?_
  simp [htype, hnodes, SameButOrder]

theorem guards_union {members : List Node} (h : ∀ n ∈ members, Guards decode (encode n) n) :
    Guards decode (encode (union members)) (union members) := by
  refine guards_parts h (by rw [encode]) (fun ms k htype hmembers => ?_)
    (by simp [FieldNames, Table.keys, identifierName])
  simp [htype, decodeItemsAt_eq, hmembers, orMissing]

theorem guards_intersection {members : List Node}
    (h : ∀ n ∈ members, Guards decode (encode n) n) :
    Guards decode (encode (intersection members)) (intersection members) := by
  refine guards_parts h (by rw [encode]) (fun ms k htype hmembers => ?_)
    (by simp [FieldNames, Table.keys, identifierName])
  simp [htype, decodeItemsAt_eq, hmembers, orMissing]

theorem guards_tuple {elements : List Node} (h : ∀ n ∈ elements, Guards decode (encode n) n) :
    Guards decode (encode (tuple elements)) (tuple elements) := by
  refine guards_parts h (by rw [encode]) (fun ms k htype helements => ?_)
    (by simp [FieldNames, Table.keys, identifierName])
  simp [htype, decodeItemsAt_eq, helements, orMissing]

theorem guards_shape {exact : Bool} {properties : List Property} {indexer : Option Indexer}
    (hp : ∀ p ∈ properties, Guards decode (encode p.value) p.value)
    (hi : ∀ i ∈ indexer,
      Guards decode (encode i.key) i.key ∧ Guards decode (encode i.value) i.value) :
    Guards decode (encode (shape exact properties indexer)) (shape exact properties indexer) := by
  rw [encode]
  refine guards_identified (fun ms hm => ?_) (by simp [FieldNames, Table.keys, identifierName])
  simp only [agreeOn_cons] at hm
  obtain ⟨⟨i, htype, hti⟩, ⟨j, hexact, hej⟩, ⟨k, hproperties, hk⟩, ⟨l, hindexer, hl⟩, -⟩ := hm
  obtain rfl := hti.eq_of_atom rfl
  obtain rfl := hej.eq_of_atom rfl
  refine ⟨_, by rw [decode, htype], ?_⟩
  rw [need, hexact, decodePropertiesAt_eq, decodeIndexerAt_eq, hproperties, hindexer]
  have hps := guards_properties (fun p hm => guards_property (hp p hm)) k hk
  refine Settles.congr (Settles.bind (settles_ok (Json.bool exact))
    (Settles.bind hps (Settles.bind_ok (guards_indexer hi l hl) rfl))) ?_
  simp [htype, hexact, hproperties, hindexer, SameButOrder]

/-- Every object of a form is reached by reading: among the values of its content only the
form itself is read, and it is read as the type. -/
theorem guards_decode {n : Node} (h : n.Proper) : Guards decode (encode n) n := by
  induction n using induction_parts with
  | h n ih =>
    have hall : ∀ part ∈ n.parts, Guards decode (encode part) part :=
      fun part hp => ih part hp ((proper_iff h.1).1 h part hp)
    cases n with
    | leaf name => exact guards_leaf name
    | union members => exact guards_union hall
    | intersection members => exact guards_intersection hall
    | array element => exact guards_array_node (hall element List.mem_cons_self)
    | tuple elements => exact guards_tuple hall
    | shape exact properties indexer =>
      refine guards_shape (fun p hp => hall p.value ?_) ?_
      · exact List.mem_append_left _ (List.mem_map_of_mem hp)
      · rintro i rfl
        exact ⟨hall i.key (by simp [parts]), hall i.value (by simp [parts])⟩
    | stray s => cases h.1

/-! ### Texts -/

section Texts

variable {text : String} {j k : Json}

/-- Two readings of a text with halves give a value where identifiers leave the halves out. -/
theorem ofText?_of_halves (hp : parse? text = none)
    (hj : parse (some (Char.ofNat 0x10FFFE)) text = .ok j)
    (hk : parse (some (Char.ofNat 0x10FFFD)) text = .ok k) :
    ofText? text = if j.canonicalText = k.canonicalText then some j else none := by
  rw [ofText?, hp]
  dsimp only
  rw [hj, hk]
  rfl

theorem ofHalvedJson_object {members : List (String × Json)}
    (hj : parse (some (Char.ofNat 0x10FFFE)) text = .ok (.object members))
    (hk : parse (some (Char.ofNat 0x10FFFD)) text = .ok k) :
    ofHalvedJson text
      = if (Json.object members).canonicalText = k.canonicalText then decode (.object members)
        else
          match Table.lookup? identifierName members with
          | none | some .null => throw .identifierMissing
          | some _ => throw .unencodable := by
  unfold ofHalvedJson
  dsimp only
  rw [hj, hk]
  rfl

theorem refused_ofHalvedJson_left {fault : Json.Fault}
    (hj : parse (some (Char.ofNat 0x10FFFE)) text = .error fault) :
    Refused (ofHalvedJson text) := by
  unfold ofHalvedJson
  dsimp only
  rw [hj]
  cases fault <;> exact ⟨_, rfl, rfl⟩

theorem refused_ofHalvedJson_right {fault : Json.Fault}
    (hj : parse (some (Char.ofNat 0x10FFFE)) text = .ok j)
    (hk : parse (some (Char.ofNat 0x10FFFD)) text = .error fault) :
    Refused (ofHalvedJson text) := by
  unfold ofHalvedJson
  dsimp only
  rw [hj, hk]
  cases fault <;> exact ⟨_, rfl, rfl⟩

/-- The two readings of a text with halves are refused if identifiers do not leave them out. -/
theorem refused_ofHalvedJson_of_ne (hj : parse (some (Char.ofNat 0x10FFFE)) text = .ok j)
    (hk : parse (some (Char.ofNat 0x10FFFD)) text = .ok k)
    (hne : j.canonicalText ≠ k.canonicalText) : Refused (ofHalvedJson text) := by
  cases j with
  | object members =>
    rw [ofHalvedJson_object hj hk, if_neg hne]
    split <;> exact ⟨_, rfl, rfl⟩
  | _ =>
    unfold ofHalvedJson
    dsimp only
    rw [hj, hk]
    exact ⟨_, rfl, rfl⟩

/-- The value of a text is what is read. -/
theorem ofJson_of_ofText? {members : List (String × Json)}
    (h : ofText? text = some (.object members)) : ofJson text = decode (.object members) := by
  cases hp : parse? text with
  | some d =>
    rw [ofText?, hp] at h
    cases h
    rw [ofJson, hp]
  | none =>
    have hread : ofJson text = ofHalvedJson text := by rw [ofJson, hp]
    cases hj : parse (some (Char.ofNat 0x10FFFE)) text with
    | error fault => rw [ofText?, hp, hj] at h; cases h
    | ok j =>
      cases hk : parse (some (Char.ofNat 0x10FFFD)) text with
      | error fault => rw [ofText?, hp, hj, hk] at h; cases h
      | ok k =>
        rw [ofText?_of_halves hp hj hk] at h
        split at h
        next hcanon =>
          cases h
          rw [hread, ofHalvedJson_object hj hk]
          exact if_pos hcanon
        next => cases h

/-- A text without a value is refused. -/
theorem refused_of_ofText?_none (h : ofText? text = none) : Refused (ofJson text) := by
  cases hp : parse? text with
  | some d =>
    rw [ofText?, hp] at h
    cases h
  | none =>
    have hread : ofJson text = ofHalvedJson text := by rw [ofJson, hp]
    rw [hread]
    cases hj : parse (some (Char.ofNat 0x10FFFE)) text with
    | error fault => exact refused_ofHalvedJson_left hj
    | ok j =>
      cases hk : parse (some (Char.ofNat 0x10FFFD)) text with
      | error fault => exact refused_ofHalvedJson_right hj hk
      | ok k =>
        rw [ofText?_of_halves hp hj hk] at h
        refine refused_ofHalvedJson_of_ne hj hk fun hcanon => ?_
        rw [if_pos hcanon] at h
        cases h

end Texts

/-- A type is written with the identifier of what is written. -/
theorem storedIdentifier?_encode {n : Node} (h : n.isStray = false) :
    (encode n).storedIdentifier? = some (.string (encode n).identifier) := by
  have hidentified : ∀ fields, identifierName ∉ Table.keys fields →
      (identified fields).storedIdentifier? = some (.string (identified fields).identifier) := by
    intro fields hf
    rw [identified, storedIdentifier?, lookup?_identifierName hf, identifier_append]
  cases n with
  | stray s => cases h
  | _ => rw [encode]; exact hidentified _ (by simp [Table.keys, identifierName])

theorem exists_object_of_storedIdentifier? {d j : Json} (h : d.storedIdentifier? = some j) :
    ∃ ms, d = .object ms ∧ Table.lookup? identifierName ms = some j := by
  cases d with
  | object ms => exact ⟨ms, rfl, h⟩
  | _ => cases h

/-- An identifier that is not the digest of the content is refused. -/
theorem refused_of_identifier_ne {ms : List (String × Json)} {s : String}
    (hid : Table.lookup? identifierName ms = some (.string s))
    (hs : s ≠ identifier (.object ms)) : Refused (decode (.object ms)) := by
  have hverify : verify ms = .error .identifierMismatch := by
    rw [verify, hid]
    exact if_neg hs
  rw [decode]
  exact ⟨_, bind_of_error hverify _, rfl⟩

/-- A text that holds a type's root identifier is read as the type if it is a form of it, and
refused if anything else in it differs, at any depth: provided that digests tell the canonical
texts apart. -/
theorem ofJson_of_identifier_kept {n : Node} (hn : n.Proper) {text : String}
    (hid : ∀ d, ofText? text = some d → d.storedIdentifier? = (encode n).storedIdentifier?)
    (hdigest : ∀ d, ofText? text = some d → d.canonicalText ≠ (encode n).canonicalText →
      d.identifier ≠ (encode n).identifier) :
    (¬n.IsForm text → ∃ e, ofJson text = .error e ∧ e.isRefusal = true)
      ∧ (n.IsForm text → ofJson text = .ok n) := by
  cases ht : ofText? text with
  | none =>
    refine ⟨fun _ => refused_of_ofText?_none ht, ?_⟩
    rintro ⟨d, hd, -⟩
    rw [ht] at hd
    cases hd
  | some d =>
    have hform : n.IsForm text ↔ d.SameButOrder (encode n) := by
      simp [IsForm, ht]
    have hnumberless := numberless_encode hn
    have hdistinct := distinct_of_ofText? ht
    obtain ⟨ms, rfl, hms⟩ :=
      exists_object_of_storedIdentifier? ((hid d ht).trans (storedIdentifier?_encode hn.1))
    rw [hform, ofJson_of_ofText? ht]
    by_cases hcanon : (Json.object ms).canonicalText = (encode n).canonicalText
    · have halike : Alike (.object ms) (encode n) :=
        ⟨hdistinct, content_eq_of_canonicalText hnumberless hcanon⟩
      have hsettles := guards_decode hn _ halike
      exact ⟨hsettles.2, hsettles.1⟩
    · refine ⟨fun _ => refused_of_identifier_ne hms (hdigest _ ht hcanon).symm, fun hsame => ?_⟩
      have hcontent := content_eq_of_sameButOrder hdistinct hnumberless.distinct hsame
      exact absurd (by rw [canonicalText_eq, canonicalText_eq, hcontent]) hcanon

/-- The form of an array of whole numbers without the identifier of its element. -/
def bareArray : Json :=
  .object [("type", .string "Array"),
    ("element", .object [("type", .string "Leaf"), ("name", .string "int")]),
    (identifierName, .string (encode (array (leaf "int"))).identifier)]

def bareText : String :=
  bareArray.render (compact false)

theorem numberless_bareArray : bareArray.Numberless :=
  ⟨by simp [identifierName], trivial, ⟨by simp, trivial, trivial, trivial⟩, trivial, trivial⟩

theorem content_bareArray : bareArray.content = (encode (array (leaf "int"))).content := by
  have helement : (Json.object [("type", .string "Leaf"), ("name", .string "int")]).content
      = (encode (leaf "int")).content := by
    rw [encode, identified, content_object, content_object]
    rfl
  rw [bareArray, encode, identified, content_object, content_object]
  simp [Table.erase, identifierName, helement]

theorem not_sameButOrder_bareArray : ¬bareArray.SameButOrder (encode (array (leaf "int"))) := by
  have hproper : (array (leaf "int")).Proper := by
    simp only [Proper]
    decide
  have hdistinct := (numberless_encode hproper).distinct
  intro h
  rw [encode, identified] at h hdistinct
  have helement := (sameButOrder_object_iff numberless_bareArray.1 hdistinct.1).1 h "element"
  rw [encode, identified] at helement
  have hleaf := (sameButOrder_object_iff (by simp [Table.keys])
    (by simp [Table.keys, identifierName])).1 (Option.some.inj helement) identifierName
  cases hleaf

/-- The identifier of the element is missed although no other identifier is taken from it. -/
theorem ofJson_bareArray :
    (array (leaf "int")).Proper
      ∧ (∀ d, ofText? bareText = some d →
        d.storedIdentifier? = (encode (array (leaf "int"))).storedIdentifier?)
      ∧ (∀ d, ofText? bareText = some d →
        d.canonicalText ≠ (encode (array (leaf "int"))).canonicalText →
          d.identifier ≠ (encode (array (leaf "int"))).identifier)
      ∧ ¬(array (leaf "int")).IsForm bareText
      ∧ ∃ e, ofJson bareText = .error e ∧ e.isRefusal = true := by
  have hproper : (array (leaf "int")).Proper := by
    simp only [Proper]
    decide
  have htext : ofText? bareText = some bareArray := by
    rw [ofText?, parse?, bareText, parse_render numberless_bareArray]
    rfl
  have hvalue : ∀ d, ofText? bareText = some d → d = bareArray :=
    fun d hd => (Option.some.inj (htext.symm.trans hd)).symm
  have hid : ∀ d, ofText? bareText = some d →
      d.storedIdentifier? = (encode (array (leaf "int"))).storedIdentifier? := fun d hd => by
    rw [hvalue d hd, storedIdentifier?_encode rfl]
    rfl
  have hdigest : ∀ d, ofText? bareText = some d →
      d.canonicalText ≠ (encode (array (leaf "int"))).canonicalText →
      d.identifier ≠ (encode (array (leaf "int"))).identifier := fun d hd hne => by
    rw [hvalue d hd, canonicalText_eq, canonicalText_eq, content_bareArray] at hne
    exact absurd rfl hne
  have hform : ¬(array (leaf "int")).IsForm bareText := by
    rintro ⟨d, hd, hsame⟩
    exact not_sameButOrder_bareArray (hvalue d hd ▸ hsame)
  exact ⟨hproper, hid, hdigest, hform, (ofJson_of_identifier_kept hproper hid hdigest).1 hform⟩

end StructuralTypes.Node

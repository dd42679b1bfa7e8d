import Mathlib.Data.List.Basic
import StructuralTypes.Node.Encoding
import StructuralTypes.Proofs.JsonText
import StructuralTypes.Proofs.Walk

/-! A type is read back from its JSON form. An identifier is taken from the content without
identifiers, so it is the same before and after it is put beside the content. -/

namespace StructuralTypes

open Outcome

/-! ### Identifiers -/

namespace Json

theorem eraseMembers_append (name : String) (xs ys : List (String × Json)) :
    eraseMembers name (xs ++ ys) = eraseMembers name xs ++ eraseMembers name ys := by
  induction xs with
  | nil => rfl
  | cons p rest ih =>
    obtain ⟨n, value⟩ := p
    rw [List.cons_append, eraseMembers, eraseMembers, ih]
    split <;> rfl

/-- The identifier of an object does not depend on the one that it holds. -/
theorem identifier_append (members : List (String × Json)) (j : Json) :
    identifier (.object (members ++ [(identifierName, j)])) = identifier (.object members) := by
  have herase : erase identifierName (.object (members ++ [(identifierName, j)]))
      = erase identifierName (.object members) := by
    rw [erase, erase, eraseMembers_append, eraseMembers, if_pos rfl, eraseMembers,
      List.append_nil]
  rw [identifier, canonicalText, herase]
  rfl

theorem membersNumberless_append {xs ys : List (String × Json)} :
    MembersNumberless (xs ++ ys) ↔ MembersNumberless xs ∧ MembersNumberless ys := by
  induction xs with
  | nil => simp [MembersNumberless]
  | cons p rest ih => simp [MembersNumberless, ih, and_assoc]

theorem numberless_identified {members : List (String × Json)} (h : MembersNumberless members)
    (hn : (members.map Prod.fst ++ [identifierName]).Nodup := by
      simp [Json.identifierName]) :
    (identified members).Numberless :=
  ⟨by simpa using hn, membersNumberless_append.2 ⟨h, trivial, trivial⟩⟩

end Json

namespace Node

/-- Content is verified by the identifier that was put beside it. -/
theorem verify_identified {members : List (String × Json)}
    (h : Json.identifierName ∉ members.map Prod.fst := by simp [Json.identifierName]) :
    verify (members ++ [(Json.identifierName, .string (Json.identifier (.object members)))])
      = .ok () := by
  rw [verify, Table.lookup?_append h, Table.lookup?, if_pos rfl]
  exact if_pos (Json.identifier_append members _).symm

/-! ### Reading what was written -/

/-- A type whose JSON form is read back. -/
abbrev DecodesBack (n : Node) : Prop := decode (encode n) = .ok n

theorem decodeAll_encodeAll {nodes : List Node} (h : ∀ n ∈ nodes, n.DecodesBack) :
    decodeAll (encodeAll nodes) = .ok nodes := by
  induction nodes with
  | nil => rfl
  | cons n rest ih =>
    rw [List.forall_mem_cons] at h
    rw [encodeAll, decodeAll]
    exact (bind_of_ok h.1 _).trans (bind_of_ok (ih h.2) _)

theorem decodeProperty_encodeProperty {p : Property} (h : p.value.DecodesBack) :
    decodeProperty (encodeProperty p) = .ok p := by
  obtain ⟨key, value, optional⟩ := p
  rw [encodeProperty, Json.identified, decodeProperty]
  refine (bind_of_ok verify_identified _).trans ?_
  exact bind_of_ok (a := value) h _

theorem decodeEachProperty_encodeProperties {properties : List Property}
    (h : ∀ p ∈ properties, p.value.DecodesBack) :
    decodeEachProperty (encodeProperties properties) = .ok properties := by
  induction properties with
  | nil => rfl
  | cons p rest ih =>
    rw [List.forall_mem_cons] at h
    rw [encodeProperties, decodeEachProperty]
    exact (bind_of_ok (decodeProperty_encodeProperty h.1) _).trans (bind_of_ok (ih h.2) _)

theorem decodeIndexer_encodeIndexer {indexer : Option Indexer}
    (h : ∀ i ∈ indexer, i.key.DecodesBack ∧ i.value.DecodesBack) :
    decodeIndexer (encodeIndexer indexer) = .ok indexer := by
  rcases indexer with _ | ⟨key, value⟩
  · rfl
  · obtain ⟨hkey, hvalue⟩ := h _ rfl
    rw [encodeIndexer, Json.identified, decodeIndexer]
    refine (bind_of_ok verify_identified _).trans ?_
    exact (bind_of_ok (a := key) hkey _).trans (bind_of_ok (a := value) hvalue _)

/-- A tree of the six variants is read back from its JSON form. -/
theorem decodesBack_of_proper {n : Node} (h : n.Proper) : n.DecodesBack := by
  induction n using induction_parts with
  | h n ih =>
    have hall : ∀ part ∈ n.parts, part.DecodesBack :=
      fun part hp => ih part hp ((proper_iff h.1).1 h part hp)
    cases n with
    | leaf name =>
      rw [DecodesBack, encode, Json.identified, decode]
      exact bind_of_ok verify_identified _
    | union members =>
      rw [DecodesBack, encode, Json.identified, decode]
      exact (bind_of_ok verify_identified _).trans (bind_of_ok (decodeAll_encodeAll hall) _)
    | intersection members =>
      rw [DecodesBack, encode, Json.identified, decode]
      exact (bind_of_ok verify_identified _).trans (bind_of_ok (decodeAll_encodeAll hall) _)
    | array element =>
      rw [DecodesBack, encode, Json.identified, decode]
      exact (bind_of_ok verify_identified _).trans
        (bind_of_ok (hall element List.mem_cons_self) _)
    | tuple elements =>
      rw [DecodesBack, encode, Json.identified, decode]
      exact (bind_of_ok verify_identified _).trans (bind_of_ok (decodeAll_encodeAll hall) _)
    | shape exact properties indexer =>
      have hproperties := decodeEachProperty_encodeProperties fun p hp =>
        hall p.value (List.mem_append_left _ (List.mem_map_of_mem hp))
      have hindexer := @decodeIndexer_encodeIndexer indexer (by
        rintro i rfl
        exact ⟨hall i.key (by simp [parts]), hall i.value (by simp [parts])⟩)
      rw [DecodesBack, encode, Json.identified, decode]
      refine (bind_of_ok verify_identified _).trans ?_
      exact (bind_of_ok hproperties _).trans (bind_of_ok hindexer _)
    | stray s => cases h.1

/-! ### The written form -/

theorem allNumberless_encodeAll {nodes : List Node} (h : ∀ n ∈ nodes, (encode n).Numberless) :
    Json.AllNumberless (encodeAll nodes) := by
  induction nodes with
  | nil => trivial
  | cons n rest ih =>
    rw [List.forall_mem_cons] at h
    exact ⟨h.1, ih h.2⟩

theorem allNumberless_encodeProperties {properties : List Property}
    (h : ∀ p ∈ properties, (encode p.value).Numberless) :
    Json.AllNumberless (encodeProperties properties) := by
  induction properties with
  | nil => trivial
  | cons p rest ih =>
    obtain ⟨key, value, optional⟩ := p
    rw [List.forall_mem_cons] at h
    exact ⟨Json.numberless_identified ⟨trivial, h.1, trivial, trivial⟩, ih h.2⟩

theorem numberless_encodeIndexer {indexer : Option Indexer}
    (h : ∀ i ∈ indexer, (encode i.key).Numberless ∧ (encode i.value).Numberless) :
    (encodeIndexer indexer).Numberless := by
  rcases indexer with _ | ⟨key, value⟩
  · trivial
  · obtain ⟨hkey, hvalue⟩ := h _ rfl
    exact Json.numberless_identified ⟨hkey, hvalue, trivial⟩

theorem numberless_encode {n : Node} (h : n.Proper) : (encode n).Numberless := by
  induction n using induction_parts with
  | h n ih =>
    have hall : ∀ part ∈ n.parts, (encode part).Numberless :=
      fun part hp => ih part hp ((proper_iff h.1).1 h part hp)
    cases n with
    | leaf name => exact Json.numberless_identified ⟨trivial, trivial, trivial⟩
    | union members | intersection members | tuple members =>
      exact Json.numberless_identified ⟨trivial, allNumberless_encodeAll hall, trivial⟩
    | array element =>
      exact Json.numberless_identified ⟨trivial, hall element List.mem_cons_self, trivial⟩
    | shape exact properties indexer =>
      have hproperties := allNumberless_encodeProperties fun p hp =>
        hall p.value (List.mem_append_left _ (List.mem_map_of_mem hp))
      have hindexer := @numberless_encodeIndexer indexer (by
        rintro i rfl
        exact ⟨hall i.key (by simp [parts]), hall i.value (by simp [parts])⟩)
      exact Json.numberless_identified ⟨trivial, trivial, hproperties, hindexer, trivial⟩
    | stray s => cases h.1

theorem exists_encode_eq_object {n : Node} (h : n.isStray = false) :
    ∃ members, encode n = .object members := by
  cases n with
  | stray s => cases h
  | _ => exact ⟨_, by rw [encode, Json.identified]⟩

/-- A type is read back from its JSON text. -/
theorem ofJson_toJson_of_proper {n : Node} (h : n.Proper) (asciiOnly : Bool) :
    ofJson (toJson asciiOnly n) = .ok n := by
  obtain ⟨members, hm⟩ := exists_encode_eq_object h.1
  have hparse : Json.parse? (toJson asciiOnly n) = some (.object members) := by
    rw [Json.parse?, toJson, Json.parse_render (numberless_encode h), hm]
    rfl
  have hdecode := decodesBack_of_proper h
  rw [DecodesBack, hm] at hdecode
  rw [ofJson, hparse]
  exact hdecode

/-- Every type is read back from its JSON text in either style, and written again as the
same text. So different types have different texts. -/
theorem ofJson_toJson (n : Node) (h : n.Proper) (asciiOnly : Bool) :
    ofJson (toJson asciiOnly n) = .ok n
      ∧ (∀ m, ofJson (toJson asciiOnly n) = .ok m → toJson asciiOnly m = toJson asciiOnly n)
      ∧ ∀ m : Node, m.Proper → toJson asciiOnly m = toJson asciiOnly n → m = n := by
  have hn := ofJson_toJson_of_proper h asciiOnly
  refine ⟨hn, fun m hm => ?_, fun m hp ht => ?_⟩
  · rw [Except.ok.inj (hm.symm.trans hn)]
  · have hm := ofJson_toJson_of_proper hp asciiOnly
    rw [ht, hn] at hm
    exact (Except.ok.inj hm).symm

/-- A type with no members, a repeated key and texts of many scripts. -/
def oddNode : Node :=
  .shape true
    [.mk "a" (.union []) true, .mk "a" (.tuple [.leaf "\"é\n\u2028", .array (.leaf "")]) false,
      .mk "😀\\" (.intersection [.leaf "中"]) false]
    (some (.mk (.union [.leaf "id"]) (.shape false [] none)))

theorem ofJson_toJson_oddNode : oddNode.Proper ∧ ∀ asciiOnly,
    ofJson (toJson asciiOnly oddNode) = .ok oddNode
      ∧ (∀ m, ofJson (toJson asciiOnly oddNode) = .ok m →
        toJson asciiOnly m = toJson asciiOnly oddNode)
      ∧ ∀ m : Node, m.Proper → toJson asciiOnly m = toJson asciiOnly oddNode → m = oddNode := by
  have h : oddNode.Proper := by
    simp only [Proper]
    decide
  exact ⟨h, ofJson_toJson oddNode h⟩

end Node

end StructuralTypes

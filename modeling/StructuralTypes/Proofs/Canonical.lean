import Mathlib
import StructuralTypes.Node.Parser
import StructuralTypes.Proofs.Ledger
import StructuralTypes.Proofs.Outcomes
import StructuralTypes.Proofs.Walk

/-! What reading makes is canonical, and what it does not make is refused with a fault in
the type. -/

namespace StructuralTypes

namespace Node

/-- Canonical form is a condition on a node and its parts. -/
theorem canonical_iff {n : Node} (h : n.isStray = false) :
    n.Canonical ↔ (n.hasParts 2 = true ∧ n.hasPlainIndexer = true)
      ∧ ∀ part ∈ n.parts, part.Canonical := by
  simp only [Canonical]
  rw [regular_iff h, forall_mem_walk h]
  constructor
  · rintro ⟨⟨hparts, hregular⟩, hplain, hall⟩
    exact ⟨⟨hparts, hplain⟩, fun part hp => ⟨hregular part hp, hall part hp⟩⟩
  · rintro ⟨⟨hparts, hplain⟩, hall⟩
    exact ⟨⟨hparts, fun part hp => (hall part hp).1⟩, hplain, fun part hp => (hall part hp).2⟩

theorem canonical_leaf (name : String) : (leaf name).Canonical :=
  (canonical_iff rfl).2 ⟨⟨rfl, rfl⟩, by simp [parts]⟩

theorem sums_canonical_iff {ns : List Node} {m : Unit} :
    Sums (fun n (_ : Unit) => n.Canonical) ns m ↔ ∀ n ∈ ns, n.Canonical := by
  induction ns with
  | nil => simp [sums_nil_iff]
  | cons n rest ih =>
    rw [sums_cons_iff, List.forall_mem_cons]
    constructor
    · rintro ⟨x, y, hn, hrest, -⟩
      exact ⟨hn, ih.1 hrest⟩
    · rintro ⟨hn, hrest⟩
      exact ⟨(), m, hn, ih.2 hrest, rfl⟩

theorem canonicalLaws :
    Ledger.Laws (fun n (_ : Unit) => n.Canonical) (fun _ => ()) () () where
  name := canonical_leaf
  null := canonical_leaf "null"
  array := canonical_leaf "array"
  suffix h := (canonical_iff rfl).2 ⟨⟨rfl, rfl⟩, by simpa [parts] using h⟩
  union h hlen :=
    (canonical_iff rfl).2 ⟨⟨by simpa [hasParts] using hlen, rfl⟩, sums_canonical_iff.1 h⟩
  intersection h hlen :=
    (canonical_iff rfl).2 ⟨⟨by simpa [hasParts] using hlen, rfl⟩, sums_canonical_iff.1 h⟩
  tuple h hne :=
    (canonical_iff rfl).2 ⟨⟨by simpa [hasParts] using hne, rfl⟩, sums_canonical_iff.1 h⟩
  empty exact := (canonical_iff rfl).2 ⟨⟨rfl, rfl⟩, by simp [parts]⟩
  exactness {exact ps ix m} h := by
    have hc := (canonical_iff rfl).1 h
    cases ix <;> exact (canonical_iff rfl).2 hc
  property {ps ix m text x value y} h _ hv _ hnew := by
    obtain ⟨⟨hkeys, hplain⟩, hparts⟩ := (canonical_iff rfl).1 h
    have hplain' : ∀ ps', (shape false ps' ix).hasPlainIndexer = true := by
      intro ps'
      cases ix <;> exact hplain
    refine (canonical_iff rfl).2 ⟨⟨?_, hplain' _⟩, ?_⟩
    · have hnodup : (ps.map Property.key).Nodup := of_decide_eq_true hkeys
      have hfresh : Item.keyText text ∉ ps.map Property.key := by
        intro hmem
        obtain ⟨p, hp, hk⟩ := List.mem_map.1 hmem
        exact List.any_eq_false.1 hnew p hp (by simpa using hk)
      refine decide_eq_true ?_
      simp only [keys, List.map_append, List.map_cons, List.map_nil, Property.key]
      exact hnodup.append (List.nodup_singleton _) (by simpa [List.Disjoint] using hfresh)
    · intro part hp
      simp only [parts, List.map_append, List.mem_append, List.map_cons, List.map_nil,
        List.mem_singleton, Property.value] at hp
      rcases hp with (hp | rfl) | hp
      · exact hparts part (List.mem_append_left _ hp)
      · exact hv
      · exact hparts part (List.mem_append_right _ hp)
  indexer {ps m text x value y} h hx hv hq := by
    obtain ⟨⟨hkeys, -⟩, hparts⟩ := (canonical_iff rfl).1 h
    have hplain : (Escapes.quoted? text.toList).isNone = true := by simpa using hq
    refine (canonical_iff rfl).2 ⟨⟨hkeys, hplain⟩, ?_⟩
    intro part hp
    simp only [parts, Option.map_some, Option.getD_some, List.mem_append, List.mem_cons,
      List.not_mem_nil, or_false, Indexer.key, Indexer.value] at hp
    rcases hp with hp | rfl | rfl
    · exact hparts part (List.mem_append_left _ hp)
    · exact hx
    · exact hv

def canonicalLedger : Ledger Unit :=
  ⟨fun n _ => n.Canonical, fun _ => (), (), (), canonicalLaws⟩

end Node

/-! ### Reading an annotation -/

theorem TypeFault.exists_written {cause : Cause} {source : Option String} {f : TypeFault}
    (h : ⟨cause, source⟩ = f)
    (hw : cause.IsWritten := by simp [Cause.IsWritten, Cause.causeClass]) :
    ∃ cause : Cause, cause.IsWritten ∧ f = ⟨cause, source⟩ :=
  ⟨cause, hw, h.symm⟩

/-- What keeps a text from having a marker form lies in the text, which is told. -/
theorem MarkerForm.ofText_error {text : String} {f : TypeFault} (h : ofText text = .error f) :
    ∃ cause : Cause, cause.IsWritten ∧ f = ⟨cause, some text⟩ := by
  simp only [ofText] at h
  split at h
  · exact TypeFault.exists_written (Except.error.inj h)
  · split at h
    · exact TypeFault.exists_written (Except.error.inj h)
    · split at h
      · exact TypeFault.exists_written (Except.error.inj h)
      · cases h

/-- What keeps tokens from being nested lies in the tokens, their text not known yet. -/
theorem TokenTree.build_error {tokens : List Token} {level : List TokenTree}
    {outer : List (List TokenTree)} {f : TypeFault} (h : build level outer tokens = .error f) :
    ∃ cause : Cause, cause.IsWritten ∧ f = ⟨cause, none⟩ := by
  induction tokens generalizing level outer with
  | nil =>
    rw [build.eq_def] at h
    dsimp only at h
    split at h
    · cases h
    · exact TypeFault.exists_written (Except.error.inj h)
  | cons t rest ih =>
    rw [build.eq_def] at h
    dsimp only at h
    split at h
    next => exact ih h
    next => exact TypeFault.exists_written (Except.error.inj h)
    next => exact ih h
    next => exact ih h

/-- Whatever keeps an annotation from being nested, its text is known in the end. -/
theorem TokenTree.attach_ofText_error {text : String} {f : TypeFault}
    (h : ofText text = .error f) :
    ∃ cause : Cause, cause.IsWritten ∧ f.attach text = ⟨cause, some text⟩ := by
  rw [ofText, Token.scan] at h
  cases hm : MarkerForm.ofText text with
  | error g =>
    rw [hm] at h
    obtain ⟨cause, hw, rfl⟩ := MarkerForm.ofText_error hm
    exact ⟨cause, hw, by rw [← Except.error.inj h]; rfl⟩
  | ok glyphs =>
    rw [hm] at h
    obtain ⟨cause, hw, rfl⟩ := TokenTree.build_error h
    exact ⟨cause, hw, rfl⟩

namespace Node

/-- An annotation is read from the tokens nested in it. -/
theorem parse?_eq (text : String) :
    parse? text = match TokenTree.ofText text with
      | .ok trees => (((Node.ofTree trees).run []).1).mapError (Fault.attach text)
      | .error f => .error (Fault.attach text (.type f)) := by
  have hrun : parse? text = ((Reading.ofExcept ((TokenTree.ofText text).mapError Fault.type)
      >>= Node.ofTree).run []).1.mapError (Fault.attach text) := rfl
  rw [hrun, Reading.run_bind]
  cases TokenTree.ofText text <;> rfl

/-- The tokens of an annotation are read as a canonical type, or what keeps them from it lies in
the tokens, their text not known yet. -/
theorem ofTree_cases {text : String} {trees : List TokenTree}
    (h : TokenTree.ofText text = .ok trees) :
    (∃ n, ((Node.ofTree trees).run []).1 = .ok n ∧ n.Canonical)
      ∨ ∃ cause : Cause, cause.IsWritten
        ∧ ((Node.ofTree trees).run []).1 = .error (Fault.ofCause cause) := by
  obtain ⟨tokens, -, hbuild⟩ := Outcome.ok_of_bind h
  have hread := @Node.ensures_ofTree Unit _ canonicalLedger trees
    (TokenTree.allClean_of_build hbuild trivial (by simp)) []
  cases hr : ((Node.ofTree trees).run []).1 with
  | ok n =>
    rw [hr] at hread
    exact .inl ⟨n, rfl, hread⟩
  | error fault =>
    rw [hr] at hread
    obtain ⟨cause, hw, rfl⟩ := hread
    exact .inr ⟨cause, hw, rfl⟩

/-- An annotation stands for a canonical type, or is refused for what is written in it. -/
theorem canonical_or_written (text : String) :
    (∃ n, parse? text = .ok n ∧ n.Canonical)
      ∨ ∃ cause : Cause, cause.IsWritten ∧ parse? text = .error (.type ⟨cause, some text⟩) := by
  rw [parse?_eq]
  cases ht : TokenTree.ofText text with
  | error f =>
    obtain ⟨cause, hw, ha⟩ := TokenTree.attach_ofText_error ht
    exact .inr ⟨cause, hw, by rw [← ha]; rfl⟩
  | ok trees =>
    obtain ⟨n, hn, hc⟩ | ⟨cause, hw, hf⟩ := ofTree_cases ht
    · exact .inl ⟨n, by simp only [hn]; rfl, hc⟩
    · exact .inr ⟨cause, hw, by simp only [hf]; rfl⟩

/-- An annotation stands for a canonical type, or is refused with a fault in the type. -/
theorem parse?_spec (text : String) :
    (∃ n, parse? text = .ok n ∧ n.Canonical) ∨ ∃ f, parse? text = .error (.type f) := by
  obtain hn | ⟨cause, -, hf⟩ := canonical_or_written text
  · exact .inl hn
  · exact .inr ⟨_, hf⟩

/-- An annotation that stands for no type is malformed, in conflict with itself or not
supported. The fault knows the annotation, and its message ends with the one mention of it. -/
theorem parse?_ok_or_located (text : String) :
    (∃ n, parse? text = .ok n)
      ∨ ∃ cause : Cause, parse? text = .error (.type ⟨cause, some text⟩)
        ∧ (cause.causeClass = .malformed ∨ cause.causeClass = .conflict
          ∨ cause.causeClass = .unsupported)
        ∧ Fault.message (.type ⟨cause, some text⟩)
          = cause.message ++ " (in annotation " ++ Quoted.render text ++ ")" := by
  obtain ⟨n, hn, -⟩ | ⟨cause, hw, hf⟩ := canonical_or_written text
  · exact .inl ⟨n, hn⟩
  · exact .inr ⟨cause, hf, by simpa [Cause.IsWritten] using hw, rfl⟩

end Node

end StructuralTypes

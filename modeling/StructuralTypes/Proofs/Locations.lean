import StructuralTypes.Failure.Located
import StructuralTypes.Proofs.Flattening

/-! Messages and the places of parts. What a part contributes stands in one piece among the
messages of the whole. Every message of it names the position of the part when the part has a
single one, or when all of them have got a path from further down, which is the path of the part
or extends it; otherwise one of them is without a path. -/

namespace StructuralTypes

open Outcome

namespace FailureKind

variable {k : FailureKind} {given path : String} {finish : Value → String → String}

theorem exists_finish (h : k.namesKeys = true) (given path : String) :
    ∃ finish, k.finish? given path = some finish := by
  cases k <;> first | exact ⟨_, rfl⟩ | cases h

theorem namesKeys_of_finish (h : k.finish? given path = some finish) : k.namesKeys = true := by
  cases k <;> first | rfl | cases h

theorem namesKeys_of_givesPath (h : k.givesPath path = true) : k.namesKeys = true := by
  cases k <;> first | rfl | cases h

theorem namesKeys_of_not_finish (h : k.finish? given path = none) : k.namesKeys = false := by
  cases k <;> first | rfl | cases h

end FailureKind

namespace Failure

variable {children : List (Value × Failure)} {given reason path place : String}
  {unexpected : Unexpected} {k : FailureKind} {key : Value} {finish : Value → String → String}
  {f g c : Failure}

/-! ### Texts in texts -/

namespace Mentions

variable {text part : String}

theorem append_left (h : Mentions text part) (more : String) : Mentions (more ++ text) part := by
  obtain ⟨before, after, rfl⟩ := h
  exact ⟨more ++ before, after, by simp only [String.append_assoc]⟩

theorem isInfix (h : Mentions text part) : part.toList <:+: text.toList := by
  obtain ⟨before, after, rfl⟩ := h
  exact ⟨before.toList, after.toList, by simp only [String.toList_append]⟩

/-- What mentions an append mentions its first part. -/
theorem of_append {more : String} (h : Mentions text (part ++ more)) : Mentions text part := by
  obtain ⟨before, after, rfl⟩ := h
  exact ⟨before, more ++ after, by simp only [String.append_assoc]⟩

end Mentions

/-! ### Paths -/

theorem NamesPath.of_joinPath {text : String} (h : NamesPath (joinPath path key) text) :
    NamesPath path text := by
  obtain ⟨keys, h⟩ := h
  exact ⟨key :: keys, h⟩

theorem NamesPath.of_childPath {text : String}
    (h : NamesPath (childPath unexpected path key) text) : NamesPath path text := by
  rw [childPath] at h
  split at h
  · exact h.of_joinPath
  · exact h

theorem NamesPath.append_left {text : String} (h : NamesPath path text) (more : String) :
    NamesPath path (more ++ text) := by
  obtain ⟨keys, h⟩ := h
  exact ⟨keys, h.append_left more⟩

/-! ### Completed messages -/

theorem mentions_atIndex (container path : String) (key : Value) :
    Mentions (atIndex container path key "") ("at index #" ++ key.label ++ " in") := by
  refine ⟨" ", " " ++ container ++ " members"
    ++ (if path.isEmpty then "" else " of property `" ++ path ++ "`"), ?_⟩
  have hopen : " at index #" = " " ++ "at index #" := rfl
  have hclose : " in " = " in" ++ " " := rfl
  rw [atIndex, hopen, hclose]
  simp only [String.append_assoc, String.empty_append]

theorem namesPath_atIndex (container : String) (h : path ≠ "") (key : Value) :
    NamesPath path (atIndex container path key "") := by
  refine ⟨[], " at index #" ++ key.label ++ " in " ++ container ++ " members ", "", ?_⟩
  have hopen : " of property `" = " " ++ "of property `" := rfl
  have hmembers : " members " = " members" ++ " " := rfl
  rw [atIndex, if_neg (by simpa using h), hopen, hmembers]
  simp only [String.append_assoc, String.empty_append, String.append_empty, List.foldl_nil]

theorem namesPath_inProperty (given path : String) (key : Value) :
    NamesPath (joinPath path key) (inProperty given path key "") := by
  refine ⟨[], " in " ++ given ++ " ", "", ?_⟩
  have hopen : " of property `" = " " ++ "of property `" := rfl
  rw [inProperty, hopen]
  simp only [String.append_assoc, String.empty_append, String.append_empty, List.foldl_nil]

/-- A completed message names the position of its part. -/
theorem namesPosition_finish (h : k.finish? given path = some finish) (key : Value) :
    NamesPosition k path key (finish key "") := by
  cases k with
  | withUnion | withIntersection | withShape | withExactShape | withArray | withTuple => cases h
  | inArrayMembers | inTupleMembers =>
    cases h
    exact .inl ⟨by simp, mentions_atIndex _ path key⟩
  | inShapeProperties | inExactShapeProperties =>
    cases h
    exact .inr (namesPath_inProperty given path key)

/-- A message completed with a path names the path at hand or one that extends it. -/
theorem namesPath_finish (h : k.finish? given path = some finish) (hpath : k.givesPath path = true)
    (key : Value) : NamesPath path (finish key "") := by
  cases k with
  | withUnion | withIntersection | withShape | withExactShape | withArray | withTuple => cases h
  | inArrayMembers | inTupleMembers =>
    cases h
    exact namesPath_atIndex _ (by simpa [FailureKind.givesPath] using hpath) key
  | inShapeProperties | inExactShapeProperties =>
    cases h
    exact (namesPath_inProperty given path key).of_joinPath

/-- A message completed without a path has an index at most. -/
theorem isPathless_finish (h : k.finish? given path = some finish)
    (hpath : k.givesPath path = false) (key : Value) : IsPathless (finish key "") := by
  cases k with
  | withUnion | withIntersection | withShape | withExactShape | withArray | withTuple => cases h
  | inShapeProperties | inExactShapeProperties => cases hpath
  | inArrayMembers | inTupleMembers =>
    cases h
    obtain rfl : path = "" := by simpa [FailureKind.givesPath] using hpath
    exact .inr ⟨_, key, rfl⟩

theorem NamesPosition.append_left {text : String} (h : NamesPosition k path key text)
    (more : String) : NamesPosition k path key (more ++ text) :=
  h.imp (fun h => ⟨h.1, h.2.append_left more⟩) fun h => NamesPath.append_left h more

/-! ### What is told below -/

/-- What a child tells, with the place that its failure gives to a single message. -/
def toldBelow (path : String) (finish : Option (Value → String → String)) (p : Value × Failure) :
    List Telling :=
  match finish with
  | some finish =>
    if p.2.isAtomic then [⟨p.2, finish p.1 ""⟩] else p.2.tellings (joinPath path p.1)
  | none => p.2.tellings path

theorem tellingsKeyed_eq_flatMap (path : String) (finish : Value → String → String)
    (children : List (Value × Failure)) :
    tellingsKeyed path (fun key => finish key "") children
      = children.flatMap (toldBelow path (some finish)) := by
  induction children with
  | nil => rfl
  | cons p rest ih => rw [tellingsKeyed, ih, List.flatMap_cons, toldBelow]

/-- A failure of a kind tells what its children tell, unless it has a single message. -/
theorem tellings_kind (h : isAtomic (mk given (.kind k) reason children) = false) :
    tellings path (mk given (.kind k) reason children)
      = children.flatMap (toldBelow path (k.finish? given path)) := by
  rw [tellings, h]
  cases k.finish? given path with
  | some finish => exact tellingsKeyed_eq_flatMap path finish children
  | none => exact tellingsAll_eq_flatMap path children

theorem tellings_reason {text : String}
    (h : isAtomic (mk given (.reason text) reason children) = false) :
    tellings path (mk given (.reason text) reason children)
      = ⟨mk given (.reason text) reason children, ""⟩
        :: children.flatMap (toldBelow path none) := by
  rw [tellings, h, tellingsAll_eq_flatMap]
  rfl

theorem toldBelow_of_isAtomic {p : Value × Failure} (h : p.2.isAtomic = true) :
    toldBelow path (some finish) p = [⟨p.2, finish p.1 ""⟩] := by
  rw [toldBelow, if_pos h]

theorem toldBelow_kind {p : Value × Failure} (h : p.2.isAtomic = false ∨ k.namesKeys = false) :
    toldBelow path (k.finish? given path) p = p.2.tellings (childPath (.kind k) path p.1) := by
  have hpath : childPath (.kind k) path p.1 = if k.namesKeys then joinPath path p.1 else path := rfl
  cases hk : k.finish? given path with
  | none =>
    rw [hpath, FailureKind.namesKeys_of_not_finish hk]
    rfl
  | some finish =>
    have hnames : k.namesKeys = true := FailureKind.namesKeys_of_finish hk
    have hp : p.2.isAtomic = false := h.resolve_right (by simp [hnames])
    rw [hpath, hnames, toldBelow, hp]
    rfl

/-! ### Placed messages -/

theorem allPlaced_eq : allPlaced k path children = children.all fun p =>
    p.2.isAtomic && k.givesPath path || p.2.isPlaced (childPath (.kind k) path p.1) := by
  induction children with
  | nil => rfl
  | cons p rest ih => rw [allPlaced, ih, List.all_cons]

theorem isAtomic_eq_false_of_isPlaced (h : f.isPlaced path = true) : f.isAtomic = false := by
  cases f
  simp only [isPlaced, Bool.and_eq_true, Bool.not_eq_true'] at h
  exact h.1

theorem isPlaced_kind (h : isAtomic (mk given (.kind k) reason children) = false) :
    isPlaced path (mk given (.kind k) reason children) = allPlaced k path children := by
  rw [isPlaced, h]
  rfl

/-- The messages of a placed failure name its path or one that extends it. -/
theorem namesPath_of_isPlaced (h : f.isPlaced path = true) {t : Telling}
    (ht : t ∈ f.tellings path) : NamesPath path t.place := by
  induction f using induction_children generalizing path with
  | h f ih =>
    have ha : f.isAtomic = false := isAtomic_eq_false_of_isPlaced h
    obtain ⟨given, unexpected, reason, children⟩ := f
    cases unexpected with
    | reason text => simp [isPlaced] at h
    | kind k =>
      rw [isPlaced_kind ha, allPlaced_eq, List.all_eq_true] at h
      rw [tellings_kind ha, List.mem_flatMap] at ht
      obtain ⟨p, hp, ht⟩ := ht
      obtain ⟨hatom, hpath⟩ | hplaced := by simpa using h p hp
      · obtain ⟨finish, hk⟩ :=
          FailureKind.exists_finish (FailureKind.namesKeys_of_givesPath hpath) given path
        rw [hk, toldBelow_of_isAtomic hatom, List.mem_singleton] at ht
        subst ht
        exact namesPath_finish hk hpath p.1
      · rw [toldBelow_kind (.inl (isAtomic_eq_false_of_isPlaced hplaced))] at ht
        exact (ih p hp hplaced ht).of_childPath

/-- A failure that is not placed has a message without a path. -/
theorem exists_isPathless (h : f.isPlaced path = false) :
    ∃ t ∈ f.tellings path, IsPathless t.place := by
  induction f using induction_children generalizing path with
  | h f ih =>
    cases ha : f.isAtomic with
    | true => exact ⟨⟨f, ""⟩, by simp [tellings_of_isAtomic ha], .inl rfl⟩
    | false =>
      obtain ⟨given, unexpected, reason, children⟩ := f
      cases unexpected with
      | reason text =>
        rw [tellings_reason ha]
        exact ⟨_, List.mem_cons_self, .inl rfl⟩
      | kind k =>
        rw [isPlaced_kind ha, allPlaced_eq, List.all_eq_false] at h
        obtain ⟨p, hp, h⟩ := h
        simp only [Bool.or_eq_true, Bool.and_eq_true, not_or, not_and, Bool.not_eq_true] at h
        rw [tellings_kind ha]
        suffices hbelow : ∃ t ∈ toldBelow path (k.finish? given path) p, IsPathless t.place by
          obtain ⟨t, ht, hplace⟩ := hbelow
          exact ⟨t, List.mem_flatMap.2 ⟨p, hp, ht⟩, hplace⟩
        by_cases hsingle : p.2.isAtomic = true ∧ k.namesKeys = true
        · obtain ⟨finish, hk⟩ := FailureKind.exists_finish hsingle.2 given path
          rw [hk, toldBelow_of_isAtomic hsingle.1]
          exact ⟨_, List.mem_singleton_self _, isPathless_finish hk (h.1 hsingle.1) p.1⟩
        · rw [toldBelow_kind (by simpa [or_iff_not_imp_left] using hsingle)]
          exact ih p hp h.2

/-! ### Parts below -/

theorem hasCrowdedLeaf_of_mem (hf : f.hasCrowdedLeaf = false)
    (whole : f.kind?.any FailureKind.isWhole = false) {p : Value × Failure} (hp : p ∈ f.children) :
    p.2.hasCrowdedLeaf = false := by
  obtain ⟨given, unexpected, reason, children⟩ := f
  refine anyCrowded_eq_false_iff.1 (show anyCrowded children = false from ?_) p hp
  cases unexpected with
  | reason text => exact (Bool.or_eq_false_iff.1 hf).2
  | kind k => simpa [hasCrowdedLeaf, show k.isWhole = false from whole] using hf

theorem LeadsTo.hasCrowdedLeaf_eq_false (h : f.LeadsTo path g place)
    (hf : f.hasCrowdedLeaf = false) : g.hasCrowdedLeaf = false := by
  induction h with
  | here => exact hf
  | part whole mem _ ih => exact ih (hasCrowdedLeaf_of_mem hf whole mem)

theorem allAtomic_eq_all : allAtomic children = children.all fun p => p.2.isAtomic := by
  induction children with
  | nil => rfl
  | cons p rest ih => rw [allAtomic, ih, List.all_cons]

theorem isAtomic_eq_false_of_mem (whole : unexpected.kind?.any FailureKind.isWhole = false)
    (mem : (key, c) ∈ children) (hc : c.isAtomic = false) :
    isAtomic (mk given unexpected reason children) = false := by
  cases unexpected with
  | reason text => exact List.isEmpty_eq_false_iff.2 (List.ne_nil_of_mem mem)
  | kind k =>
    by_cases hk : k = .withUnion
    · subst hk
      rw [isAtomic, allAtomic_eq_all, List.all_eq_false]
      exact ⟨(key, c), mem, by simp [hc]⟩
    · cases k <;> first | exact whole | exact absurd rfl hk

/-- A child with several messages tells what it tells at its own path. -/
theorem toldBelow_of_not_isAtomic {p : Value × Failure} (hp : p.2.isAtomic = false)
    (g : Failure) (path : String) : toldBelow path (g.finish? path) p
      = p.2.tellings (childPath g.unexpected path p.1) := by
  obtain ⟨given, unexpected, reason, children⟩ := g
  cases unexpected with
  | reason text => rfl
  | kind k => exact toldBelow_kind (.inl hp)

/-- What a child tells stands in one piece in what its failure tells. -/
theorem toldBelow_inOnePiece (hg : g.isAtomic = false) {p : Value × Failure} (hp : p ∈ g.children)
    (path : String) : toldBelow path (g.finish? path) p <:+: g.tellings path := by
  obtain ⟨given, unexpected, reason, children⟩ := g
  have hpiece (finish : Option (Value → String → String)) :
      toldBelow path finish p <:+: children.flatMap (toldBelow path finish) :=
    List.infix_of_mem_flatten (List.mem_map_of_mem hp)
  cases unexpected with
  | reason text =>
    rw [tellings_reason hg]
    exact List.infix_cons (hpiece none)
  | kind k =>
    rw [tellings_kind hg]
    exact hpiece _

/-- What a failure below tells, if it has several messages, stands in one piece in what the whole
tells. -/
theorem LeadsTo.inOnePiece (h : f.LeadsTo path g place) (hg : g.isAtomic = false) :
    f.isAtomic = false ∧ g.tellings place <:+: f.tellings path := by
  induction h with
  | here => exact ⟨hg, List.infix_rfl⟩
  | @part given reason path _ unexpected key child _ children whole mem _ ih =>
    obtain ⟨hchild, hinfix⟩ := ih hg
    have hf : isAtomic (mk given unexpected reason children) = false :=
      isAtomic_eq_false_of_mem whole mem hchild
    have hbelow := toldBelow_inOnePiece hf mem path
    rw [toldBelow_of_not_isAtomic hchild] at hbelow
    exact ⟨hf, hinfix.trans hbelow⟩

/-! ### Contributions -/

theorem contribution_eq (hc : c.hasCrowdedLeaf = false) (g : Failure) (path : String)
    (key : Value) : g.contribution path key c
      = .ok ((toldBelow path (g.finish? path) (key, c)).map Telling.text) := by
  rw [contribution]
  cases hk : g.finish? path with
  | none =>
    exact (bind_of_ok (flatten_eq_told hc path) _).trans (congrArg _ (toList_told c path))
  | some finish =>
    obtain ⟨k, -, hfinish⟩ := Option.bind_eq_some_iff.1 hk
    refine (bind_of_ok (flatten_eq_told hc _) _).trans (congrArg _ ?_)
    exact complete_told (FailureKind.finish_eq_append hfinish key) c _

theorem WellFormed.hasCrowdedLeaf_eq_false (h : f.WellFormed) : f.hasCrowdedLeaf = false := by
  induction f using induction_children with
  | h f ih =>
    obtain ⟨hfits, hchildren⟩ := wellFormed_iff.1 h
    obtain ⟨given, unexpected, reason, children⟩ := f
    have hall : anyCrowded children = false :=
      anyCrowded_eq_false_iff.2 fun p hp => ih p hp (hchildren p hp)
    cases unexpected with
    | reason text =>
      obtain rfl := List.isEmpty_iff.1 hfits
      rfl
    | kind k => simp [hasCrowdedLeaf, hall]

/-- The message of a part with a single one names its position. -/
theorem namesPosition_of_isAtomic (hfinish : k.finish? given path = some finish)
    (hc : c.isAtomic = true) {text : String}
    (ht : text ∈ (toldBelow path (some finish) (key, c)).map Telling.text) :
    NamesPosition k path key text := by
  rw [toldBelow_of_isAtomic hc, List.map_singleton, List.mem_singleton] at ht
  subst ht
  exact (namesPosition_finish hfinish key).append_left _

/-- The messages of a placed part name its position. -/
theorem namesPosition_of_isPlaced (hplaced : c.isPlaced (joinPath path key) = true) {text : String}
    (ht : text ∈ (toldBelow path (some finish) (key, c)).map Telling.text) :
    NamesPosition k path key text := by
  rw [toldBelow, isAtomic_eq_false_of_isPlaced hplaced, List.mem_map] at ht
  obtain ⟨t, ht, rfl⟩ := ht
  exact .inr ((namesPath_of_isPlaced hplaced ht).append_left _)

/-- A part with several messages that is not placed has one without a path. -/
theorem exists_isPathless_text (hc : c.isAtomic = false)
    (hplaced : c.isPlaced (joinPath path key) = false) :
    ∃ t ∈ c.tellers, ∃ place, IsPathless place
      ∧ t.ownText ++ place ∈ (toldBelow path (some finish) (key, c)).map Telling.text := by
  obtain ⟨t, ht, hplace⟩ := exists_isPathless hplaced
  refine ⟨t.teller, ?_, t.place, hplace, List.mem_map.2 ⟨t, ?_, rfl⟩⟩
  · rw [← teller_tellings c (joinPath path key)]
    exact List.mem_map_of_mem ht
  · rw [toldBelow, hc]
    exact ht

end Failure

namespace Node

open Validator

/-- The failure that a type of keywords and literals gives is well formed. -/
theorem wellFormed_of_guarded {n : Node} {w : Validator} {v : Value} {f : Failure}
    (hn : plainValidator n = .ok w) (hv : w.guarded.evaluate v = .ok (.failed f)) :
    f.WellFormed :=
  (failure_of_guarded passing_fits hn hv).1

theorem wellFormed_of_written {n : Node} {w : Validator} {v : Value} {f : Failure}
    (hn : plainValidator n = .ok w) (hv : w.written v = .ok (.failed f)) : f.WellFormed := by
  obtain ⟨verdict, hguarded, hverdict⟩ := ok_of_bind hv
  split at hverdict
  · cases hverdict
  · cases hverdict
    exact wellFormed_of_guarded hn hguarded

/-- Every part of a refused value whose kind names it contributes one piece of the messages. If
the part has a single message, or is placed, each message of the piece names its position;
otherwise one of them says what a failure says of itself, with an index at most. -/
theorem parts_located {n : Node} {w : Validator} {v : Value} {f g c : Failure} {path : String}
    {k : FailureKind} {key : Value} (hn : plainValidator n = .ok w)
    (hv : w.written v = .ok (.failed f)) (hg : f.LeadsTo "" g path) (hkind : g.kind? = some k)
    (hnames : k.namesKeys = true) (hc : (key, c) ∈ g.children) :
    ∃ all part, f.messageList = .ok all ∧ g.contribution path key c = .ok part ∧ part <:+: all
      ∧ (c.isAtomic = true ∨ c.isPlaced (Failure.joinPath path key) = true →
          ∀ text ∈ part, Failure.NamesPosition k path key text)
      ∧ (c.isAtomic = false → c.isPlaced (Failure.joinPath path key) = false →
          ∃ t ∈ c.tellers, ∃ place, Failure.IsPathless place ∧ t.ownText ++ place ∈ part) := by
  obtain ⟨given, unexpected, reason, children⟩ := g
  cases unexpected with
  | reason text => cases hkind
  | kind k' =>
    cases hkind
    obtain ⟨finish, hfinish⟩ := FailureKind.exists_finish hnames given path
    have hatom : (Failure.mk given (.kind k) reason children).isAtomic = false :=
      Failure.isAtomic_of_finish hfinish
    have hf : f.hasCrowdedLeaf = false := (wellFormed_of_written hn hv).hasCrowdedLeaf_eq_false
    have hpart : c.hasCrowdedLeaf = false :=
      Failure.hasCrowdedLeaf_of_mem (hg.hasCrowdedLeaf_eq_false hf)
        (FailureKind.isWhole_of_finish hfinish) hc
    have hall : f.messageList = .ok ((f.tellings "").map Failure.Telling.text) :=
      (bind_of_ok (Failure.flatten_eq_told hf "") _).trans (congrArg _ (Failure.toList_told f ""))
    have hcontribution := Failure.contribution_eq hpart
      (.mk given (.kind k) reason children) path key
    have hpiece := (Failure.toldBelow_inOnePiece hatom hc path).trans (hg.inOnePiece hatom).2
    have hname : (Failure.mk given (.kind k) reason children).finish? path = some finish := hfinish
    rw [hname] at hcontribution hpiece
    refine ⟨_, _, hall, hcontribution, hpiece.map _, ?_, Failure.exists_isPathless_text⟩
    rintro (hsingle | hplaced) text ht
    · exact Failure.namesPosition_of_isAtomic hfinish hsingle ht
    · exact Failure.namesPosition_of_isPlaced hplaced ht

/-- A verdict is written out when no key with too many digits is to be named. -/
theorem written_of_guarded {w : Validator} {v : Value} {verdict : Verdict}
    (h : w.guarded.evaluate v = .ok verdict)
    (hkeys : verdict.failure.any Failure.hasOverlongKey = false) : w.written v = .ok verdict := by
  rw [written, bind_of_ok h, hkeys]
  rfl

/-- The type `{ rows: (int | null)[] }`. -/
def rowsType : Node :=
  .shape false [.mk "rows" (.array (.union [.leaf "int", .leaf "null"])) false] none

/-- A value with a wrong item, and what is wrong with its parts. -/
def oddRows : Value :=
  .mapping [(.text "rows", .list [.bool true])]

def oddItem : Failure :=
  .composite (.bool true) .withUnion
    [(.int 0, .leaf (.bool true) "incompatible with int"),
     (.int 1, .leaf (.bool true) "incompatible with null")]

def oddRow : Failure :=
  .composite (.list [.bool true]) .inArrayMembers [(.int 0, oddItem)]

theorem oddRows_located : ∃ w f,
    plainValidator rowsType = .ok w ∧ w.written oddRows = .ok (.failed f)
    ∧ f.LeadsTo "" oddRow "rows" ∧ (.int 0, oddItem) ∈ oddRow.children ∧ oddItem.isAtomic = true
    ∧ ∃ all part, f.messageList = .ok all ∧ oddRow.contribution "rows" (.int 0) oddItem = .ok part
      ∧ part <:+: all
      ∧ ∀ text ∈ part, Failure.NamesPosition .inArrayMembers "rows" (.int 0) text := by
  have hwritten : ∀ w, plainValidator rowsType = .ok w → w.written oddRows
      = .ok (.failed (.composite oddRows .inShapeProperties [(.text "rows", oddRow)])) := by
    rintro _ ⟨⟩
    exact written_of_guarded rfl (by decide +kernel)
  have hleads : (Failure.composite oddRows .inShapeProperties [(.text "rows", oddRow)]).LeadsTo ""
      oddRow "rows" := .part rfl List.mem_cons_self (.here _ _)
  obtain ⟨all, part, hall, hpart, hpiece, hatomic, -⟩ := parts_located (n := rowsType) rfl
    (hwritten _ rfl) hleads rfl rfl List.mem_cons_self
  exact ⟨_, _, rfl, hwritten _ rfl, hleads, List.mem_cons_self, rfl, all, part, hall, hpart, hpiece,
    hatomic (.inl rfl)⟩

/-- The type `(int & string)[]`. -/
def bothItems : Node :=
  .array (.intersection [.leaf "int", .leaf "string"])

/-- The failure of an item under both types. -/
def neitherItem : Failure :=
  .composite (.bool true) .withIntersection
    [(.int 0, .leaf (.bool true) "incompatible with int"),
     (.int 1, .leaf (.bool true) "incompatible with string")]

theorem neitherItem_not_located : ∃ w f part text,
    plainValidator bothItems = .ok w ∧ w.written (.list [.bool true]) = .ok (.failed f)
    ∧ f.LeadsTo "" f "" ∧ f.kind? = some .inArrayMembers ∧ (.int 0, neitherItem) ∈ f.children
    ∧ f.contribution "" (.int 0) neitherItem = .ok part ∧ text ∈ part
    ∧ ¬Failure.NamesPosition .inArrayMembers "" (.int 0) text := by
  refine ⟨_, .composite (.list [.bool true]) .inArrayMembers [(.int 0, neitherItem)], _,
    "bool literal true is incompatible with int", rfl,
    written_of_guarded rfl (by decide +kernel), .here _ _, rfl, List.mem_cons_self, rfl,
    List.mem_cons_self, ?_⟩
  rintro (⟨-, h⟩ | ⟨keys, h⟩)
  · exact absurd h.isInfix (by decide +kernel)
  · exact absurd h.of_append.of_append.isInfix (by decide +kernel)

end Node

end StructuralTypes

import StructuralTypes.Proofs.Composition
import StructuralTypes.Proofs.Telling

/-! Compiled types answer. A validator made of tests gives every value a verdict, with a
well-formed failure if it refuses, unless a number with too many digits is to be written.
Every step of a judgement ends like that when the judgements of the parts do, and where no
such number is in the value there is nothing that could keep the verdict from being told. -/

namespace StructuralTypes

open Outcome

/-! ### Values without overlong numbers -/

namespace Value.Writable

variable {v : Value}

theorem isOverlong_eq_false (h : v.Writable) : v.isOverlong = false := by
  obtain ⟨whole, -, -⟩ := h
  exact whole

theorem key (h : v.Writable) {p : Value × Value} (hp : p ∈ v.observed) :
    p.1.showsOverlong = false ∧ p.1.labelsOverlong = false := by
  obtain ⟨-, keys, -⟩ := h
  exact keys p hp

theorem item (h : v.Writable) {p : Value × Value} (hp : p ∈ v.observed) : p.2.Writable := by
  obtain ⟨-, -, items⟩ := h
  exact items p hp

theorem hasOverlongKey_eq_false (h : v.Writable) : v.hasOverlongKey = false := by
  rw [hasOverlongKey]
  cases hp : v.observed.find? fun p => !p.1.isText with
  | none => rfl
  | some p => exact (h.key (List.mem_of_find?_eq_some hp)).1

theorem text (s : String) : (Value.text s).Writable :=
  .of rfl (fun _ hp => absurd hp List.not_mem_nil) fun _ hp => absurd hp List.not_mem_nil

end Value.Writable

/-! ### What a judgement ends in -/

section Fits

variable {short : Prop}

/-- The fault of writing a number with too many digits, where there may be one. -/
def Fault.Halts (short : Prop) (e : Fault) : Prop :=
  e = .overlong .written ∧ ¬short

/-- A well-formed failure that names no overlong key where there is none. -/
def Failure.Fits (short : Prop) (f : Failure) : Prop :=
  f.WellFormed ∧ (short → f.hasOverlongKey = false)

/-- A verdict that has a failure just when it refuses, one that fits. -/
def Verdict.Fits (short : Prop) (verdict : Verdict) : Prop :=
  ∃ r, verdict = .of r ∧ ∀ f ∈ r, f.Fits short

theorem Failure.fits_of {f : Failure} (hf : f.hasFittingChildren = true)
    (hchildren : ∀ p ∈ f.children, p.2.Fits short
      ∧ (f.kind?.any FailureKind.namesKeys = true → short → p.1.labelsOverlong = false)) :
    f.Fits short := by
  refine ⟨wellFormed_iff.2 ⟨hf, fun p hp => (hchildren p hp).1.1⟩, fun hs => ?_⟩
  obtain ⟨given, unexpected, reason, children⟩ := f
  exact anyOverlongKey_eq_false_iff.2 fun p hp =>
    ⟨fun hnamed => (hchildren p hp).2 hnamed hs, (hchildren p hp).1.2 hs⟩

/-- A composite failure under a kind that speaks of parts fits when its children do. -/
theorem Failure.fits_composite {v : Value} {k : FailureKind} {children : List (Value × Failure)}
    (hunion : k ≠ .withUnion) (hwhole : k.isWhole = false) (hne : children ≠ [])
    (h : ∀ p ∈ children, p.2.Fits short
      ∧ (k.namesKeys = true → short → p.1.labelsOverlong = false)) :
    (composite v k children).Fits short := by
  refine fits_of ?_ h
  rw [composite, described, hasFittingChildren_kind hunion, hwhole, beq_iff_eq,
    List.isEmpty_eq_false_iff]
  exact hne

theorem Failure.fits_numbered {failures : List Failure} (h : ∀ f ∈ failures, f.Fits short)
    {named : Bool} (hnamed : named = false) : ∀ p ∈ numbered failures, p.2.Fits short
      ∧ (named = true → short → p.1.labelsOverlong = false) := by
  intro p hp
  obtain ⟨q, hq, rfl⟩ := List.mem_map.1 hp
  refine ⟨h _ (List.fst_mem_of_mem_zipIdx hq), fun ht => ?_⟩
  rw [hnamed] at ht
  cases ht

/-- The failure of an item fits the whole. -/
theorem Failure.Fits.of_item {f : Failure} {v : Value} {p : Value × Value}
    (h : f.Fits p.2.Writable) (hp : p ∈ v.observed) : f.Fits v.Writable :=
  ⟨h.1, fun hs => h.2 (hs.item hp)⟩

theorem Failure.fits_items {v : Value} {entries : List (Value × Value)}
    {failures : List (Value × Failure)} (hv : v.observed = entries)
    (h : List.SublistForall₂ (IsOfItem fun v => Fits v.Writable) failures entries) :
    ∀ p ∈ failures, p.2.Fits v.Writable ∧ (v.Writable → p.1.labelsOverlong = false) := by
  intro p hp
  obtain ⟨q, hq, hkey, hfits⟩ := exists_mem_of_sublistForall₂ h hp
  have hm : q ∈ v.observed := hv ▸ hq
  exact ⟨hfits.of_item hm, fun hs => hkey ▸ (hs.key hm).2⟩

end Fits

/-- Failures fit when those in them do, and only overlong numbers end a judgement. -/
theorem Validator.passing_fits :
    Passing (fun v => Fault.Halts v.Writable) (fun v => Failure.Fits v.Writable) where
  item hp he := ⟨he.1, fun hs => he.2 (hs.item hp)⟩
  key he := absurd (.text _) he.2
  overlong {v} h := ⟨rfl, fun hs => by
    rw [hs.isOverlong_eq_false, hs.hasOverlongKey_eq_false] at h
    cases h⟩
  composed {v f} h := by
    cases h with
    | childless hf h => exact Failure.fits_of hf fun _ hp => absurd (h ▸ hp) List.not_mem_nil
    | alternatives hlen h =>
      refine Failure.fits_of ?_ (Failure.fits_numbered h rfl)
      simpa [Failure.hasFittingChildren, Failure.composite, Failure.described, Failure.unexpected,
        Failure.children, Failure.numbered] using hlen
    | requirements hne h =>
      refine Failure.fits_composite (by decide) rfl ?_ (Failure.fits_numbered h rfl)
      simpa [Failure.numbered] using hne
    | members he hne h =>
      have hitems := Failure.fits_items (Node.observed_of_entries? he) h
      exact Failure.fits_composite (by decide) rfl hne fun p hp =>
        ⟨(hitems p hp).1, fun _ => (hitems p hp).2⟩
    | positions he hne h =>
      have hitems := Failure.fits_items (Node.observed_of_elements? he) h
      exact Failure.fits_composite (by decide) rfl hne fun p hp =>
        ⟨(hitems p hp).1, fun _ => (hitems p hp).2⟩
    | @properties exact failures hne _ h =>
      refine Failure.fits_composite ?_ ?_ (by simpa [Value.named] using hne) fun p hp => ?_
      · cases exact <;> decide
      · cases exact <;> rfl
      · obtain ⟨q, hq, rfl⟩ := List.mem_map.1 hp
        obtain hfits | ⟨item, hitem, hfits⟩ := h q hq
        · exact ⟨hfits, fun _ _ => rfl⟩
        · exact ⟨hfits.of_item hitem, fun _ _ => rfl⟩

namespace Validator

variable {w : Validator}

/-- A validator whose verdicts fit the values that they are on. -/
def Renders (w : Validator) : Prop :=
  ∀ v, Ends (Fault.Halts v.Writable) (Verdict.Fits v.Writable) (w.evaluate v)

theorem renders_predicate (p : Predicate) : (predicate p).guarded.Renders :=
  Node.judges_predicate passing_fits p

/-- A test that refuses a number with too many digits ends the judgement of a union, whatever
alternatives come after it. -/
theorem evaluate_union_of_refused {v : Value} {p : Predicate} (hv : v.isOverlong = true)
    (hp : p.accepts v = false) (ws : List Validator) :
    (Validator.union (predicate p :: ws)).guarded.evaluate v = .error (.overlong .written) := by
  have hfirst : (predicate p).guarded.evaluate v = .error (.overlong .written) := by
    rw [guarded, guard, evaluate, evaluate, hp, hv]
    rfl
  have hall : refusedByAll (guardedAll (predicate p :: ws)) v = .error (.overlong .written) := by
    rw [guardedAll, refusedByAll]
    exact bind_of_error hfirst _
  rw [guarded, guard, evaluate, evaluate, bind_of_error hall]
  rfl

/-- What is written of a verdict that fits ends as the verdict does. -/
theorem Renders.written (h : w.guarded.Renders) (v : Value) :
    Ends (Fault.Halts v.Writable) (Verdict.Fits v.Writable) (w.written v) := by
  rw [Validator.written]
  refine (h v).bind fun verdict hv => ?_
  split
  case isTrue hkey =>
    obtain ⟨r, rfl, hr⟩ := hv
    refine ⟨rfl, fun hs => ?_⟩
    cases r with
    | none => cases hkey
    | some f => exact Bool.false_ne_true (((hr f rfl).2 hs).symm.trans hkey)
  case isFalse => exact hv

end Validator

theorem Verdict.Fits.answers {short : Prop} {verdict : Verdict} (h : verdict.Fits short)
    {w : Validator} {v : Value} (hw : w.written v = .ok verdict) : w.Answers v := by
  obtain ⟨r, rfl, hr⟩ := h
  refine ⟨.of r, hw, ?_, ?_⟩ <;> cases r
  · simp [Verdict.of, Verdict.passed]
  · simp [Verdict.of, Verdict.failed]
  · rintro _ ⟨⟩
  · rintro _ ⟨⟩
    exact (hr _ rfl).1.isTold

namespace Node

open Validator

/-! ### Compiled types -/

/-- A type and a validator whose refusals are told. -/
abbrev GuardedRenders (w : Validator) (_ : Node) : Prop :=
  w.guarded.Renders

/-- The refusals of what is assembled are told, when those of its parts are. -/
theorem Assembled.renders {w : Validator} {n : Node} (h : Assembled GuardedRenders w n) :
    w.guarded.Renders :=
  Assembled.judges passing_fits h

theorem renders_builtin {name : String} {w : Validator} (h : builtinValidator name = .ok w) :
    w.guarded.Renders :=
  judges_builtin passing_fits h

/-- A type of keywords and literals answers on a value unless a number of too many digits
would have to be written, so on every value without such numbers. -/
theorem answers_iff {n : Node} {w : Validator} (h : plainValidator n = .ok w) (v : Value) :
    (w.Answers v ↔ w.written v ≠ .error (.overlong .written)) ∧ (v.Writable → w.Answers v) := by
  have hrenders : GuardedRenders w n :=
    resulting_except.induction renders_builtin Assembled.renders h
  have hends := hrenders.written v
  cases hw : w.written v with
  | error e =>
    rw [hw] at hends
    obtain ⟨rfl, hv⟩ := hends
    refine ⟨⟨?_, fun hne => absurd rfl hne⟩, fun hs => absurd hs hv⟩
    rintro ⟨verdict, hok, -⟩
    rw [hw] at hok
    cases hok
  | ok verdict =>
    rw [hw] at hends
    have hanswers : w.Answers v := hends.answers hw
    exact ⟨⟨fun _ => nofun, fun _ => hanswers⟩, fun _ => hanswers⟩

/-- The type `string | int`. -/
def stringOrInt : Node :=
  .union [.leaf "string", .leaf "int"]

/-- A whole number of 4335 digits. -/
def overlongValue : Value :=
  .int (16 ^ 3600)

theorem isOverlong_overlongValue : overlongValue.isOverlong = true := by
  decide +kernel

/-- The test on texts has to describe a number before the test on numbers is asked. -/
theorem stringOrInt_not_answers : ∃ w, plainValidator stringOrInt = .ok w
    ∧ w.written overlongValue = .error (.overlong .written) ∧ ¬w.Answers overlongValue := by
  have hwritten : (Validator.union [predicate Keyword.string.predicate,
      predicate Keyword.int.predicate]).written overlongValue = .error (.overlong .written) :=
    bind_of_error (evaluate_union_of_refused isOverlong_overlongValue rfl _) _
  refine ⟨_, rfl, hwritten, ?_⟩
  rintro ⟨verdict, hok, -⟩
  cases hwritten.symm.trans hok

/-- The type of mappings of texts to arrays. -/
def listsByName : Node :=
  .shape false [] (some (.mk (.leaf "string") (.array stringOrInt)))

def oddLists : Value :=
  .mapping [(.text "ids", .list [.int 1, .null]), (.text "name", .text "x")]

theorem writable_oddLists : oddLists.Writable := by
  have hscalar : ∀ v : Value, v.isOverlong = false → v.observed = [] → v.Writable :=
    fun v hv ho => .of hv (by simp [ho]) (by simp [ho])
  have hids : (Value.list [.int 1, .null]).Writable :=
    .of rfl (by decide +kernel) (by
      simp only [Value.observed, Value.positions, List.zipIdx_cons, List.zipIdx_nil, List.map_cons,
        List.map_nil, List.forall_mem_cons]
      exact ⟨hscalar _ (by decide +kernel) rfl, hscalar _ rfl rfl, by simp⟩)
  refine .of rfl (by decide +kernel) ?_
  simp only [oddLists, Value.observed, List.map_cons, List.map_nil, List.forall_mem_cons]
  exact ⟨hids, .text "x", by simp⟩

theorem oddLists_answers : ∃ w, plainValidator listsByName = .ok w ∧ oddLists.Writable
    ∧ (w.Answers oddLists ↔ w.written oddLists ≠ .error (.overlong .written))
    ∧ w.Answers oddLists := by
  refine ⟨_, rfl, writable_oddLists, ?_⟩
  have h := answers_iff (n := listsByName) rfl oddLists
  exact ⟨h.1, h.2 writable_oddLists⟩

end Node

end StructuralTypes

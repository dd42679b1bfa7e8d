import StructuralTypes.Proofs.RoundTrip

/-! Annotations read, printed and read again. Reading makes canonical types, so a type comes
back from its printed annotation when its texts do: names that are legible, and keys that are
literals between double quotes. A key with a double quote in it need not come back, since the
quote is printed as it is and read as an end of the key, or an escaped one without its
backslash. -/

namespace StructuralTypes.Node

variable {n : Node} {text : String}

/-- A canonical type is legible if its names and keys are. -/
theorem Canonical.legible (h : n.Canonical)
    (hnames : ∀ name ∈ n.leafNames, isLegibleName name = true)
    (hkeys : ∀ key ∈ n.allKeys, isQuotableKey key = true) : n.Legible := by
  refine ⟨h.1, fun k hk => ?_⟩
  have hplain := h.2 k hk
  have hquotable : k.keys.all isQuotableKey = true :=
    List.all_eq_true.2 fun key hkey => hkeys key (List.mem_flatMap.2 ⟨k, hk, hkey⟩)
  cases k with
  | leaf name => exact hnames name (List.mem_filterMap.2 ⟨_, hk, rfl⟩)
  | _ =>
    rw [hasLegibleTexts, hquotable, hplain, Bool.and_true]
    exact fun _ he => by cases he

/-- The type that an annotation stands for is read again from its printed annotation, with all
properties in their places, unless a text in it is not read as it is printed. -/
theorem reparse_format (h : parse? text = .ok n)
    (hnames : ∀ name ∈ n.leafNames, isLegibleName name = true)
    (hkeys : ∀ key ∈ n.allKeys, isQuotableKey key = true) (hmarks : n.Unmarked) :
    ∃ printed, n.format = .ok printed ∧ parse? printed = .ok n := by
  obtain ⟨m, hm, hcanonical⟩ | ⟨cause, -, hf⟩ := canonical_or_written text
  · obtain rfl : m = n := Except.ok.inj (hm.symm.trans h)
    exact parse_format_of_legible (hcanonical.legible hnames hkeys) hmarks
  · rw [h] at hf
    cases hf

/-- A shape with keys in either kind of quotes, one with an escaped quote of its own kind and
one that ends in backslashes. -/
theorem reparse_format_escapedKeys :
    let text := "\x7b 'it\\'s a': x.y, \"b\\\\\"?: 'z' \x7d"
    let n := shape false [.mk "it's a" (.leaf "x.y") false, .mk "b\\\\" (.leaf "'z'") true] none
    parse? text = .ok n ∧ (∀ name ∈ n.leafNames, isLegibleName name = true)
      ∧ (∀ key ∈ n.allKeys, isQuotableKey key = true) ∧ n.Unmarked
      ∧ ∃ printed, n.format = .ok printed ∧ parse? printed = .ok n := by
  intro text n
  have hscan : (Token.scan text).toOption = some [⟨.shape, "@"⟩, Grammar.openGroup,
      Grammar.keyWord "it's a" false, ⟨.colon, ":"⟩, Grammar.word "x.y", ⟨.comma, ","⟩,
      Grammar.keyWord "b\\\\" true, ⟨.colon, ":"⟩, Grammar.word "'z'", Grammar.closeGroup] := by
    decide +kernel
  have hparse : parse? text = .ok n := parse?_of_scan (Outcome.ok_of_toOption hscan) rfl rfl
  have hnames : ∀ name ∈ n.leafNames, isLegibleName name = true := by decide +kernel
  have hkeys : ∀ key ∈ n.allKeys, isQuotableKey key = true := by decide +kernel
  have hmarks : n.Unmarked := by
    show ∀ k ∈ n.walk, k.hasUnmarkedKeys = true
    decide +kernel
  exact ⟨hparse, hnames, hkeys, hmarks, reparse_format hparse hnames hkeys hmarks⟩

/-- A double quote that is escaped in a key between single quotes loses its backslash. -/
theorem escapedDoubleQuote_not_reparsed :
    ∃ text printed n m, parse? text = .ok n ∧ n.format = .ok printed ∧ parse? printed = .ok m
      ∧ n.allKeys = ["a\\\"b"] ∧ m.allKeys = ["a\"b"] := by
  have hscan : (Token.scan "\x7b'a\\\"b': int\x7d").toOption = some [⟨.shape, "@"⟩,
      Grammar.openGroup, Grammar.keyWord "a\\\"b" false, ⟨.colon, ":"⟩, Grammar.word "int",
      Grammar.closeGroup] := by decide +kernel
  have hagain : (Token.scan "\x7b \"a\\\"b\": int \x7d").toOption = some [⟨.shape, "@"⟩,
      Grammar.openGroup, Grammar.keyWord "a\"b" false, ⟨.colon, ":"⟩, Grammar.word "int",
      Grammar.closeGroup] := by decide +kernel
  exact ⟨_, _, .shape false [.mk "a\\\"b" (.leaf "int") false] none,
    .shape false [.mk "a\"b" (.leaf "int") false] none,
    parse?_of_scan (Outcome.ok_of_toOption hscan) rfl rfl, rfl,
    parse?_of_scan (Outcome.ok_of_toOption hagain) rfl rfl, rfl, rfl⟩

end StructuralTypes.Node

/-! Escaped quotes: a quote with a backslash right before it. -/

namespace StructuralTypes.Escapes

/-- Replaces every escaped `quote`, from left to right. -/
def replaceQuotes (quote : Char) (replacement : List Char) : List Char → List Char
  | '\\' :: c :: rest =>
    if c = quote then replacement ++ replaceQuotes quote replacement rest
    else '\\' :: replaceQuotes quote replacement (c :: rest)
  | c :: rest => c :: replaceQuotes quote replacement rest
  | [] => []

/-- Reads escaped quotes as plain ones. -/
def unescape (quote : Char) (s : List Char) : List Char :=
  replaceQuotes quote [quote] s

/-- A text without quotes has none that is escaped. -/
theorem unescape_of_not_mem {quote : Char} {s : List Char} (h : quote ∉ s) :
    unescape quote s = s := by
  rw [unescape]
  fun_induction replaceQuotes quote [quote] s with
  | case1 rest ih => simp at h
  | case2 c rest hc ih => rw [ih fun hm => h (List.mem_cons_of_mem _ hm)]
  | case3 c rest _ ih => rw [ih fun hm => h (List.mem_cons_of_mem _ hm)]
  | case4 => rfl

/-- Whether an unescaped quote is left. -/
def hasBareQuote (quote : Char) (s : List Char) : Bool :=
  (replaceQuotes quote [] s).contains quote

/-- A quote of either style. -/
def isQuote (c : Char) : Bool :=
  c == '"' || c == '\''

/-- The quote and the content of a text between two equal quotes. -/
def quoted? : List Char → Option (Char × List Char)
  | [] => none
  | q :: rest =>
    if isQuote q && rest.getLast? == some q then some (q, rest.dropLast) else none

theorem quoted?_eq_some {s content : List Char} {q : Char} (h : quoted? s = some (q, content)) :
    s = q :: (content ++ [q]) ∧ isQuote q = true := by
  cases s with
  | nil => simp [quoted?] at h
  | cons c rest =>
    simp only [quoted?, Bool.and_eq_true, beq_iff_eq] at h
    split at h
    next hc =>
      obtain ⟨hq, hl⟩ := hc
      simp only [Option.some.injEq, Prod.mk.injEq] at h
      obtain ⟨rfl, rfl⟩ := h
      obtain ⟨content, rfl⟩ := List.getLast?_eq_some_iff.1 hl
      simpa using hq
    next => simp at h

end StructuralTypes.Escapes

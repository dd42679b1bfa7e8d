import StructuralTypes.Predicate
import StructuralTypes.Proofs.RoundTrip
import StructuralTypes.Proofs.Standing

/-! A text in quotes means one string. As a type it is the literal that accepts just this string,
and as a key it declares a property under it, whichever quotes it is in and whatever is escaped
in it. The lexer takes a backslash with the character behind it, and the escapes are read off by
the quotes behind backslashes: within one literal both find the same quotes. -/

namespace StructuralTypes

namespace Escapes

theorem replaceQuotes_cons {quote c : Char} {s : List Char}
    (h : c ≠ '\\' ∨ s.head? ≠ some quote) (replacement : List Char) :
    replaceQuotes quote replacement (c :: s) = c :: replaceQuotes quote replacement s := by
  by_cases hc : c = '\\'
  · cases s with
    | nil => rw [replaceQuotes]; simp
    | cons d rest =>
      have hd : d ≠ quote := by simpa using h.resolve_left (by simp [hc])
      rw [hc, replaceQuotes, if_neg hd]
  · rw [replaceQuotes]
    exact fun _ _ h => absurd h hc

variable {quote : Char} {s body after : List Char}

/-- The content of a literal does not begin with a bare quote. -/
theorem head?_literalBody (hq : quote ≠ '\\')
    (h : Glyph.literalBody? quote s = some (body, after)) : body.head? ≠ some quote := by
  fun_induction Glyph.literalBody? quote s with
  | case1 => cases h
  | case2 => cases h
  | case3 => cases h
  | case4 c rest hc ih =>
    obtain ⟨p, -, he⟩ := Option.map_eq_some_iff.1 h
    cases he
    simpa using hq.symm
  | case5 rest =>
    cases h
    simp
  | case6 => cases h
  | case7 c rest _ _ hc hn ih =>
    obtain ⟨p, -, he⟩ := Option.map_eq_some_iff.1 h
    cases he
    simpa using hc

/-- In the content of a literal no quote is bare. A backslash that takes a character with it is
found by the quote behind it, unless that character is a backslash, which no quote is behind. -/
theorem hasBareQuote_literalBody (hq : quote ≠ '\\')
    (h : Glyph.literalBody? quote s = some (body, after)) : hasBareQuote quote body = false := by
  suffices hnone : quote ∉ replaceQuotes quote [] body by simpa [hasBareQuote] using hnone
  fun_induction Glyph.literalBody? quote s generalizing body after with
  | case1 => cases h
  | case2 => cases h
  | case3 => cases h
  | case4 c rest hc ih =>
    obtain ⟨⟨b, r⟩, hb, he⟩ := Option.map_eq_some_iff.1 h
    cases he
    by_cases hcq : c = quote
    · rw [hcq, replaceQuotes, if_pos rfl, List.nil_append]
      exact ih hb
    · rw [replaceQuotes, if_neg hcq, replaceQuotes_cons (.inr (head?_literalBody hq hb)),
        List.mem_cons, List.mem_cons, not_or, not_or]
      exact ⟨hq, Ne.symm hcq, ih hb⟩
  | case5 rest =>
    cases h
    simp [replaceQuotes]
  | case6 => cases h
  | case7 c rest hne hns hc hn ih =>
    obtain ⟨⟨b, r⟩, hb, he⟩ := Option.map_eq_some_iff.1 h
    cases he
    rw [replaceQuotes_cons (.inr (head?_literalBody hq hb)), List.mem_cons, not_or]
    exact ⟨Ne.symm hc, ih hb⟩

end Escapes

namespace Literal

theorem accepts_text_iff (d : String) (v : Value) : (text d).accepts v = true ↔ v = .text d := by
  cases v <;> simp [accepts]

/-- A whole literal is a quote, a content without a bare one, and the quote again. -/
theorem exists_content {s : List Char} (h : Glyph.literal? s = some (s, [])) :
    ∃ quote content, s = quote :: (content ++ [quote]) ∧ Escapes.isQuote quote = true
      ∧ Escapes.hasBareQuote quote content = false := by
  cases s with
  | nil => cases h
  | cons quote rest =>
    rw [Glyph.literal?] at h
    split at h
    · rename_i hquote
      obtain ⟨⟨body, after⟩, hbody, he⟩ := Option.map_eq_some_iff.1 h
      have hne : quote ≠ '\\' := by
        rintro rfl
        exact absurd hquote (by decide)
      cases he
      exact ⟨quote, body, rfl, hquote, Escapes.hasBareQuote_literalBody hne hbody⟩
    · cases h

end Literal

namespace Node

open Glyph MarkerForm

/-- An annotation that is read has tokens. -/
theorem exists_scan {text : String} {n : Node} (h : parse? text = .ok n) :
    ∃ tokens, Token.scan text = .ok tokens := by
  cases hscan : Token.scan text with
  | ok tokens => exact ⟨tokens, rfl⟩
  | error f =>
    have htree : TokenTree.ofText text = .error f := by
      rw [TokenTree.ofText, hscan]
      rfl
    rw [parse?_eq, htree] at h
    cases h

/-- A text in quotes means the same string as a literal, where it stands alone as a key, and
where it stands alone as a type, the name of a leaf. -/
theorem quoted_as_key_and_type {q : String} (hq : literal? q.toList = some (q.toList, [])) :
    ∃ d : String, Literal.ofName q = .ok (some (.text d))
      ∧ (∀ v, (Literal.text d).accepts v = true ↔ v = .text d)
      ∧ ∀ {text : String} {n : Node} {front back : List Glyph}, parse? text = .ok n →
        squeeze (ofChars text.toList) = front ++ literal q.toList :: back →
          (∀ optional, d.toList.getLast? ≠ some optionalMark → IsKeyPlace optional front back →
            ∃ k ∈ n.walk, k.declares d optional = true)
          ∧ (IsTypePlace front back → q ∈ n.leafNames) := by
  obtain ⟨quote, content, htext, hquote, hbare⟩ := Literal.exists_content hq
  have hquoted : Escapes.quoted? q.toList = some (quote, content) := by
    simp [htext, Escapes.quoted?, hquote]
  refine ⟨String.ofList (Escapes.unescape quote content), ?_, Literal.accepts_text_iff _, ?_⟩
  · rw [Literal.ofName, hquoted]
    simp only [hbare, Bool.false_eq_true, if_false]
    rfl
  intro text n front back hparse hsource
  obtain ⟨tokens, hscan⟩ := exists_scan hparse
  constructor
  · intro optional hmark hplace
    generalize hd : String.ofList (Escapes.unescape quote content) = d at hmark ⊢
    -- the lexer respells the key as it is written in printed annotations
    have hword : (⟨.name, String.ofList (keyOfLiteral q.toList optional)⟩ : Token)
        = ⟨.name, (Grammar.keyWord d optional).text⟩ := by
      simp [htext, ← hd, keyOfLiteral, Grammar.keyWord, Grammar.word]
    obtain ⟨before, after, htokens, hnext⟩ := scan_keyPlace hscan hsource hplace
    rw [htokens, hword] at hscan
    have hquoted : (Escapes.quoted? (Grammar.keyWord d optional).text.toList).isSome = true := by
      rw [Grammar.quoted?_keyWord]
      rfl
    have hdeclares := declares_of_scan hscan hparse hquoted hnext
    obtain ⟨hkey, hoptional⟩ := @Grammar.keyText_keyWord d optional (.inr hmark)
    rwa [hkey, hoptional] at hdeclares
  · intro hplace
    obtain ⟨before, after, htokens, hnext⟩ := scan_typePlace hscan hsource hplace
    rw [htokens, String.ofList_toList] at hscan
    exact mem_leafNames_of_scan hscan hparse hnext

/-- One literal with an escaped quote, as an optional key and as a type. -/
theorem quoted_as_key_and_type_escaped :
    let q := "'it\\'s'"
    let text := "\x7b'it\\'s'?: ['it\\'s' | int]\x7d"
    let n := shape false [.mk "it's" (.tuple [.union [.leaf q, .leaf "int"]]) true] none
    let key := (['\x7b'].map Glyph.char, ofChars "?:['it\\'s'|int]\x7d".toList)
    let type := (ofChars "\x7b'it\\'s'?:[".toList, ofChars "|int]\x7d".toList)
    literal? q.toList = some (q.toList, []) ∧ parse? text = .ok n
      ∧ squeeze (ofChars text.toList) = key.1 ++ literal q.toList :: key.2
      ∧ squeeze (ofChars text.toList) = type.1 ++ literal q.toList :: type.2
      ∧ IsKeyPlace true key.1 key.2 ∧ IsTypePlace type.1 type.2
      ∧ Literal.ofName q = .ok (some (.text "it's"))
      ∧ (∃ k ∈ n.walk, k.declares "it's" true = true) ∧ q ∈ n.leafNames := by
  intro q text n key type
  have hq : literal? q.toList = some (q.toList, []) := by decide +kernel
  have hscan : (Token.scan text).toOption = some [⟨.shape, "@"⟩, Grammar.openGroup,
      Grammar.keyWord "it's" true, ⟨.colon, ":"⟩, ⟨.tuple, "^"⟩, Grammar.openGroup,
      Grammar.word q, ⟨.union, "|"⟩, Grammar.word "int", Grammar.closeGroup,
      Grammar.closeGroup] := by decide +kernel
  have hparse : parse? text = .ok n := parse?_of_scan (Outcome.ok_of_toOption hscan) rfl rfl
  have hkey : squeeze (ofChars text.toList) = key.1 ++ literal q.toList :: key.2 := by
    decide +kernel
  have htype : squeeze (ofChars text.toList) = type.1 ++ literal q.toList :: type.2 := by
    decide +kernel
  have hkeyPlace : IsKeyPlace true key.1 key.2 := by decide +kernel
  have htypePlace : IsTypePlace type.1 type.2 := by decide +kernel
  obtain ⟨d, hd, -, hall⟩ := quoted_as_key_and_type hq
  have hname : Literal.ofName q = .ok (some (.text "it's")) :=
    Outcome.ok_of_toOption (by decide +kernel)
  obtain rfl : d = "it's" := by
    have htext := Option.some.inj (Except.ok.inj (hd.symm.trans hname))
    injection htext
  exact ⟨hq, hparse, hkey, htype, hkeyPlace, htypePlace, hname,
    (hall hparse hkey).1 true (by decide) hkeyPlace, (hall hparse htype).2 htypePlace⟩

end Node

end StructuralTypes

import Mathlib.Algebra.Group.Nat.Defs
import Mathlib.Data.List.Basic
import StructuralTypes.Json.Parser
import StructuralTypes.Json.Printer
import StructuralTypes.Proofs.Outcomes

/-! JSON text is read back as it was written, in every style. A character comes back from
its escape, a string from its characters, and a value from the lines of its items, with
whatever follows left unread. Values with numbers in them are left out. -/

namespace StructuralTypes

/-! ### Hexadecimal digits -/

namespace Radix

theorem hexDigit?_digitChar : ∀ d < 16, hexDigit? (Nat.digitChar d) = some d := by decide

theorem ofDigits_concat (base d : Nat) (ds : List Nat) :
    ofDigits base (ds ++ [d]) = base * ofDigits base ds + d := by
  simp [ofDigits]

theorem ofDigits_zeros (base count : Nat) (ds : List Nat) :
    ofDigits base (List.replicate count 0 ++ ds) = ofDigits base ds := by
  induction count with
  | zero => rfl
  | succ count ih => simpa [List.replicate_succ, ofDigits] using ih

theorem mapM_toDigits (n : Nat) :
    ∃ ds, (Nat.toDigits 16 n).mapM hexDigit? = some ds ∧ ofDigits 16 ds = n := by
  induction n using Nat.strongRecOn with
  | ind n ih =>
    by_cases hn : n < 16
    · rw [Nat.toDigits_of_lt_base hn]
      exact ⟨[n], by simp [hexDigit?_digitChar n hn], by simp [ofDigits]⟩
    · rw [Nat.toDigits_of_base_le (by decide) (by omega)]
      obtain ⟨ds, hds, hv⟩ := ih (n / 16) (by omega)
      refine ⟨ds ++ [n % 16], ?_, ?_⟩
      · rw [List.mapM_append, hds]
        simp [hexDigit?_digitChar (n % 16) (by omega)]
      · rw [ofDigits_concat, hv]
        omega

theorem mapM_zeros (count : Nat) :
    (List.replicate count '0').mapM hexDigit? = some (List.replicate count 0) := by
  induction count with
  | zero => rfl
  | succ count ih =>
    rw [List.replicate_succ, List.mapM_cons, ih]
    rfl

/-- A number padded to a width is read back from as many digits. -/
theorem hexNumber?_hex {width n : Nat} (hw : 0 < width) (hn : n < 16 ^ width)
    (rest : List Char) : hexNumber? width ((Quoted.hex width n).toList ++ rest) = some (n, rest) := by
  obtain ⟨ds, hds, hv⟩ := mapM_toDigits n
  have hlen : (Nat.toDigits 16 n).length ≤ width :=
    (Nat.length_toDigits_le_iff (by decide) hw).2 hn
  have hhex : (Quoted.hex width n).toList
      = List.replicate (width - (Nat.toDigits 16 n).length) '0' ++ Nat.toDigits 16 n := by
    simp [Quoted.hex]
  have hfull : (Quoted.hex width n).toList.length = width := by
    rw [hhex, List.length_append, List.length_replicate]
    omega
  have hmap : (Quoted.hex width n).toList.mapM hexDigit?
      = some (List.replicate (width - (Nat.toDigits 16 n).length) 0 ++ ds) := by
    rw [hhex, List.mapM_append, mapM_zeros, hds]
    rfl
  rw [hexNumber?, List.take_left' hfull, List.drop_left' hfull, hmap]
  simp [hfull, ofDigits_zeros, hv]

end Radix

/-! ### Surrogate pairs -/

namespace CodePoints

theorem isLowHalf_lt {low : Nat} (h : isLowHalf low = true) : low < 16 ^ 4 := by
  simp only [isLowHalf, Bool.and_eq_true, decide_eq_true_eq] at h
  omega

theorem isHighHalf_lt {high : Nat} (h : isHighHalf high = true) : high < 16 ^ 4 := by
  simp only [isHighHalf, Bool.and_eq_true, decide_eq_true_eq] at h
  omega

/-- The halves that a code point is split into join to it again. -/
theorem join_split {n : Nat} (h : 0x10000 ≤ n) :
    join (0xD800 + (n - 0x10000) / 0x400) (0xDC00 + (n - 0x10000) % 0x400) = n := by
  unfold join
  omega

end CodePoints

/-! ### Strings -/

namespace Json

open Outcome

variable {asciiOnly : Bool} {standIn : Option Char}

theorem lowHalf?_unitEscape {low : Nat} (h : CodePoints.isLowHalf low = true)
    (rest : List Char) : lowHalf? (unitEscape low ++ rest) = some (low, rest) := by
  have hword : ∀ s, expect? ['\\', 'u'] ('\\' :: 'u' :: s) = some s := by simp [expect?]
  simp only [unitEscape, List.cons_append]
  rw [lowHalf?, hword]
  simp [Radix.hexNumber?_hex (by decide) (CodePoints.isLowHalf_lt h), h]

/-- The escape of a character beyond the first plane is a pair. -/
theorem stringChar?_pair {high low : Nat} (hh : CodePoints.isHighHalf high = true)
    (hl : CodePoints.isLowHalf low = true) (rest : List Char) :
    stringChar? standIn (unitEscape high ++ unitEscape low ++ rest)
      = some (Char.ofNat (CodePoints.join high low), rest) := by
  rw [List.append_assoc, unitEscape, List.cons_append, List.cons_append, stringChar?,
    unicodeEscape?, Radix.hexNumber?_hex (by decide) (CodePoints.isHighHalf_lt hh)]
  simp [hh, lowHalf?_unitEscape hl]

theorem stringChar?_unit {n : Nat} (h : n < 0x10000) (hh : CodePoints.isHighHalf n = false)
    (hl : CodePoints.isLowHalf n = false) (rest : List Char) :
    stringChar? standIn (unitEscape n ++ rest) = some (Char.ofNat n, rest) := by
  rw [unitEscape, List.cons_append, List.cons_append, stringChar?, unicodeEscape?,
    Radix.hexNumber?_hex (by decide) h]
  simp [hh, hl]

theorem stringChar?_unicodeEscape (c : Char) (rest : List Char) :
    stringChar? standIn (unicodeEscape c.toNat ++ rest) = some (c, rest) := by
  have hvalid : c.toNat < 0xD800 ∨ 0xDFFF < c.toNat ∧ c.toNat < 0x110000 := c.valid
  rw [unicodeEscape]
  split
  next h =>
    rw [stringChar?_unit h, Char.ofNat_toNat]
    · simp [CodePoints.isHighHalf]
      omega
    · simp [CodePoints.isLowHalf]
      omega
  next h =>
    rw [stringChar?_pair]
    · rw [CodePoints.join_split (Nat.le_of_not_lt h), Char.ofNat_toNat]
    · simp [CodePoints.isHighHalf]
      omega
    · simp [CodePoints.isLowHalf]
      omega

/-- A character comes back from its form inside a string. -/
theorem stringChar?_escape (c : Char) (rest : List Char) :
    stringChar? standIn (escape asciiOnly c ++ rest) = some (c, rest) := by
  have hcode : ∀ n : Nat, c.toNat = n → Char.ofNat n = c := fun n h => by rw [← h, Char.ofNat_toNat]
  rw [escape]
  split
  next h => rw [h]; rfl
  split
  next h => rw [h]; rfl
  split
  next h => rw [h]; rfl
  split
  next h => rw [h]; rfl
  split
  next h => rw [h]; rfl
  split
  next h => rw [← hcode _ h]; rfl
  split
  next h => rw [← hcode _ h]; rfl
  split
  next hquote hback _ _ _ _ _ hplain =>
    have hcontrol : ¬ c.toNat < 0x20 := by
      simp only [isPlain, Bool.and_eq_true, decide_eq_true_eq] at hplain
      omega
    rw [List.singleton_append, stringChar?.eq_def]
    split <;> simp_all
  next => exact stringChar?_unicodeEscape c rest

theorem escape_ne_quote (c : Char) (s t : List Char) : escape asciiOnly c ++ s ≠ '"' :: t := by
  intro h
  have hchar := @stringChar?_escape asciiOnly none c s
  rw [h] at hchar
  simp [stringChar?] at hchar

/-- A string comes back from its characters and the closing quote. -/
theorem stringBody?_escape {s : List Char} {count : Nat} (h : s.length ≤ count)
    (rest : List Char) :
    stringBody? standIn count (s.flatMap (escape asciiOnly) ++ '"' :: rest) = some (s, rest) := by
  induction s generalizing count with
  | nil => simp [stringBody?]
  | cons c s ih =>
    obtain ⟨n, rfl⟩ : ∃ n, count = n + 1 := ⟨count - 1, by simp at h; omega⟩
    rw [List.flatMap_cons, List.append_assoc, stringBody?]
    · rw [stringChar?_escape]
      simp [ih (by simpa using h)]
    · exact fun t ht => escape_ne_quote _ _ _ ht

theorem length_le_flatMap_escape (s : List Char) :
    s.length ≤ (s.flatMap (escape asciiOnly)).length := by
  induction s with
  | nil => simp
  | cons c s ih =>
    have hne : escape asciiOnly c ≠ [] := by
      intro hnil
      have hchar := @stringChar?_escape asciiOnly none c []
      simp [hnil, stringChar?] at hchar
    have := List.length_pos_iff.2 hne
    simp only [List.flatMap_cons, List.length_append, List.length_cons]
    omega

/-- A string is read back after its opening quote. -/
theorem readString?_quote (s : String) (rest : List Char) :
    readString? standIn (s.toList.flatMap (escape asciiOnly) ++ '"' :: rest) = some (s, rest) := by
  have hlen := @length_le_flatMap_escape asciiOnly s.toList
  rw [readString?, stringBody?_escape (by simp only [List.length_append]; omega)]
  simp

/-! ### Values -/

mutual

/-- Values without numbers whose objects name no member twice. -/
def Numberless : Json → Prop
  | int _ | float _ => False
  | array items => AllNumberless items
  | object members => (members.map Prod.fst).Nodup ∧ MembersNumberless members
  | null | bool _ | string _ => True

def AllNumberless : List Json → Prop
  | [] => True
  | item :: rest => Numberless item ∧ AllNumberless rest

def MembersNumberless : List (String × Json) → Prop
  | [] => True
  | (_, value) :: rest => Numberless value ∧ MembersNumberless rest

end

variable {style : Style}

theorem skipSpace_cons {c : Char} (h : isSpace c = false) (s : List Char) :
    skipSpace (c :: s) = c :: s := by
  simp [skipSpace, h]

theorem skipSpace_lineBreak (depth : Nat) (s : List Char) :
    skipSpace (lineBreak style depth ++ s) = skipSpace s := by
  rw [lineBreak]
  split
  · rfl
  · rw [skipSpace, List.cons_append, List.dropWhile_cons_of_pos rfl]
    exact List.dropWhile_append_of_pos fun c hc => by rw [List.eq_of_mem_replicate hc]; rfl

/-- A written value begins with a character that is neither a blank nor the end of a list. -/
theorem exists_chars_eq_cons (depth : Nat) {j : Json} (h : j.Numberless) :
    ∃ c s, chars style depth j = c :: s ∧ isSpace c = false ∧ c ≠ ']' := by
  cases j with
  | null => exact ⟨'n', _, rfl, rfl, by decide⟩
  | bool b => cases b <;> exact ⟨_, _, rfl, rfl, by decide⟩
  | int i => exact h.elim
  | float d => exact h.elim
  | string s => exact ⟨'"', _, rfl, rfl, by decide⟩
  | array items =>
    rw [chars, enclose]
    split <;> exact ⟨'[', _, rfl, rfl, by decide⟩
  | object members =>
    rw [chars, enclose]
    split <;> exact ⟨'\x7b', _, rfl, rfl, by decide⟩

theorem skipSpace_chars (depth : Nat) {j : Json} (h : j.Numberless) (s : List Char) :
    skipSpace (chars style depth j ++ s) = chars style depth j ++ s := by
  obtain ⟨c, t, ht, hc, -⟩ := @exists_chars_eq_cons style depth j h
  rw [ht, List.cons_append, skipSpace_cons hc]

theorem readValue_quote (count : Nat) (s : String) (rest : List Char) :
    readValue standIn (count + 1) (quote asciiOnly s ++ rest) = .ok (.string s, rest) := by
  simp [quote, readValue, readString?_quote, found, Except.map]

/-- Lines with a comma between them. -/
def lines (style : Style) (depth : Nat) (pieces : List (List Char)) : List Char :=
  List.intercalate (',' :: lineBreak style depth) pieces

theorem lines_singleton (depth : Nat) (piece : List Char) : lines style depth [piece] = piece :=
  List.intercalate_singleton

theorem lines_cons_cons (depth : Nat) (piece second : List Char) (pieces : List (List Char)) :
    lines style depth (piece :: second :: pieces)
      = piece ++ ',' :: (lineBreak style depth ++ lines style depth (second :: pieces)) := by
  rw [lines, List.intercalate_cons_cons, List.append_assoc, List.cons_append]
  rfl

theorem enclose_cons (depth : Nat) (opening closing : Char) (piece : List Char)
    (pieces : List (List Char)) :
    enclose style depth opening closing (piece :: pieces)
      = opening :: (lineBreak style (depth + 1) ++ (lines style (depth + 1) (piece :: pieces)
        ++ (lineBreak style depth ++ [closing]))) := by
  simp [enclose, lines]

theorem exists_lines_eq_cons (depth : Nat) {item : Json} (h : item.Numberless)
    (items : List Json) : ∃ c s, lines style depth (itemChars style depth (item :: items)) = c :: s
      ∧ isSpace c = false ∧ c ≠ ']' := by
  obtain ⟨c, s, hs, hc, hne⟩ := @exists_chars_eq_cons style depth item h
  cases items with
  | nil => exact ⟨c, s, by rw [itemChars, itemChars, lines_singleton, hs], hc, hne⟩
  | cons second items =>
    rw [itemChars, itemChars, lines_cons_cons, hs]
    exact ⟨c, _, rfl, hc, hne⟩

theorem exists_memberLines_eq_cons (depth : Nat) (member : String × Json)
    (members : List (String × Json)) :
    ∃ s, lines style depth (memberChars style depth (member :: members)) = '"' :: s := by
  cases members with
  | nil =>
    rw [memberChars, memberChars, lines_singleton]
    exact ⟨_, rfl⟩
  | cons second members =>
    rw [memberChars, memberChars, lines_cons_cons]
    exact ⟨_, rfl⟩

/-! ### Reading values -/

theorem readValue_array {count : Nat} {s : List Char} (h : ∀ t, skipSpace s ≠ ']' :: t) :
    readValue standIn (count + 1) ('[' :: s)
      = (readItems standIn count (skipSpace s)).map fun p => (.array p.1, p.2) := by
  rw [readValue]
  split
  next t ht => exact absurd ht (h t)
  next => rfl

theorem readValue_object {count : Nat} {s : List Char} (h : ∀ t, skipSpace s ≠ '\x7d' :: t) :
    readValue standIn (count + 1) ('\x7b' :: s)
      = (readMembers standIn count [] (skipSpace s)).map fun p => (.object p.1, p.2) := by
  rw [readValue]
  split
  next t ht => exact absurd ht (h t)
  next => rfl

/-- An item is the last one where the list ends behind it. -/
theorem readItems_last {count depth : Nat} {item : Json} {after rest : List Char}
    (hread : readValue standIn count (chars style depth item ++ after) = .ok (item, after))
    (h : skipSpace after = ']' :: rest) :
    readItems standIn (count + 1) (chars style depth item ++ after) = .ok ([item], rest) := by
  rw [readItems]
  refine (bind_of_ok hread _).trans ?_
  dsimp only
  rw [h]
  rfl

theorem readItems_more {count depth : Nat} {item : Json} {items : List Json}
    {after next rest : List Char}
    (hread : readValue standIn count (chars style depth item ++ after) = .ok (item, after))
    (h : skipSpace after = ',' :: next)
    (hnext : readItems standIn count (skipSpace next) = .ok (items, rest)) :
    readItems standIn (count + 1) (chars style depth item ++ after)
      = .ok (item :: items, rest) := by
  rw [readItems]
  refine (bind_of_ok hread _).trans ?_
  dsimp only
  rw [h]
  exact bind_of_ok hnext _

theorem skipSpace_nameEnd (s : List Char) :
    ∃ t, expect? [':'] (skipSpace (nameEnd style ++ s)) = some t ∧ skipSpace t = skipSpace s := by
  rw [nameEnd]
  split
  · exact ⟨' ' :: s, rfl, rfl⟩
  · exact ⟨s, rfl, rfl⟩

/-- The text of a member. -/
def memberText (style : Style) (depth : Nat) (name : String) (value : Json) : List Char :=
  quote style.asciiOnly name ++ nameEnd style ++ chars style depth value

/-- A member is read up to what follows it once its value is. -/
theorem readMembers_member {count depth : Nat} {name : String} {value : Json}
    {after : List Char} (h : value.Numberless)
    (hread : readValue standIn count (chars style depth value ++ after) = .ok (value, after))
    (members : List (String × Json)) :
    readMembers standIn (count + 1) members (memberText style depth name value ++ after)
      = match skipSpace after with
        | '\x7d' :: rest => return (Table.insert name value members, rest)
        | ',' :: rest => readMembers standIn count (Table.insert name value members) (skipSpace rest)
        | _ => throw .malformed := by
  have hname : ∀ s, (expect? ['"'] (quote style.asciiOnly name ++ s) >>= readString? standIn)
      = some (name, s) := by
    intro s
    rw [quote, List.cons_append, List.append_assoc]
    exact readString?_quote name s
  obtain ⟨t, ht, hskip⟩ := @skipSpace_nameEnd style (chars style depth value ++ after)
  rw [skipSpace_chars depth h] at hskip
  rw [readMembers, memberText, List.append_assoc, List.append_assoc, hname]
  show (found (expect? [':'] (skipSpace (nameEnd style ++ (chars style depth value ++ after))))
    >>= _) = _
  rw [ht]
  exact bind_of_ok (show readValue standIn count (skipSpace t) = _ by rw [hskip, hread]) _

theorem not_mem_of_nodup_append {before after : List (String × Json)} {name : String}
    {value : Json} (h : ((before ++ (name, value) :: after).map Prod.fst).Nodup) :
    name ∉ before.map Prod.fst := by
  rw [List.map_append, List.nodup_append] at h
  exact fun hm => h.2.2 name hm name List.mem_cons_self rfl

mutual

/-- A value is read back from its text, whatever follows. -/
theorem readValue_chars : ∀ (count : Nat) (j : Json) (depth : Nat) (rest : List Char),
    j.Numberless → (chars style depth j).length < count →
    readValue standIn count (chars style depth j ++ rest) = .ok (j, rest)
  | 0, _, _, _, _, hc => absurd hc (Nat.not_lt_zero _)
  | _ + 1, .null, _, _, _, _ => rfl
  | _ + 1, .bool true, _, _, _, _ => rfl
  | _ + 1, .bool false, _, _, _, _ => rfl
  | _ + 1, .int _, _, _, h, _ => h.elim
  | _ + 1, .float _, _, _, h, _ => h.elim
  | count + 1, .string s, _, rest, _, _ => readValue_quote count s rest
  | _ + 1, .array [], _, _, _, _ => rfl
  | _ + 1, .object [], _, _, _, _ => rfl
  | count + 1, .array (item :: items), depth, rest, h, hc => by
    obtain ⟨c, s, hs, hspace, hne⟩ := @exists_lines_eq_cons style (depth + 1) item h.1 items
    have hread := readItems_chars count item items (depth + 1) depth rest h
    rw [chars, itemChars, enclose_cons, ← itemChars, hs] at hc ⊢
    rw [hs] at hread
    simp only [List.length_cons, List.length_append] at hc hread
    simp only [List.cons_append, List.append_assoc, List.nil_append] at hread ⊢
    have hskip : skipSpace (lineBreak style (depth + 1)
        ++ c :: (s ++ (lineBreak style depth ++ ']' :: rest)))
          = c :: (s ++ (lineBreak style depth ++ ']' :: rest)) := by
      rw [skipSpace_lineBreak, skipSpace_cons hspace]
    rw [readValue_array, hskip, hread (by omega)]
    · rfl
    · rw [hskip]
      exact fun t e => hne (List.cons.inj e).1
  | count + 1, .object (member :: members), depth, rest, h, hc => by
    obtain ⟨s, hs⟩ := @exists_memberLines_eq_cons style (depth + 1) member members
    have hread := readMembers_chars count member members (depth + 1) depth rest [] h.2 h.1
    rw [chars, memberChars, enclose_cons, ← memberChars, hs] at hc ⊢
    rw [hs] at hread
    simp only [List.length_cons, List.length_append] at hc hread
    simp only [List.cons_append, List.append_assoc, List.nil_append] at hread ⊢
    have hskip : skipSpace (lineBreak style (depth + 1)
        ++ '"' :: (s ++ (lineBreak style depth ++ '\x7d' :: rest)))
          = '"' :: (s ++ (lineBreak style depth ++ '\x7d' :: rest)) := by
      rw [skipSpace_lineBreak, skipSpace_cons rfl]
    rw [readValue_object, hskip, hread (by omega)]
    · rfl
    · rw [hskip]
      exact fun t e => absurd (List.cons.inj e).1 (by decide)

theorem readItems_chars : ∀ (count : Nat) (item : Json) (items : List Json)
    (depth outer : Nat) (rest : List Char), AllNumberless (item :: items) →
    (lines style depth (itemChars style depth (item :: items))).length + 1 < count →
    readItems standIn count (lines style depth (itemChars style depth (item :: items))
      ++ (lineBreak style outer ++ ']' :: rest)) = .ok (item :: items, rest)
  | 0, _, _, _, _, _, _, hc => absurd hc (Nat.not_lt_zero _)
  | count + 1, item, [], depth, outer, rest, h, hc => by
    rw [itemChars, itemChars, lines_singleton] at hc ⊢
    refine readItems_last (readValue_chars count item depth _ h.1 (by omega)) ?_
    rw [skipSpace_lineBreak, skipSpace_cons rfl]
  | count + 1, item, second :: items, depth, outer, rest, h, hc => by
    obtain ⟨c, s, hs, hspace, -⟩ := @exists_lines_eq_cons style depth second h.2.1 items
    have hread := readItems_chars count second items depth outer rest h.2
    rw [itemChars, itemChars, lines_cons_cons, ← itemChars, hs] at hc ⊢
    rw [hs] at hread
    simp only [List.length_append, List.length_cons] at hc hread
    rw [List.append_assoc, List.cons_append]
    refine readItems_more (readValue_chars count item depth _ h.1 (by omega))
      (skipSpace_cons rfl _) ?_
    rw [List.append_assoc, skipSpace_lineBreak, List.cons_append, skipSpace_cons hspace,
      ← List.cons_append, hread (by omega)]

theorem readMembers_chars : ∀ (count : Nat) (member : String × Json)
    (members : List (String × Json)) (depth outer : Nat) (rest : List Char)
    (before : List (String × Json)), MembersNumberless (member :: members) →
    ((before ++ member :: members).map Prod.fst).Nodup →
    (lines style depth (memberChars style depth (member :: members))).length + 1 < count →
    readMembers standIn count before
      (lines style depth (memberChars style depth (member :: members))
        ++ (lineBreak style outer ++ '\x7d' :: rest)) = .ok (before ++ member :: members, rest)
  | 0, _, _, _, _, _, _, _, _, hc => absurd hc (Nat.not_lt_zero _)
  | count + 1, (name, value), [], depth, outer, rest, before, h, hd, hc => by
    have hfresh := not_mem_of_nodup_append hd
    rw [memberChars, memberChars, lines_singleton] at hc ⊢
    simp only [List.length_append] at hc
    refine (readMembers_member h.1 (readValue_chars count value depth _ h.1 (by omega)) _).trans ?_
    rw [skipSpace_lineBreak, skipSpace_cons rfl, Table.insert_of_not_mem hfresh]
    rfl
  | count + 1, (name, value), second :: members, depth, outer, rest, before, h, hd, hc => by
    have hfresh := not_mem_of_nodup_append hd
    obtain ⟨s, hs⟩ := @exists_memberLines_eq_cons style depth second members
    have hread := readMembers_chars count second members depth outer rest
      (before ++ [(name, value)]) h.2 (by simpa using hd)
    rw [memberChars, memberChars, lines_cons_cons, ← memberChars, hs] at hc ⊢
    rw [hs] at hread
    simp only [List.length_append, List.length_cons] at hc hread
    rw [List.append_assoc, List.cons_append]
    refine (readMembers_member h.1 (readValue_chars count value depth _ h.1 (by omega)) _).trans ?_
    rw [skipSpace_cons rfl, Table.insert_of_not_mem hfresh]
    have hnext : readMembers standIn count (before ++ [(name, value)])
        (skipSpace (lineBreak style depth ++ '"' :: s
          ++ (lineBreak style outer ++ '\x7d' :: rest)))
        = .ok (before ++ (name, value) :: second :: members, rest) := by
      rw [List.append_assoc, skipSpace_lineBreak, List.cons_append, skipSpace_cons rfl,
        ← List.cons_append, hread (by omega), List.append_assoc]
      rfl
    exact hnext

end

/-- A whole text is read as the value that it was written from. -/
theorem parse_render {j : Json} (h : j.Numberless) :
    parse standIn (j.render style) = .ok j := by
  have hread := @readValue_chars standIn style _ j 0 [] h (Nat.lt_succ_self _)
  have hskip := @skipSpace_chars style 0 j h []
  rw [List.append_nil] at hread hskip
  rw [parse, render, String.toList_ofList, hskip]
  exact bind_of_ok hread _

end Json

end StructuralTypes

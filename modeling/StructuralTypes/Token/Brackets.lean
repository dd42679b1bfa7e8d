import StructuralTypes.Token.Balance
import StructuralTypes.Token.Standing

/-! Constructs that open and close in the text of an annotation, and whether one of
them is closed by the end of another. -/

namespace StructuralTypes

/-- The constructs with an opening and a closing end. -/
inductive Bracket where
  | group
  | tuple
  | shape
  | exactShape
  | array
deriving DecidableEq

namespace Bracket

/-- The construct that opens at the front of a text, and the text after it. -/
def opening? : List Char → Option (Bracket × List Char)
  | 'A' :: 'r' :: 'r' :: 'a' :: 'y' :: '<' :: rest => some (array, rest)
  | '\x7b' :: '|' :: rest => some (exactShape, rest)
  | '\x7b' :: rest => some (shape, rest)
  | '[' :: rest => some (tuple, rest)
  | '(' :: rest => some (group, rest)
  | _ => none

/-- The construct whose end is at the front of a text, and the text after it. -/
def closing? : List Char → Option (Bracket × List Char)
  | '|' :: '\x7d' :: rest => some (exactShape, rest)
  | '\x7d' :: rest => some (shape, rest)
  | ']' :: rest => some (tuple, rest)
  | ')' :: rest => some (group, rest)
  | '>' :: rest => some (array, rest)
  | _ => none

theorem length_lt_of_opening? {s rest : List Char} {b : Bracket}
    (h : opening? s = some (b, rest)) : rest.length < s.length := by
  unfold opening? at h
  split at h <;> grind [List.length_cons]

theorem length_lt_of_closing? {s rest : List Char} {b : Bracket}
    (h : closing? s = some (b, rest)) : rest.length < s.length := by
  unfold closing? at h
  split at h <;> grind [List.length_cons]

/-- Whether a construct is closed by the end of another one, given the constructs that
are open, innermost first. An end with nothing open is passed over. -/
def crosses (opened : List Bracket) (s : List Char) : Bool :=
  match _ho : opening? s with
  | some (b, rest) => crosses (b :: opened) rest
  | none =>
    match _hc : closing? s with
    | some (b, rest) =>
      match opened with
      | [] => crosses [] rest
      | innermost :: opened => innermost != b || crosses opened rest
    | none =>
      match s with
      | [] => false
      | _ :: rest => crosses opened rest
termination_by s.length
decreasing_by
  · exact length_lt_of_opening? _ho
  · exact length_lt_of_closing? _hc
  · exact length_lt_of_closing? _hc
  · simp

end Bracket

namespace Glyph

/-- What a bracket of whatever kind comes to. -/
def bracket? : Glyph → Option Token
  | char c =>
    if c ∈ ['(', '[', '\x7b'] then some .opening
    else if c ∈ [')', ']', '\x7d', '>'] then some .closing
    else none
  | literal _ => none

/-- The brackets of a text, all taken as of one kind. The word that opens an array type is
one of them. -/
def brackets : List Glyph → List Token
  | [] => []
  | g :: rest =>
    (if MarkerForm.arrayWord.isPrefixOf (g :: rest) then [.opening] else (bracket? g).toList)
      ++ brackets rest

end Glyph

namespace MarkerForm

open Glyph

/-- The end of a construct between two texts, which is not read together with what stands
before it, and is no bracket of an indexer nor between those of one. -/
inductive Closes (front back : List Glyph) : List Char → Prop
  | group : Closes front back [')']
  | array : Closes front back ['>']
  | shape (hbefore : front.getLast? ≠ some (char '|')) : Closes front back ['\x7d']
  | exactShape (hbefore : front.getLast? ≠ some (char '\x7b')) : Closes front back ['|', '\x7d']
  | tuple (hbefore : front.getLast? ≠ some (char '[')) (hafter : back.head? ≠ some (char ':'))
      (hindexer : ¬ EndsIndexer back) : Closes front back [']']

end MarkerForm

end StructuralTypes

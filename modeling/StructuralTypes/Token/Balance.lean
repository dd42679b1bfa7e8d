import StructuralTypes.Token.Tree

/-! Balanced tokens, and trees written out as tokens again. A bracket is written in one
way whatever text its token carried, since a group keeps no text of its own. -/

namespace StructuralTypes

namespace Token

def opening : Token := ⟨.groupOpen, "("⟩

def closing : Token := ⟨.groupClose, ")"⟩

/-- A token with the common text if it is a bracket. -/
def uniform (t : Token) : Token :=
  match t.kind with
  | .groupOpen => opening
  | .groupClose => closing
  | _ => t

/-- What a token adds to the number of open groups. -/
def step (t : Token) : Int :=
  match t.kind with
  | .groupOpen => 1
  | .groupClose => -1
  | _ => 0

/-- The number of groups that tokens open, less those they close. -/
def depth (tokens : List Token) : Int :=
  tokens.foldr (fun t d => t.step + d) 0

/-- No group is closed before it is opened, and all are closed in the end. -/
def Balanced (tokens : List Token) : Prop :=
  (∀ front back, tokens = front ++ back → 0 ≤ depth front) ∧ depth tokens = 0

@[simp] theorem depth_nil : depth [] = 0 := rfl

@[simp] theorem depth_cons (t : Token) (rest : List Token) :
    depth (t :: rest) = t.step + depth rest := rfl

end Token

namespace TokenTree

mutual

/-- The tokens of an item, brackets around groups. -/
def tokens : TokenTree → List Token
  | token t => [t]
  | group items => .opening :: (tokensAll items ++ [.closing])
  | stray _ => []

def tokensAll : List TokenTree → List Token
  | [] => []
  | tree :: rest => tokens tree ++ tokensAll rest

end

theorem tokensAll_append (xs ys : List TokenTree) :
    tokensAll (xs ++ ys) = tokensAll xs ++ tokensAll ys := by
  induction xs with
  | nil => simp [tokensAll]
  | cons tree rest ih => simp [tokensAll, ih]

end TokenTree

end StructuralTypes

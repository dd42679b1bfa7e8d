/-! Whole numbers with too many digits. In decimal they are neither read from a text nor
written into one, however large the numbers are that can be reckoned with. -/

namespace StructuralTypes

/-- A whole number that stays unread or unwritten. -/
inductive Overlong where
  /-- It was to be read from so many digits. -/
  | read (count : Nat)
  | written
deriving DecidableEq

namespace Overlong

/-- The most digits of a whole number in decimal. -/
def limit : Nat := 4300

/-- Whether a number has more digits than that. -/
def exceeds (n : Nat) : Bool :=
  Nat.pow 10 limit ≤ n

/-- Refuses to read so many digits. -/
def check (count : Nat) : Except Overlong Unit :=
  if limit < count then throw (.read count) else return ()

def message (e : Overlong) : String :=
  "Exceeds the limit (" ++ toString limit ++ " digits) for integer string conversion"
    ++ (match e with
      | read count => ": value has " ++ toString count ++ " digits"
      | written => "")
    ++ "; use sys.set_int_max_str_digits() to increase the limit"

end Overlong

end StructuralTypes

namespace TreePath

/-- A field of a mapping, by its name, or an element of a sequence, by its position. -/
inductive ChildKey where
  | name (n : String)
  | index (i : Nat)
  deriving DecidableEq, Repr

namespace ChildKey

/-- The key as the name of a field; a position is written in decimal. -/
def asName : ChildKey → String
  | .name n => n
  | .index i => toString i

def asIndex? : ChildKey → Option Nat
  | .name _ => none
  | .index i => some i

def toText (k : ChildKey) : String := k.asName

/-- The position that a decimal text of at most 64 bits denotes; a plus may stand in front. -/
def readPosition? (text : String) : Option Nat :=
  let digits := match text.toList with
    | '+' :: rest => rest
    | cs => cs
  if digits ≠ [] ∧ digits.all Char.isDigit then
    let n := Nat.ofDigitChars 10 digits 0
    if n < UInt64.size then some n else none
  else none

/-- Every name is below every position; names compare by their characters. -/
def lt : ChildKey → ChildKey → Bool
  | .name a, .name b => a < b
  | .name _, .index _ => true
  | .index _, .name _ => false
  | .index a, .index b => a < b

def le (a b : ChildKey) : Bool := !b.lt a

/-- The keys in ascending order; equal ones stay. -/
def sort (keys : List ChildKey) : List ChildKey := keys.mergeSort le

/-- Takes out of a sorted list each key that equals the one before it. -/
def dedup : List ChildKey → List ChildKey
  | [] => []
  | [k] => [k]
  | k :: l :: rest => if k = l then dedup (l :: rest) else k :: dedup (l :: rest)

end ChildKey

end TreePath

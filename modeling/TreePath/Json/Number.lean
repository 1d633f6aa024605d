import TreePath.Decimal.Double

namespace TreePath

/-- An integer that is kept exactly. -/
structure Integer where
  value : Int
  le_value : Int64.minValue.toInt ≤ value
  value_lt : value < UInt64.size
  deriving DecidableEq

namespace Integer

def ofInt? (n : Int) : Option Integer :=
  if h : Int64.minValue.toInt ≤ n ∧ n < UInt64.size then some ⟨n, h.1, h.2⟩ else none

/-- A position or a count; one that does not fit is cut to the largest integer. -/
def ofNat (n : Nat) : Integer :=
  ⟨(min n (UInt64.size - 1) : Nat), by rw [Int64.toInt_minValue]; omega,
    by rw [UInt64.size]; omega⟩

/-- The integer as a signed 64-bit one, when it is not too large for it. -/
def toInt64? (n : Integer) : Option Int64 :=
  if n.value ≤ Int64.maxValue.toInt then some (Int64.ofInt n.value) else none

end Integer

/-- An integer and a double are different numbers even where their values agree. -/
inductive Number where
  | int (n : Integer)
  | double (d : Double)
  deriving DecidableEq

namespace Number

/-- Numeric equality within each of the two kinds. -/
def same : Number → Number → Bool
  | .int a, .int b => a == b
  | .double a, .double b => a.same b
  | _, _ => false

end Number

end TreePath

namespace TreePath

/-- Selects positions of a sequence by two bounds and a step, each of which may be left open. Bounds
below zero count from the end, bounds outside the sequence are moved to its ends, and a step below
zero goes backwards. -/
structure Slice where
  start : Option Int64
  stop : Option Int64
  step : Option Int64
  deriving DecidableEq

namespace Slice

/-- Every position in order. -/
def full : Slice := ⟨none, none, none⟩

def isFull (s : Slice) : Bool := s.start.isNone && s.stop.isNone && s.step.isNone

/-- The positions `i`, `i + step`, … below `stop`. -/
def ascending (stop step i : Nat) : List Nat :=
  if i < stop ∧ 0 < step then i :: ascending stop step (i + step) else []
termination_by stop - i
decreasing_by omega

/-- The positions `i`, `i - step`, … above `stop`. -/
def descending (stop : Int) (step : Nat) (i : Int) : List Nat :=
  if stop < i ∧ 0 < step then i.toNat :: descending stop step (i - step) else []
termination_by (i - stop).toNat
decreasing_by omega

/-- The place of a bound in a sequence of `len` elements, moved into `low … high`. -/
def place (bound : Int64) (len low high : Int) : Int :=
  let i := if bound.toInt < 0 then bound.toInt + len else bound.toInt
  max low (min high i)

/-- The positions selected from a sequence of `len` elements, in slice order. A step of zero
selects nothing. -/
def indices (s : Slice) (len : Nat) : List Nat :=
  let len : Int := min len Int64.maxValue.toInt
  let step := (s.step.getD 1).toInt
  if 0 < step then
    let start := (s.start.map (place · len 0 len)).getD 0
    let stop := (s.stop.map (place · len 0 len)).getD len
    ascending stop.toNat step.toNat start.toNat
  else if step < 0 then
    let start := (s.start.map (place · len (-1) (len - 1))).getD (len - 1)
    let stop := (s.stop.map (place · len (-1) (len - 1))).getD (-1)
    descending stop step.natAbs start
  else []

end Slice

end TreePath

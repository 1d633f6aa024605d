import TreePath.Decimal.Double

namespace TreePath

structure Decimal where
  digits : Nat
  exponent : Int
  deriving DecidableEq

namespace Decimal

/-- The same value without trailing zeros among the digits. -/
def trim (fuel : Nat) (d : Decimal) : Decimal :=
  match fuel with
  | 0 => d
  | fuel + 1 =>
    if d.digits ≠ 0 ∧ d.digits % 10 = 0 then trim fuel ⟨d.digits / 10, d.exponent + 1⟩ else d

/-- How many zeros follow the point in `num / den`, a fraction below one. -/
def leadingZeros (fuel num den : Nat) : Nat :=
  match fuel with
  | 0 => 0
  | fuel + 1 => if den ≤ num * 10 then 0 else leadingZeros fuel (num * 10) den + 1

/-- The position of the point: `num / den` is below ten to this power, by less than one digit. -/
def pointPosition (num den : Nat) : Int :=
  if den ≤ num then ((Nat.toDigits 10 (num / den)).length : Int)
  else -(leadingZeros 400 num den : Int)

/-- A positive value `num / den`, with the reals that round to it: they reach down by one part in
`down` and up by one part in `up`, and the ends belong to them when `closed`. -/
structure Target where
  num : Nat
  den : Nat
  down : Nat
  up : Nat
  closed : Bool

/-- The digits of the grid point with unit `10 ^ unit` that rounds to the target, if there is one:
the nearer of two, and the even one when both are equally near. -/
def Target.onGrid? (t : Target) (unit : Int) : Option Nat :=
  let num := t.num * Nat.pow 10 (-unit).toNat
  let den := t.den * Nat.pow 10 unit.toNat
  let below := num / den
  let past := num % den
  let short := den - past
  let fits (gap : Nat) (parts : Nat) : Bool :=
    if t.closed then gap * parts ≤ num else gap * parts < num
  match fits past t.down, fits short t.up with
  | true, true =>
    if past < short ∨ (past = short ∧ below % 2 = 0) then some below else some (below + 1)
  | true, false => some below
  | false, true => some (below + 1)
  | false, false => none

def Target.search (t : Target) (point : Int) : (grids count : Nat) → Decimal
  | 0, _ => ⟨t.num / t.den, 0⟩
  | grids + 1, count =>
    match t.onGrid? (point - count) with
    | some digits => ⟨digits, point - count⟩
    | none => t.search point grids (count + 1)

end Decimal

namespace Double

def target (d : Double) : Decimal.Target where
  num := d.significand <<< d.exponent.toNat
  den := 1 <<< (-d.exponent).toNat
  down := if d.isPowerBoundary then 4 * d.significand else 2 * d.significand
  up := 2 * d.significand
  closed := d.significand % 2 == 0

/-- The shortest decimal that reads back as the magnitude of `d`; seventeen digits always do. -/
def shortest (d : Double) : Decimal :=
  if d.isZero then ⟨0, 0⟩
  else
    let t := d.target
    (t.search (Decimal.pointPosition t.num t.den) 17 1).trim 20

end Double

end TreePath

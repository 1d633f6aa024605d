namespace TreePath

/-- A finite double: its exponent field is not the one of infinities and NaN. -/
structure Double where
  bits : UInt64
  finite : bits.toNat >>> 52 % 2048 < 2047
  deriving DecidableEq

namespace Double

/-- The double with these bits, unless they are those of an infinity or of NaN. -/
def ofBits? (bits : UInt64) : Option Double :=
  if h : bits.toNat >>> 52 % 2048 < 2047 then some ⟨bits, h⟩ else none

def ofFloat? (f : Float) : Option Double := ofBits? f.toBits

def isNegative (d : Double) : Bool := 1 <<< 63 ≤ d.bits.toNat

def exponentField (d : Double) : Nat := d.bits.toNat >>> 52 % 2048

def fractionField (d : Double) : Nat := d.bits.toNat % (1 <<< 52)

/-- The whole number `m` in the magnitude `m · 2 ^ q`. -/
def significand (d : Double) : Nat :=
  if d.exponentField = 0 then d.fractionField else d.fractionField + (1 <<< 52)

/-- The power `q` in the magnitude `m · 2 ^ q`. -/
def exponent (d : Double) : Int :=
  if d.exponentField = 0 then -1074 else (d.exponentField : Int) - 1075

def isZero (d : Double) : Bool := d.significand == 0

/-- The double below is half as far away as the one above. -/
def isPowerBoundary (d : Double) : Bool :=
  d.fractionField == 0 && 1 < d.exponentField

/-- Numeric equality: the two zeros are equal, and otherwise the bits decide. -/
def same (a b : Double) : Bool := a.bits == b.bits || (a.isZero && b.isZero)

/-- Ten to the power `n`, for a power that a double can hold. -/
def powerOfTen (n : Nat) : Float := Float.ofScientific 1 false n

/-- `f · 10 ^ power`, by one operation when the power of ten is a double, and otherwise by steps
of 308 places. Refused when the result is too large for a double. -/
def scale? (f : Float) (power : Int) : Option Float :=
  if power.natAbs ≤ 308 then
    if 0 ≤ power then
      let scaled := f * powerOfTen power.natAbs
      if scaled.isInf then none else some scaled
    else some (f / powerOfTen power.natAbs)
  else if f == 0 then some f
  else if 0 ≤ power then none
  else scale? (f / powerOfTen 308) (power + 308)
termination_by power.natAbs
decreasing_by omega

/-- The double written as `significand · 10 ^ power`, with a sign. -/
def ofParts? (negative : Bool) (significand : Nat) (power : Int) : Option Double :=
  match scale? significand.toUInt64.toFloat power with
  | some f => ofFloat? (if negative then -f else f)
  | none => none

end Double

end TreePath

import TreePath.Decimal.Shortest

namespace TreePath.Decimal

/-- The decisions a number format leaves open. -/
structure Layout where
  /-- The least power of ten of the first digit that is written positionally. -/
  plainFrom : Int
  /-- The least power above it that is not. -/
  plainBelow : Int
  /-- What stands after the digits of a whole number that is written positionally. -/
  wholeEnd : List Char
  /-- What stands between digits and exponent. -/
  mark : Char
  /-- What stands in front of an exponent that is not negative. -/
  plus : List Char

def natText (n : Nat) : List Char := Nat.toDigits 10 n

def intText (n : Int) : List Char :=
  if n < 0 then '-' :: natText n.natAbs else natText n.natAbs

/-- Digits with a point after the first `whole` of them, and zeros where digits are missing. -/
def Layout.plain (layout : Layout) (digits : List Char) (whole : Int) : List Char :=
  if whole ≤ 0 then '0' :: '.' :: (List.replicate (-whole).toNat '0' ++ digits)
  else if digits.length ≤ whole.toNat then
    digits ++ List.replicate (whole.toNat - digits.length) '0' ++ layout.wholeEnd
  else digits.take whole.toNat ++ '.' :: digits.drop whole.toNat

/-- One digit before the point, and the power of that digit as exponent. -/
def Layout.scientific (layout : Layout) (digits : List Char) (power : Int) : List Char :=
  let fraction := if digits.length ≤ 1 then [] else '.' :: digits.drop 1
  let sign := if power < 0 then [] else layout.plus
  digits.take 1 ++ fraction ++ layout.mark :: (sign ++ intText power)

def Layout.text (layout : Layout) (d : Decimal) : List Char :=
  let digits := natText d.digits
  let power := d.exponent + digits.length - 1
  if layout.plainFrom ≤ power ∧ power < layout.plainBelow then layout.plain digits (power + 1)
  else layout.scientific digits power

end TreePath.Decimal

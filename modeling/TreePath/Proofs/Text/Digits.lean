import TreePath.Path.Token

namespace TreePath

namespace Decimal

theorem isDigit_of_mem_natText {n : Nat} {c : Char} (h : c ∈ natText n) : c.isDigit = true :=
  Nat.isDigit_of_mem_toDigits (by decide) (by decide) h

theorem natText_ne_nil (n : Nat) : natText n ≠ [] := Nat.toDigits_ne_nil

theorem ofDigitChars_natText (n : Nat) : Nat.ofDigitChars 10 (natText n) 0 = n :=
  Nat.ofDigitChars_ten_toDigits

theorem natText_eq_cons (n : Nat) : ∃ c cs, natText n = c :: cs ∧ c.isDigit = true := by
  cases h : natText n with
  | nil => exact absurd h (natText_ne_nil n)
  | cons c cs => exact ⟨c, cs, rfl, isDigit_of_mem_natText (n := n) (by simp [h])⟩

/-- An integer is written as a digit or a minus in front of digits. -/
theorem intText_cases (n : Int) :
    (0 ≤ n ∧ intText n = natText n.natAbs) ∨ (n < 0 ∧ intText n = '-' :: natText n.natAbs) := by
  unfold intText
  by_cases h : n < 0
  · right
    simp [h]
  · left
    simp [h]
    omega

/-- Digits and the minus. -/
def isNumeral (c : Char) : Bool := c.isDigit || c == '-'

theorem isNumeral_of_mem_intText {n : Int} {c : Char} (h : c ∈ intText n) : isNumeral c = true := by
  rcases intText_cases n with ⟨-, hn⟩ | ⟨-, hn⟩
  · rw [hn] at h
    simp [isNumeral, isDigit_of_mem_natText h]
  · rw [hn] at h
    rcases List.mem_cons.mp h with rfl | h
    · decide
    · simp [isNumeral, isDigit_of_mem_natText h]

theorem intText_ne_nil (n : Int) : intText n ≠ [] := by
  rcases intText_cases n with ⟨-, hn⟩ | ⟨-, hn⟩
  · rw [hn]
    exact natText_ne_nil _
  · simp [hn]

end Decimal

open Decimal

theorem ne_minus_of_isDigit {c : Char} (h : c.isDigit = true) : c ≠ '-' := by
  intro hsame
  obtain rfl := hsame
  exact absurd h (by decide)

theorem isInteger_digits {c : Char} {cs : List Char} (hc : c ≠ '-') :
    Key.isInteger (c :: cs) = (c :: cs).all Char.isDigit := by
  unfold Key.isInteger
  split
  · next heq => exact absurd (List.cons.inj heq).1 hc
  · simp

theorem isInteger_intText (n : Int) : Key.isInteger (intText n) = true := by
  rcases intText_cases n with ⟨-, hn⟩ | ⟨-, hn⟩
  · obtain ⟨c, cs, h, hc⟩ := natText_eq_cons n.natAbs
    rw [hn, h, isInteger_digits (ne_minus_of_isDigit hc), ← h]
    exact List.all_eq_true.mpr fun _ => isDigit_of_mem_natText
  · rw [hn]
    have hall : (natText n.natAbs).all Char.isDigit = true :=
      List.all_eq_true.mpr fun _ => isDigit_of_mem_natText
    simp [Key.isInteger, natText_ne_nil, hall]

theorem integerOf_digits {c : Char} {cs : List Char} (hc : c ≠ '-') :
    integerOf (c :: cs) = (Nat.ofDigitChars 10 (c :: cs) 0 : Nat) := by
  unfold integerOf
  split
  · next heq => exact absurd (List.cons.inj heq).1 hc
  · rfl

theorem integerOf_intText (n : Int) : integerOf (intText n) = n := by
  rcases intText_cases n with ⟨hpos, hn⟩ | ⟨hneg, hn⟩
  · obtain ⟨c, cs, h, hc⟩ := natText_eq_cons n.natAbs
    rw [hn, h, integerOf_digits (ne_minus_of_isDigit hc), ← h, ofDigitChars_natText]
    omega
  · rw [hn]
    change -((Nat.ofDigitChars 10 (natText n.natAbs) 0 : Nat) : Int) = n
    rw [ofDigitChars_natText]
    omega

theorem positionOf?_intText (i : Int64) : positionOf? (intText i.toInt) = some i := by
  unfold positionOf?
  dsimp only
  rw [integerOf_intText, if_pos ⟨i.minValue_le_toInt, i.toInt_le⟩, Int64.ofInt_toInt]

end TreePath

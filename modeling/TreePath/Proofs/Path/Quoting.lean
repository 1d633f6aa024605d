import TreePath.Path.Key
import TreePath.Path.Literal
import TreePath.Proofs.Path.Balance

namespace TreePath

open Text

namespace Text

theorem hexDigit_facts : ∀ n < 16, hexValue? (hexDigit n) = some n ∧ hexDigit n ≠ '\\' ∧
    hexDigit n ≠ '\'' ∧ hexDigit n ≠ '"' ∧ hexDigit n ≠ '+' := by
  decide

theorem readHex?_hexCode {n : Nat} (h : n < 65536) : readHex? (hexCode n) = some n := by
  have h₁ := (hexDigit_facts (n / 4096 % 16) (by omega)).1
  have h₂ := (hexDigit_facts (n / 256 % 16) (by omega)).1
  have h₃ := (hexDigit_facts (n / 16 % 16) (by omega)).1
  have h₄ := (hexDigit_facts (n % 16) (by omega)).1
  simp only [readHex?, hexCode, List.foldlM_cons, List.foldlM_nil, h₁, h₂, h₃, h₄, Option.map_some,
    Option.bind_eq_bind, Option.bind_some, Option.pure_def]
  congr 1
  omega

theorem quotable_hexCode {quote : Char} (hquote : Nesting.isQuote quote = true) (n : Nat) :
    Quotable quote (hexCode n) := by
  have digit (m : Nat) (hm : m < 16) {rest : List Char} (hrest : Quotable quote rest) :
      Quotable quote (hexDigit m :: rest) := by
    obtain ⟨-, hslash, hsingle, hdouble, -⟩ := hexDigit_facts m hm
    refine .plain hslash ?_ hrest
    simp only [Nesting.isQuote, Bool.or_eq_true, decide_eq_true_eq] at hquote
    rcases hquote with rfl | rfl
    · exact hsingle
    · exact hdouble
  exact digit _ (by omega) (digit _ (by omega) (digit _ (by omega) (digit _ (by omega) .nil)))

theorem toNat_lt_of_isControl {c : Char} (h : isControl c = true) : c.toNat < 0xA0 := by
  simp only [isControl, Bool.or_eq_true, Bool.and_eq_true, decide_eq_true_eq] at h
  omega

end Text

theorem quotable_flatMap {quote : Char} {escape : Char → List Char}
    (h : ∀ c, Quotable quote (escape c)) (cs : List Char) : Quotable quote (cs.flatMap escape) := by
  induction cs with
  | nil => exact .nil
  | cons c cs ih =>
    rw [List.flatMap_cons]
    exact (h c).append ih

namespace Literal

theorem readBody_close {opened i : Nat} {quote : Char} {rest : List Char} :
    readBody opened quote i (quote :: rest) = .ok ([], ⟨i + 1, rest⟩) := by
  rw [readBody.eq_def]
  simp only [if_true]

theorem readBody_plain {opened i : Nat} {quote c : Char} {rest : List Char} (hquote : c ≠ quote)
    (hslash : c ≠ '\\') : readBody opened quote i (c :: rest) =
      (readBody opened quote (i + 1) rest).map fun found => (c :: found.1, found.2) := by
  rw [readBody.eq_def]
  simp only [hquote, hslash, if_false]

theorem readBody_letter {opened i : Nat} {quote letter c : Char} {rest : List Char}
    (hquote : '\\' ≠ quote)
    (hletter : (if letter = '\'' then some letter else unescape? letter) = some c) :
    readBody opened quote i ('\\' :: letter :: rest) =
      (readBody opened quote (i + 2) rest).map fun found => (c :: found.1, found.2) := by
  rw [readBody.eq_def]
  simp only [hquote, hletter, if_false, if_true]

theorem readBody_code (opened i : Nat) (rest : List Char) {code : Nat}
    {quote h₁ h₂ h₃ h₄ : Char} (hquote : '\\' ≠ quote)
    (hcode : readCode? [h₁, h₂, h₃, h₄] = some code)
    (hlow : isLowSurrogate code = false) (hhigh : isHighSurrogate code = false) :
    readBody opened quote i ('\\' :: 'u' :: h₁ :: h₂ :: h₃ :: h₄ :: rest) =
      (readBody opened quote (i + 6) rest).map fun found =>
        (Char.ofNat code :: found.1, found.2) := by
  have hu : (if 'u' = '\'' then some 'u' else unescape? 'u') = none := by decide
  rw [readBody.eq_def]
  simp only [hquote, hu, hcode, hlow, hhigh, if_false, if_true, Bool.false_eq_true]

end Literal

namespace Key

theorem quotable_escape (c : Char) : Quotable '\'' (escape c) := by
  unfold escape
  split
  · exact .escaped _ .nil
  split
  · exact .escaped _ .nil
  split
  · exact .escaped _ .nil
  split
  · exact .escaped _ .nil
  split
  · exact .escaped _ .nil
  split
  · exact .escaped _ (quotable_hexCode (by decide) _)
  · next hquote hslash _ _ _ _ => exact .plain hslash hquote .nil

theorem balanced_quote {bare : Char → Prop} (key : List Char) : Balanced bare (quote key) :=
  .literal (by decide) (quotable_flatMap quotable_escape key)

/-- Reading one escaped character gives the character. -/
theorem readBody_escape (opened i : Nat) (c : Char) (rest : List Char) :
    Literal.readBody opened '\'' i (escape c ++ rest) =
      (Literal.readBody opened '\'' (i + (escape c).length) rest).map fun found =>
        (c :: found.1, found.2) := by
  have hq : '\\' ≠ '\'' := by decide
  unfold escape
  split
  · next h =>
    subst h
    exact Literal.readBody_letter hq rfl
  split
  · next h =>
    subst h
    exact Literal.readBody_letter hq rfl
  split
  · next h =>
    subst h
    exact Literal.readBody_letter hq rfl
  split
  · next h =>
    subst h
    exact Literal.readBody_letter hq rfl
  split
  · next h =>
    subst h
    exact Literal.readBody_letter hq rfl
  split
  · next h =>
    have hsmall := toNat_lt_of_isControl h
    have hcode := readHex?_hexCode (n := c.toNat) (by omega)
    have hplus := (hexDigit_facts (c.toNat / 4096 % 16) (by omega)).2.2.2.2
    have hread : Literal.readCode? (hexCode c.toNat) = some c.toNat := by
      unfold Literal.readCode?
      split
      · next heq => exact absurd (List.cons.inj heq).1 hplus
      · exact hcode
    have hlow : isLowSurrogate c.toNat = false := by
      simp only [isLowSurrogate, Bool.and_eq_false_iff, decide_eq_false_iff_not]
      omega
    have hhigh : isHighSurrogate c.toNat = false := by
      simp only [isHighSurrogate, Bool.and_eq_false_iff, decide_eq_false_iff_not]
      omega
    have h := Literal.readBody_code opened i rest hq hread hlow hhigh
    rw [Char.ofNat_toNat] at h
    exact h
  · next hquote hslash _ _ _ _ => exact Literal.readBody_plain hquote hslash

theorem readBody_flatMap (opened i : Nat) (key rest : List Char) :
    Literal.readBody opened '\'' i (key.flatMap escape ++ '\'' :: rest) =
      .ok (key, ⟨i + (key.flatMap escape).length + 1, rest⟩) := by
  induction key generalizing i with
  | nil => exact Literal.readBody_close
  | cons c key ih =>
    rw [List.flatMap_cons, List.append_assoc, readBody_escape, ih]
    simp [Except.map]
    omega

/-- A quoted key reads back as the key, and what follows is left. -/
theorem read_quote (start : Nat) (key rest : List Char) :
    Literal.read ⟨start, quote key ++ rest⟩ =
      .ok (key, ⟨start + (quote key).length, rest⟩) := by
  have h := readBody_flatMap start (start + 1) key rest
  simp only [quote, Literal.read, List.cons_append, List.append_assoc, List.nil_append]
  rw [h]
  simp
  omega

end Key

end TreePath

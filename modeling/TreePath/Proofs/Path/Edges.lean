import TreePath.Path.Span
import TreePath.Text.Alphanumeric

namespace TreePath

open Text

namespace Text

/-- No blank is a letter or a number. -/
theorem isAlphanumeric_of_isBlank {c : Char} (h : isBlank c = true) : isAlphanumeric c = false := by
  have hall : ∀ n ∈ List.range' 9 5 ++ List.range' 0x2000 11 ++
      [0x20, 0x85, 0xA0, 0x1680, 0x2028, 0x2029, 0x202F, 0x205F, 0x3000],
      isAlphanumeric (Char.ofNat n) = false := by
    decide +kernel
  have hmem : c.toNat ∈ List.range' 9 5 ++ List.range' 0x2000 11 ++
      [0x20, 0x85, 0xA0, 0x1680, 0x2028, 0x2029, 0x202F, 0x205F, 0x3000] := by
    simp only [isBlank, Bool.or_eq_true, Bool.and_eq_true, decide_eq_true_eq, beq_iff_eq] at h
    simp only [List.mem_append, List.mem_range'_1, List.mem_cons, List.not_mem_nil]
    omega
  have := hall _ hmem
  rwa [Char.ofNat_toNat] at this

end Text

/-- Neither the first nor the last character is a blank, and there are such. -/
structure Edged (cs : List Char) : Prop where
  head : ∃ c rest, cs = c :: rest ∧ isBlank c = false
  last : ∃ front c, cs = front ++ [c] ∧ isBlank c = false

namespace Edged

theorem ne_nil {cs : List Char} (h : Edged cs) : cs ≠ [] := by
  obtain ⟨c, rest, rfl, -⟩ := h.head
  simp

theorem ofVisible {cs : List Char} (hne : cs ≠ []) (h : ∀ c ∈ cs, isBlank c = false) :
    Edged cs := by
  refine ⟨?_, ?_⟩
  · obtain ⟨c, rest, rfl⟩ := List.exists_cons_of_ne_nil hne
    exact ⟨c, rest, rfl, h c (by simp)⟩
  · refine ⟨cs.dropLast, cs.getLast hne, (List.dropLast_concat_getLast hne).symm, ?_⟩
    exact h _ (List.getLast_mem hne)

/-- Only the ends of a text matter, not what stands between them. -/
theorem between {a b : List Char} (ha : Edged a) (hb : Edged b) (middle : List Char) :
    Edged (a ++ (middle ++ b)) := by
  obtain ⟨c, rest, hc, hblank⟩ := ha.head
  obtain ⟨front, d, hd, hblank'⟩ := hb.last
  exact ⟨⟨c, rest ++ (middle ++ b), by simp [hc], hblank⟩,
    ⟨a ++ (middle ++ front), d, by simp [hd], hblank'⟩⟩

theorem append {a b : List Char} (ha : Edged a) (hb : Edged b) : Edged (a ++ b) :=
  ha.between hb []

theorem single {c : Char} (h : isBlank c = false) : Edged [c] :=
  ofVisible (by simp) (by simpa using h)

/-- A text between two characters that are no blanks. -/
theorem enclosed {c d : Char} (hc : isBlank c = false) (hd : isBlank d = false)
    (inside : List Char) : Edged (c :: (inside ++ [d])) :=
  (single hc).between (single hd) inside

end Edged

namespace Span

theorem dropEndBlanks_concat (front : List Char) {c : Char} (h : isBlank c = false) :
    dropEndBlanks (front ++ [c]) = front ++ [c] := by
  induction front with
  | nil => simp [dropEndBlanks, h]
  | cons d front ih =>
    rw [List.cons_append, dropEndBlanks, ih]
    split
    · next heq => simp at heq
    · rfl

theorem skipBlanks_chars (s : Span) : s.skipBlanks.chars = s.chars.dropWhile isBlank := rfl

theorem trim_eq (s : Span) : s.trim.chars = dropEndBlanks (s.chars.dropWhile isBlank) := rfl

theorem trim_chars {s : Span} {w : List Char} (h : Edged w)
    (hs : s.chars.dropWhile isBlank = w) : s.trim.chars = w := by
  obtain ⟨front, d, hd, hblank⟩ := h.last
  rw [trim_eq, hs, hd, dropEndBlanks_concat front hblank]

theorem trim_edged {s : Span} (h : Edged s.chars) : s.trim.chars = s.chars := by
  refine trim_chars h ?_
  obtain ⟨c, rest, hc, hblank⟩ := h.head
  rw [hc, List.dropWhile_cons_of_neg (by simp [hblank])]

theorem trim_space {s : Span} {w : List Char} (h : Edged w) (hs : s.chars = ' ' :: w) :
    s.trim.chars = w := by
  refine trim_chars h ?_
  obtain ⟨c, rest, hc, hblank⟩ := h.head
  rw [hs, hc, List.dropWhile_cons_of_pos (by decide),
    List.dropWhile_cons_of_neg (by simp [hblank])]

theorem trim_nil {s : Span} (hs : s.chars = []) : s.trim.chars = [] := by
  rw [trim_eq, hs]
  rfl

end Span

end TreePath

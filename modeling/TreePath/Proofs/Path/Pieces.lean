import TreePath.Proofs.Path.Balance

namespace TreePath

open Nesting

variable {bare : Char → Prop}

namespace Nesting

/-- A scan over the inside of a group ends behind its closing bracket. -/
theorem closing_group {opener : Opener} (hopener : isOpener opener.char = true)
    {inside : List Char} (h : Balanced (fun _ => True) inside) (i : Nat) (rest : List Char) :
    (plain [opener]).closing i (inside ++ counterpart opener.char :: rest) =
      .ok (inside, ⟨i + inside.length + 1, rest⟩) := by
  rw [closing_balanced h]
  have hend : (plain [opener]).step (i + inside.length) (counterpart opener.char) =
      .ok (plain []) :=
    step_counterpart hopener
  rw [closing, hend]
  simp [Except.map, ahead]

theorem split_word {separator : Char} (hsep : isOrdinary separator = true) {w : List Char}
    (h : Balanced bare w) (hbare : ∀ c, bare c → c ≠ separator) (i : Nat) :
    (plain []).split separator i w = .ok (⟨i, w⟩, []) := by
  have hs := split_balanced hsep h [] (fun _ => hbare) i []
  rw [List.append_nil] at hs
  rw [hs]
  simp [split, unclosed, Except.map, leading]

theorem split_separator {separator : Char} (hsep : isOrdinary separator = true) {w : List Char}
    (h : Balanced bare w) (hbare : ∀ c, bare c → c ≠ separator) (i : Nat) (rest : List Char) :
    (plain []).split separator i (w ++ separator :: rest) =
      ((plain []).split separator (i + w.length + 1) rest).map fun parts =>
        (⟨i, w⟩, parts.1 :: parts.2) := by
  rw [split_balanced hsep h [] (fun _ => hbare), split, if_pos ⟨rfl, rfl⟩]
  cases (plain []).split separator (i + w.length + 1) rest <;> simp [Except.map, leading]

/-- Every balanced text can be split. -/
theorem split_isOk {separator : Char} (hsep : isOrdinary separator = true) {w : List Char}
    (h : Balanced bare w) (i : Nat) : ∃ parts, (plain []).split separator i w = .ok parts := by
  induction h generalizing i with
  | nil => exact ⟨_, rfl⟩
  | @bare _ c rest hc _ _ ih =>
    obtain ⟨parts, hparts⟩ := ih (i + 1)
    by_cases he : c = separator
    · exact ⟨_, by rw [split, if_pos ⟨rfl, he⟩, hparts]; rfl⟩
    · exact ⟨_, by rw [split_step (fun h => he h.2) (step_ordinary hc), hparts]; rfl⟩
  | @quoted _ quote body rest hquote hbody _ ih =>
    obtain ⟨parts, hparts⟩ := ih (i + (quote :: (body ++ [quote])).length)
    have hword : Balanced (fun _ => False) (quote :: (body ++ [quote])) := .literal hquote hbody
    have hs := split_balanced hsep hword [] (by simp) i rest
    simp only [List.cons_append, List.append_assoc, List.nil_append] at hs
    exact ⟨_, by rw [hs, hparts]; rfl⟩
  | @group _ opener inside rest hopener hinside _ _ ih =>
    obtain ⟨parts, hparts⟩ := ih (i + (opener :: (inside ++ [counterpart opener])).length)
    have hword : Balanced (fun _ => False) (opener :: (inside ++ [counterpart opener])) :=
      .bracketed hopener rfl hinside
    have hs := split_balanced hsep hword [] (by simp) i rest
    simp only [List.cons_append, List.append_assoc, List.nil_append] at hs
    exact ⟨_, by rw [hs, hparts]; rfl⟩

end Nesting

namespace Span

/-- The group at the head of a span, from its text. -/
theorem group_eq {s : Span} {opener : Char} {inside rest : List Char}
    (hopener : isOpener opener = true) (h : Balanced (fun _ => True) inside)
    (hs : s.chars = opener :: (inside ++ counterpart opener :: rest)) :
    ∃ g : Group s, s.group = .ok g ∧ g.inside.chars = inside ∧ g.rest.chars = rest := by
  have hfirst : isOpener (Opener.mk opener s.start).char = true := hopener
  have hclosing := closing_group hfirst h
    (s.start + 1) rest
  unfold group
  split
  · next heq => simp [hs] at heq
  · next c cs heq =>
    rw [hs] at heq
    obtain ⟨rfl, rfl⟩ := List.cons.inj heq
    split
    · next hbad => rw [hclosing] at hbad; simp at hbad
    · next hok =>
      rw [hclosing] at hok
      simp only [Except.ok.injEq, Prod.mk.injEq] at hok
      exact ⟨_, rfl, hok.1.symm, (congrArg Span.chars hok.2).symm⟩

/-- A span that is one group is enclosed by its brackets. -/
theorem enclosed_eq {s : Span} {opener closer : Char} {inside : List Char}
    (hopener : isOpener opener = true) (hcloser : counterpart opener = closer)
    (h : Balanced (fun _ => True) inside) (hs : s.chars = opener :: (inside ++ [closer])) :
    ∃ t : { t : Span // t.length + 2 = s.length },
      s.enclosed = .ok (some t) ∧ t.1.chars = inside := by
  subst hcloser
  obtain ⟨g, hg, hinside, hrest⟩ := group_eq hopener h hs
  unfold enclosed
  rw [hg]
  have hzero : g.rest.length = 0 := by simp [length, hrest]
  exact ⟨⟨g.inside, by have := g.shorter; omega⟩, by simp [hzero], hinside⟩

theorem split_eq {s : Span} {separator : Char} {head : Span} {tail : List Span}
    (h : (plain []).split separator s.start s.chars = .ok (head, tail)) :
    ∃ p : Parts s, s.split separator = .ok p ∧ p.head = head ∧ p.tail = tail := by
  unfold split
  split
  · next hbad => rw [h] at hbad; simp at hbad
  · next hok =>
    rw [h] at hok
    simp only [Except.ok.injEq, Prod.mk.injEq] at hok
    exact ⟨_, rfl, hok.1.symm, hok.2.symm⟩

/-- A cut at the first bare separator leaves the texts on both of its sides. -/
theorem cut_eq {s : Span} {separator : Char} (hsep : isOrdinary separator = true)
    {a b : List Char} (ha : Balanced bare a) (hbare : ∀ c, bare c → c ≠ separator)
    (hb : Balanced (fun _ => True) b) (hs : s.chars = a ++ separator :: b) :
    ∃ c : Cut s, s.cut separator = .ok (some c) ∧ c.before.chars = a ∧ c.after.chars = b := by
  obtain ⟨parts, hparts⟩ := split_isOk hsep hb (s.start + a.length + 1)
  have hsplit := split_separator hsep ha hbare s.start b
  rw [hparts, ← hs] at hsplit
  obtain ⟨⟨head, tail, hext⟩, hp, hhead, htail⟩ := split_eq hsplit
  change head = _ at hhead
  change tail = _ at htail
  subst hhead htail
  unfold cut
  rw [hp]
  exact ⟨_, rfl, rfl, by simp [drop, length, hs]⟩

theorem cut_eq_none {s : Span} {separator : Char} (hsep : isOrdinary separator = true)
    (h : Balanced bare s.chars) (hbare : ∀ c, bare c → c ≠ separator) :
    s.cut separator = .ok none := by
  obtain ⟨⟨head, tail, hext⟩, hp, hhead, htail⟩ := split_eq (split_word hsep h hbare s.start)
  change tail = _ at htail
  subst htail
  unfold cut
  rw [hp]

end Span

end TreePath

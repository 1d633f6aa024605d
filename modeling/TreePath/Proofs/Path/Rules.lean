import TreePath.Path.Parser
import TreePath.Proofs.Path.Hops
import TreePath.Proofs.Path.Pieces

namespace TreePath.Parser

open Text

/-- On every span with this text the parser gives this answer. -/
def Gives {α : Type} (parse : Span → Except Fault α) (text : List Char) (a : α) : Prop :=
  ∀ s : Span, s.chars = text → parse s = .ok a

/-- The text starts with a character that no hop leaves out. -/
def StartsHop (text : List Char) : Prop :=
  ∃ c rest, text = c :: rest ∧ isBlank c = false ∧ c ≠ '/'

theorem dropWhile_eq {s : Span} {c : Char} {rest : List Char} {p : Char → Bool}
    (hs : s.chars = c :: rest) (hp : p c = false) : s.dropWhile p = s := by
  obtain ⟨start, chars⟩ := s
  change chars = c :: rest at hs
  subst hs
  simp [Span.dropWhile, hp]

theorem skipBlanks_eq {s : Span} {c : Char} {rest : List Char} (hs : s.chars = c :: rest)
    (hc : isBlank c = false) : s.skipBlanks = s :=
  dropWhile_eq hs hc

theorem skipSeparators_eq {s : Span} (h : StartsHop s.chars) : s.skipSeparators = s := by
  obtain ⟨c, rest, hs, hblank, hslash⟩ := h
  exact dropWhile_eq hs (by simp [hblank, hslash])

theorem startsHop_skipSeparators {s : Span} {c : Char} {rest : List Char}
    (hs : s.skipSeparators.chars = c :: rest) : isBlank c = false ∧ c ≠ '/' := by
  have hhead := List.head?_dropWhile_not (fun c => isBlank c || decide (c = '/')) s.chars
  change s.chars.dropWhile _ = c :: rest at hs
  simpa [hs] using hhead

section Paths

theorem gives_path_nil : Gives path [] [] := by
  intro s hs
  have hskip : s.skipBlanks.chars = [] := by rw [Span.skipBlanks_chars, hs]; rfl
  have hsep : s.skipBlanks.skipSeparators.chars = [] := by
    change s.skipBlanks.chars.dropWhile _ = []
    rw [hskip]
    rfl
  rw [path, hskip]
  simp only
  rw [hops, hsep]

theorem gives_path_root {text : List Char} {p : Path} (h : Gives hops text p) :
    Gives path ('/' :: text) (.tag .root :: p) := by
  intro s hs
  have hskip := skipBlanks_eq hs (by decide)
  rw [path, hskip, hs]
  simp only
  rw [h (s.drop 1) (by simp [Span.drop, hs])]
  rfl

theorem gives_path {text : List Char} {p : Path} (hstart : StartsHop text)
    (h : Gives hops text p) : Gives path text p := by
  intro s hs
  obtain ⟨c, rest, hc, hblank, hslash⟩ := hstart
  rw [hc] at hs
  rw [path, skipBlanks_eq hs hblank, hs]
  split
  · next heq => exact absurd (List.cons.inj heq).1 hslash
  · exact h s (hs.trans hc.symm)

theorem gives_hops_nil : Gives hops [] [] := by
  intro s hs
  have hskip : s.skipSeparators.chars = [] := by
    change s.chars.dropWhile _ = []
    rw [hs]
    rfl
  rw [hops, hskip]

theorem gives_hops_brackets {text : List Char} {p : Path} (h : Gives brackets ('[' :: text) p) :
    Gives hops ('[' :: text) p := by
  intro s hs
  have hskip := skipSeparators_eq (s := s) ⟨'[', text, hs, by decide, by decide⟩
  rw [hops, hskip, hs]
  exact h s hs

theorem gives_hops_hop {text rest : List Char} {segment : Segment} {p : Path}
    (hstart : StartsHop text) (hbracket : ∀ more, text ≠ '[' :: more)
    (hread : ∀ s : Span, s.chars = text → s.Reads segment rest) (h : Gives following rest p) :
    Gives hops text (segment :: p) := by
  intro s hs
  have hskip := skipSeparators_eq (s := s) (hs ▸ hstart)
  obtain ⟨hop, hhop, hsegment, hrest⟩ := hread s hs
  have hmatch : hops s = (do
      let hop ← s.hop
      return hop.segment :: (← following hop.rest)) := by
    rw [hops, hskip]
    split
    · next heq =>
      obtain ⟨c, more, hc, -⟩ := hstart
      simp [hs, hc] at heq
    · next heq => exact absurd (hs.symm.trans heq) (hbracket _)
    · rfl
  rw [hmatch, hhop]
  change (do return hop.segment :: (← following hop.rest)) = Except.ok (segment :: p)
  rw [h hop.rest hrest, hsegment]
  rfl

theorem gives_brackets {inside rest : List Char} {p q : Path} (hedged : Edged inside)
    (hinside : Balanced (fun _ => True) inside) (hselector : Gives selector inside p)
    (h : Gives following rest q) : Gives brackets ('[' :: (inside ++ ']' :: rest)) (p ++ q) := by
  intro s hs
  obtain ⟨g, hg, hgi, hgr⟩ := Span.group_eq (show Nesting.isOpener '[' = true from rfl) hinside hs
  have htrim : g.inside.trim.chars = inside := by
    rw [Span.trim_edged (hgi ▸ hedged), hgi]
  rw [brackets, hg]
  change (do
    let segments ← selector g.inside.trim
    return segments ++ (← following g.rest)) = Except.ok (p ++ q)
  rw [hselector _ htrim]
  change (do return p ++ (← following g.rest)) = Except.ok (p ++ q)
  rw [h _ hgr]
  rfl

theorem gives_following_nil : Gives following [] [] := by
  intro s hs
  have hskip : s.skipBlanks.chars = [] := by rw [Span.skipBlanks_chars, hs]; rfl
  rw [following]
  split
  · next heq => simp [hs] at heq
  · split
    · rfl
    · next heq => simp [hskip] at heq

theorem gives_following_brackets {text : List Char} {p : Path}
    (h : Gives brackets ('[' :: text) p) : Gives following ('[' :: text) p := by
  intro s hs
  rw [following, hs]
  exact h s hs

theorem gives_following_slash {text : List Char} {p : Path} (h : Gives hops text p) :
    Gives following ('/' :: text) p := by
  intro s hs
  have hskip := skipBlanks_eq hs (by decide)
  rw [following]
  split
  · next heq => simp [hs] at heq
  · split
    · next heq => simp [hskip, hs] at heq
    · next c rest heq =>
      rw [hskip, hs] at heq
      obtain ⟨rfl, rfl⟩ := List.cons.inj heq
      exact h _ rfl

end Paths

end TreePath.Parser

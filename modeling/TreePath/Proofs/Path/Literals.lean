import TreePath.Proofs.Path.Matching
import TreePath.Proofs.Path.Quoting

namespace TreePath

open Text (hexValue? readHex?)
open Nesting (isQuote)

namespace Text

theorem hexValue?_ne {c : Char} {n : Nat} (h : hexValue? c = some n) :
    c ≠ '\\' ∧ isQuote c = false := by
  refine ⟨?_, ?_⟩
  · rintro rfl
    cases (show none = some n from h)
  · cases hquote : isQuote c with
    | false => rfl
    | true =>
      simp only [isQuote, Bool.or_eq_true, decide_eq_true_eq] at hquote
      rcases hquote with rfl | rfl <;> cases (show none = some n from h)

theorem quotable_readHex {quote : Char} (hquote : isQuote quote = true) {digits : List Char}
    {n : Nat} (h : readHex? digits = some n) : Quotable quote digits := by
  have hfold : ∀ (digits : List Char) (m : Nat),
      digits.foldlM (fun n c => (hexValue? c).map (16 * n + ·)) m = some n →
      Quotable quote digits := by
    intro digits
    induction digits with
    | nil => exact fun _ _ => .nil
    | cons c digits ih =>
      intro m hm
      rw [List.foldlM_cons] at hm
      obtain ⟨k, hk, hm⟩ := Option.bind_eq_some_iff.mp hm
      obtain ⟨d, hd, -⟩ := Option.map_eq_some_iff.mp hk
      obtain ⟨hslash, hc⟩ := hexValue?_ne hd
      refine .plain hslash ?_ (ih k hm)
      rintro rfl
      simp [hquote] at hc
  exact hfold digits 0 h

end Text

namespace Literal

theorem quotable_readCode {quote : Char} (hquote : isQuote quote = true) {digits : List Char}
    {n : Nat} (h : readCode? digits = some n) : Quotable quote digits := by
  unfold readCode? at h
  split at h
  · refine .plain (by decide) ?_ (Text.quotable_readHex hquote h)
    rintro rfl
    exact absurd hquote (by decide)
  · exact Text.quotable_readHex hquote h

/-- A literal that is read could be written, and its end is the quote that closes it. -/
theorem quotable_of_readBody {opened i : Nat} {quote : Char} {cs text : List Char} {after : Span}
    (hquote : isQuote quote = true) (h : readBody opened quote i cs = .ok (text, after)) :
    ∃ body, Quotable quote body ∧ cs = body ++ quote :: after.chars ∧
      after.start = i + body.length + 1 := by
  -- An escape in front of the rest is passed over as a whole.
  have hfront : ∀ (front : List Char) {rest : List Char} {i j : Nat}, j = i + front.length →
      Quotable quote front →
      (∃ body, Quotable quote body ∧ rest = body ++ quote :: after.chars ∧
        after.start = j + body.length + 1) →
      ∃ body, Quotable quote body ∧ front ++ rest = body ++ quote :: after.chars ∧
        after.start = i + body.length + 1 := by
    rintro front rest i j rfl hfront ⟨body, hbody, rfl, hstart⟩
    refine ⟨front ++ body, hfront.append hbody, (List.append_assoc _ _ _).symm, ?_⟩
    rw [hstart, List.length_append]
    omega
  fun_induction readBody opened quote i cs generalizing text with
  | case2 i rest =>
    obtain ⟨-, rfl⟩ := Prod.mk.inj (Except.ok.inj h)
    exact ⟨[], .nil, rfl, rfl⟩
  | case4 i letter rest c _ _ ih =>
    obtain ⟨found, hfound, heq⟩ := Fault.map_eq_ok h
    obtain ⟨-, rfl⟩ := Prod.mk.inj heq
    exact hfront ['\\', letter] rfl (.escaped letter .nil) (ih hfound)
  | case8 i h₁ h₂ h₃ h₄ code hcode _ _ l₁ l₂ l₃ l₄ rest low hlow _ _ _ ih =>
    obtain ⟨found, hfound, heq⟩ := Fault.map_eq_ok h
    obtain ⟨-, rfl⟩ := Prod.mk.inj heq
    have hpair := (quotable_readCode hquote hcode).append
      (.escaped 'u' (quotable_readCode hquote hlow))
    exact hfront ['\\', 'u', h₁, h₂, h₃, h₄, '\\', 'u', l₁, l₂, l₃, l₄] rfl
      (.escaped 'u' hpair) (ih hfound)
  | case12 i h₁ h₂ h₃ h₄ rest code hcode _ _ _ _ ih =>
    obtain ⟨found, hfound, heq⟩ := Fault.map_eq_ok h
    obtain ⟨-, rfl⟩ := Prod.mk.inj heq
    exact hfront ['\\', 'u', h₁, h₂, h₃, h₄] rfl
      (.escaped 'u' (quotable_readCode hquote hcode)) (ih hfound)
  | case15 i c rest hne hslash ih =>
    obtain ⟨found, hfound, heq⟩ := Fault.map_eq_ok h
    obtain ⟨-, rfl⟩ := Prod.mk.inj heq
    exact hfront [c] rfl (.plain hslash hne .nil) (ih hfound)
  | _ => cases h

/-- What skips a literal stops behind the same quote as what reads it. -/
theorem closing_of_read {s : Span} {quote : Char} {rest text : List Char} {after : Span}
    (hquote : isQuote quote = true) (hs : s.chars = quote :: rest)
    (h : read s = .ok (text, after)) :
    ∃ body, (Nesting.quoted [] quote s.start false).closing (s.start + 1) rest =
      .ok (body, after) := by
  rw [read, hs] at h
  obtain ⟨body, hbody, rfl, hstart⟩ := quotable_of_readBody hquote h
  refine ⟨body, ?_⟩
  rw [Nesting.closing_quote hquote hbody, ← hstart]

end Literal

end TreePath

import TreePath.Proofs.Path.Edges
import TreePath.Proofs.Path.Ranges

namespace TreePath

open Text (isBlank unescape? readHex? hexValue? isHighSurrogate isLowSurrogate ofSurrogates)
open Nesting (isQuote isOpener isCloser counterpart)

namespace Scan

/-- The scan ends with the answer of a function on spans, and a fault is at a place in the text. -/
structure Agrees (cs : List Char) {α : Type} (x : Scan α) (y : Except Fault α) : Prop where
  eq : x = ofExcept y
  within : ∀ fault, y = .error fault → fault.position ≤ cs.length

namespace Agrees

variable {cs : List Char} {α β γ : Type}

theorem ofPure (a : α) : Agrees cs (pure a) (.ok a) := ⟨rfl, fun _ h => by cases h⟩

theorem ofFail {reason : Reason} {position : Nat} (h : position ≤ cs.length) :
    Agrees cs (fail reason position : Scan α) (.error ⟨reason, position⟩) :=
  ⟨rfl, fun _ hfault => by cases hfault; exact h⟩

theorem ofExcept {y : Except Fault α}
    (h : ∀ fault, y = .error fault → fault.position ≤ cs.length) :
    Agrees cs (Scan.ofExcept y) y :=
  ⟨rfl, h⟩

/-- What is made of the answers agrees when the answers do. The positions that a scan returns stand
for the spans between them. -/
theorem bind {x : Scan α} {y : Except Fault β} {f : β → α} (hx : Agrees cs x (y.map f))
    {k : α → Scan γ} {g : β → Except Fault γ} (hk : ∀ b, y = .ok b → Agrees cs (k (f b)) (g b)) :
    Agrees cs (x >>= k) (y >>= g) := by
  obtain ⟨rfl, hwithin⟩ := hx
  cases y with
  | ok b => exact hk b rfl
  | error fault => exact ⟨rfl, fun _ hfault => by cases hfault; exact hwithin _ rfl⟩

/-- The same for answers that a scan returns as they are. -/
theorem next {x : Scan α} {y : Except Fault α} (hx : Agrees cs x y) {k : α → Scan γ}
    {g : α → Except Fault γ} (hk : ∀ a, y = .ok a → Agrees cs (k a) (g a)) :
    Agrees cs (x >>= k) (y >>= g) := by
  refine bind (f := id) ?_ hk
  cases y <;> exact hx

end Agrees

section Basics

variable {cs text rest : List Char} {start stop i : Nat} {c : Char}

theorem charAt_eq (h : Between cs i stop (c :: rest)) : charAt cs i = pure c := by
  rw [charAt, h.getElem?_eq]

theorem checkRange_eq (h : Between cs start stop text) : checkRange cs start stop = pure () :=
  if_pos ⟨h.start_le, h.stop_le⟩

theorem textOf_eq (h : Between cs start stop text) : textOf cs start stop = pure text := by
  rw [textOf, checkRange_eq h, h.range_eq]
  rfl

theorem skipBlanks_eq (h : Between cs i stop text) :
    skipBlanks cs i stop = pure (i + (text.takeWhile isBlank).length) := by
  induction text generalizing i with
  | nil =>
    rw [skipBlanks, if_neg h.not_lt]
    rfl
  | cons c rest ih =>
    rw [skipBlanks, if_pos h.lt, charAt_eq h, pure_bind]
    cases hc : isBlank c with
    | true =>
      rw [if_pos rfl, ih h.tail, List.takeWhile_cons_of_pos hc, List.length_cons]
      congr 1
      omega
    | false =>
      rw [if_neg (by simp), List.takeWhile_cons_of_neg (by simp [hc])]
      rfl

/-- Blanks and slashes, skipped in turn. -/
theorem skipSeparators_eq (h : Between cs i stop text) :
    (skipBlanks cs i stop >>= fun i => skipSlashes cs i stop) =
      pure (i + (text.takeWhile fun c => isBlank c || c = '/').length) := by
  induction text generalizing i with
  | nil =>
    rw [skipBlanks, if_neg h.not_lt, pure_bind, skipSlashes, if_neg h.not_lt]
    rfl
  | cons c rest ih =>
    rw [skipBlanks, if_pos h.lt, charAt_eq h, pure_bind]
    cases hc : isBlank c with
    | true =>
      rw [if_pos rfl, ih h.tail, List.takeWhile_cons_of_pos (by simp [hc]), List.length_cons]
      congr 1
      omega
    | false =>
      rw [if_neg (by simp), pure_bind, skipSlashes, if_pos h.lt, charAt_eq h, pure_bind]
      by_cases hslash : c = '/'
      · have hnext : (do
            let next ← skipBlanks cs (i + 1) stop
            skipSlashes cs (onward i next) stop) =
            skipBlanks cs (i + 1) stop >>= fun i => skipSlashes cs i stop := by
          rw [skipBlanks_eq h.tail, pure_bind, pure_bind, onward_eq (by omega)]
        rw [if_pos hslash, hnext, ih h.tail, List.takeWhile_cons_of_pos (by simp [hslash]),
          List.length_cons]
        congr 1
        omega
      · rw [if_neg hslash, List.takeWhile_cons_of_neg (by simp [hc, hslash])]
        rfl

theorem dropBlanks_eq (h : Between cs start stop text) :
    dropBlanks cs start stop = pure (start + (Span.dropEndBlanks text).length) := by
  induction text using List.reverseRecOn generalizing stop with
  | nil =>
    rw [dropBlanks, if_neg h.not_lt]
    have := h.stop_eq
    rw [List.length_nil] at this
    rw [← this]
    rfl
  | append_singleton front c ih =>
    have hlast : Between cs (start + front.length) stop [c] := h.right
    have hstop := hlast.stop_eq
    rw [List.length_singleton] at hstop
    have hprevious : stop - 1 = start + front.length := by omega
    rw [dropBlanks, if_pos (by omega), hprevious, charAt_eq hlast, pure_bind]
    cases hc : isBlank c with
    | true =>
      rw [if_pos rfl, ih h.left, Span.dropEndBlanks_blank front hc]
    | false =>
      rw [if_neg (by simp), Span.dropEndBlanks_concat front hc, List.length_append,
        List.length_singleton, ← Nat.add_assoc, hstop]

end Basics

section Quotes

variable {cs text rest : List Char} {start stop i : Nat} {c quote : Char}

/-- The last character in front of what a scan of the brackets has left. -/
def lastOf (found : List Char × Span) : Nat := found.2.start - 1

theorem lastOf_ahead (text : List Char) (x : Except Fault (List Char × Span)) :
    (x.map (Nesting.ahead text)).map lastOf = x.map lastOf := by
  cases x <;> rfl

theorem findQuote_eq {i : Nat} {text : List Char} (h : Between cs i stop text) (opened : Nat) :
    findQuote cs quote i stop =
      pure (((Nesting.quoted [] quote opened false).closing i text).map lastOf).toOption := by
  match text with
  | [] =>
    rw [findQuote, if_neg h.not_lt]
    rfl
  | c :: rest =>
    rw [findQuote, if_pos h.lt, charAt_eq h, pure_bind]
    by_cases hslash : c = '\\'
    · rw [if_pos hslash]
      have hstep : (Nesting.quoted [] quote opened false).step i c =
          .ok (.quoted [] quote opened true) := by
        simp [Nesting.step, hslash]
      rw [Nesting.closing_step hstep (by simp), lastOf_ahead]
      cases rest with
      | nil =>
        have := h.stop_eq
        simp only [List.length_cons, List.length_nil] at this
        rw [findQuote, if_neg (by omega)]
        rfl
      | cons d rest =>
        have hstep' : (Nesting.quoted [] quote opened true).step (i + 1) d =
            .ok (.quoted [] quote opened false) := rfl
        rw [Nesting.closing_step hstep' (by simp), lastOf_ahead]
        exact findQuote_eq h.tail.tail opened
    · rw [if_neg hslash]
      by_cases hquote : c = quote
      · have hstep : (Nesting.quoted [] quote opened false).step i c = .ok (.plain []) := by
          simp [Nesting.step, hquote, hquote ▸ hslash]
        rw [if_pos hquote, Nesting.closing_end hstep]
        rfl
      · have hstep : (Nesting.quoted [] quote opened false).step i c =
            .ok (.quoted [] quote opened false) := by
          simp [Nesting.step, hslash, hquote]
        rw [if_neg hquote, Nesting.closing_step hstep (by simp), lastOf_ahead]
        exact findQuote_eq h.tail opened
termination_by text.length

/-- Where a literal is closed, by the rules of the scans for brackets. -/
theorem closingQuote_eq (h : Between cs start stop (quote :: rest)) :
    closingQuote cs start stop =
      pure (((Nesting.quoted [] quote start false).closing (start + 1) rest).map
        lastOf).toOption := by
  rw [closingQuote, checkRange_eq h, pure_bind, charAt_eq h, pure_bind, findQuote_eq h.tail]

theorem hexValue?_lt {c : Char} {n : Nat} (h : hexValue? c = some n) : n < 16 := by
  simp only [hexValue?] at h
  split at h
  · obtain rfl := Option.some.inj h
    omega
  split at h
  · obtain rfl := Option.some.inj h
    omega
  split at h
  · obtain rfl := Option.some.inj h
    omega
  · cases h

theorem readHex?_lt {digits : List Char} {n : Nat} (h : readHex? digits = some n) :
    n < 16 ^ digits.length := by
  have hfold : ∀ (digits : List Char) (m : Nat),
      digits.foldlM (fun n c => (hexValue? c).map (16 * n + ·)) m = some n →
      n < (m + 1) * 16 ^ digits.length := by
    intro digits
    induction digits with
    | nil =>
      intro m hm
      obtain rfl := Option.some.inj hm
      simp
    | cons c digits ih =>
      intro m hm
      rw [List.foldlM_cons] at hm
      obtain ⟨k, hk, hm⟩ := Option.bind_eq_some_iff.mp hm
      obtain ⟨d, hd, rfl⟩ := Option.map_eq_some_iff.mp hk
      have hdigit := hexValue?_lt hd
      calc n < (16 * m + d + 1) * 16 ^ digits.length := ih _ hm
        _ ≤ ((m + 1) * 16) * 16 ^ digits.length := Nat.mul_le_mul_right _ (by omega)
        _ = (m + 1) * 16 ^ (c :: digits).length := by
          rw [List.length_cons, Nat.pow_succ, Nat.mul_assoc, Nat.mul_comm 16]
  have := hfold digits 0 h
  simpa using this

/-- Four characters denote a number of at most sixteen bits. -/
theorem readCode?_lt {h₁ h₂ h₃ h₄ : Char} {n : Nat}
    (h : Literal.readCode? [h₁, h₂, h₃, h₄] = some n) : n < 0x10000 := by
  unfold Literal.readCode? at h
  split at h
  · next digits heq =>
    obtain ⟨-, rfl⟩ := List.cons.inj heq
    have := readHex?_lt h
    simp only [List.length_cons, List.length_nil] at this
    omega
  · have := readHex?_lt h
    simp only [List.length_cons, List.length_nil] at this
    omega

theorem toChar_eq {n : Nat} (h : n.isValidChar) : toChar n = pure (Char.ofNat n) := if_pos h

theorem codeAt_eq {h₁ h₂ h₃ h₄ : Char} (h : Between cs i stop (h₁ :: h₂ :: h₃ :: h₄ :: rest)) :
    codeAt cs i stop =
      match Literal.readCode? [h₁, h₂, h₃, h₄] with
      | some n => pure n
      | none => fail .invalidUnicode i := by
  have hstop := h.stop_eq
  have hfour : Between cs i (i + 4) [h₁, h₂, h₃, h₄] :=
    Between.left (a := [h₁, h₂, h₃, h₄]) (b := rest) h
  simp only [List.length_cons] at hstop
  rw [codeAt, if_neg (by omega), textOf_eq hfour]
  exact pure_bind _ _

theorem codeAt_short (h : Between cs i stop text) (hshort : text.length < 4) :
    codeAt cs i stop = fail .incompleteUnicode i := by
  have hstop := h.stop_eq
  rw [codeAt, if_pos (by omega)]

theorem length_lt_four (h : ∀ (c₁ c₂ c₃ c₄ : Char) (rest : List Char),
    text = c₁ :: c₂ :: c₃ :: c₄ :: rest → False) : text.length < 4 := by
  match text with
  | [] | [_] | [_, _] | [_, _, _] => simp
  | c₁ :: c₂ :: c₃ :: c₄ :: rest => exact (h c₁ c₂ c₃ c₄ rest rfl).elim

/-- An escape of one letter. -/
theorem quotedRest_letter {letter : Char} (h : Between cs i stop ('\\' :: letter :: rest))
    (hquote : '\\' ≠ quote) (opened : Nat) (text : List Char)
    (hletter : (if letter = '\'' then some letter else unescape? letter) = some c) :
    quotedRest cs opened quote text i stop =
      quotedRest cs opened quote (text ++ [c]) (i + 2) stop := by
  rw [quotedRest, if_pos h.lt, charAt_eq h, pure_bind, if_neg hquote,
    if_pos ⟨rfl, h.tail.lt⟩, charAt_eq h.tail, pure_bind, hletter]

/-- An escape with the code of its character. -/
theorem quotedRest_unicode (h : Between cs i stop ('\\' :: 'u' :: rest)) (hquote : '\\' ≠ quote)
    (opened : Nat) (text : List Char) :
    quotedRest cs opened quote text i stop =
      unicodeEscape cs (i + 1) stop >>= fun found =>
        quotedRest cs opened quote (text ++ [found.1]) (onward i (found.2 + 1)) stop := by
  rw [quotedRest, if_pos h.lt, charAt_eq h, pure_bind, if_neg hquote,
    if_pos ⟨rfl, h.tail.lt⟩, charAt_eq h.tail, pure_bind]
  rfl

theorem quotedRest_invalid {letter : Char} (h : Between cs i stop ('\\' :: letter :: rest))
    (hquote : '\\' ≠ quote) (opened : Nat) (text : List Char)
    (hletter : (if letter = '\'' then some letter else unescape? letter) = none)
    (hu : letter ≠ 'u') :
    quotedRest cs opened quote text i stop = fail .invalidEscape (i + 1) := by
  rw [quotedRest, if_pos h.lt, charAt_eq h, pure_bind, if_neg hquote,
    if_pos ⟨rfl, h.tail.lt⟩, charAt_eq h.tail, pure_bind, hletter]
  exact if_neg hu

/-- An escape of four digits, which is not one half of a pair. -/
theorem unicodeEscape_single {h₁ h₂ h₃ h₄ : Char} {code : Nat}
    (h : Between cs (i + 1) stop (h₁ :: h₂ :: h₃ :: h₄ :: rest))
    (hcode : Literal.readCode? [h₁, h₂, h₃, h₄] = some code)
    (hlow : ¬isLowSurrogate code = true) (hhigh : ¬isHighSurrogate code = true) :
    unicodeEscape cs i stop = pure (Char.ofNat code, i + 4) := by
  have hvalid : code.isValidChar := by
    have := readCode?_lt hcode
    simp only [isLowSurrogate, isHighSurrogate, Bool.and_eq_true, decide_eq_true_eq] at hlow hhigh
    simp only [Nat.isValidChar]
    omega
  rw [unicodeEscape, codeAt_eq h, hcode]
  simp only [pure_bind, if_neg hlow, if_neg hhigh, toChar_eq hvalid]

/-- The first half of a pair, and an escape behind it. -/
theorem unicodeEscape_pair {h₁ h₂ h₃ h₄ : Char} {code : Nat}
    (h : Between cs (i + 1) stop (h₁ :: h₂ :: h₃ :: h₄ :: '\\' :: 'u' :: rest))
    (hcode : Literal.readCode? [h₁, h₂, h₃, h₄] = some code)
    (hlow : ¬isLowSurrogate code = true) (hhigh : isHighSurrogate code = true) :
    unicodeEscape cs i stop = (do
      let low ← codeAt cs (i + 7) stop
      if isLowSurrogate low then
        let c ← toChar (0x10000 + (code - 0xD800) * 0x400 + (low - 0xDC00))
        return (c, i + 10)
      else fail .invalidLowSurrogate i) := by
  have hrest : Between cs (i + 5) stop ('\\' :: 'u' :: rest) :=
    Between.right (a := [h₁, h₂, h₃, h₄]) h
  have := hrest.tail.lt
  rw [unicodeEscape, codeAt_eq h, hcode]
  simp only [pure_bind, if_neg hlow, if_pos hhigh]
  rw [if_pos (by omega), charAt_eq hrest, pure_bind, if_pos rfl, charAt_eq hrest.tail, pure_bind,
    if_pos rfl]

/-- The first half of a pair, behind which no escape follows. -/
theorem unicodeEscape_lone {h₁ h₂ h₃ h₄ : Char} {code : Nat}
    (h : Between cs (i + 1) stop (h₁ :: h₂ :: h₃ :: h₄ :: rest))
    (hcode : Literal.readCode? [h₁, h₂, h₃, h₄] = some code)
    (hlow : ¬isLowSurrogate code = true) (hhigh : isHighSurrogate code = true)
    (hnone : ∀ more, rest = '\\' :: 'u' :: more → False) :
    unicodeEscape cs i stop = fail .missingLowSurrogate i := by
  have hrest : Between cs (i + 5) stop rest :=
    Between.right (a := [h₁, h₂, h₃, h₄]) h
  rw [unicodeEscape, codeAt_eq h, hcode]
  simp only [pure_bind, if_neg hlow, if_pos hhigh]
  match rest with
  | [] =>
    have := hrest.not_lt
    rw [if_neg (by omega)]
  | [c] =>
    have := hrest.tail.not_lt
    rw [if_neg (by omega)]
  | c :: d :: more =>
    have := hrest.tail.lt
    rw [if_pos (by omega), charAt_eq hrest, pure_bind]
    by_cases hc : c = '\\'
    · rw [if_pos hc, charAt_eq hrest.tail, pure_bind, if_neg]
      intro hd
      exact hnone more (by rw [hc, hd])
    · rw [if_neg hc]

/-- A pair of halves denotes a character. -/
theorem toChar_pair {code low : Nat} (hhigh : isHighSurrogate code = true)
    (hlow : isLowSurrogate low = true) :
    toChar (0x10000 + (code - 0xD800) * 0x400 + (low - 0xDC00)) =
      pure (ofSurrogates code low) := by
  refine toChar_eq ?_
  simp only [isLowSurrogate, isHighSurrogate, Bool.and_eq_true, decide_eq_true_eq] at hlow hhigh
  simp only [Nat.isValidChar]
  omega

/-- A character in front of what is read next. -/
theorem Agrees.accumulate {x : Scan (List Char × Nat)} {y : Except Fault (List Char × Span)}
    {text : List Char} (h : Agrees cs x (y.map fun r => (text ++ [c] ++ r.1, r.2.start))) :
    Agrees cs x ((y.map fun (cs, after) => (c :: cs, after)).map fun r =>
      (text ++ r.1, r.2.start)) := by
  cases y with
  | error fault => exact h
  | ok found => simpa [Except.map] using h

theorem quotedRest_agrees {opened : Nat} {body : List Char} (h : Between cs i stop body)
    (hopened : opened ≤ cs.length) (text : List Char) :
    Agrees cs (quotedRest cs opened quote text i stop)
      ((Literal.readBody opened quote i body).map fun r => (text ++ r.1, r.2.start)) := by
  have hstop := h.stop_le
  fun_induction Literal.readBody opened quote i body generalizing text with
  | case1 i =>
    rw [quotedRest, if_neg h.not_lt]
    exact .ofFail hopened
  | case2 i rest =>
    rw [quotedRest, if_pos h.lt, charAt_eq h, pure_bind, if_pos rfl]
    simpa [Except.map] using Agrees.ofPure (text, i + 1)
  | case3 i hquote =>
    have hend := h.tail.not_lt
    rw [quotedRest, if_pos h.lt, charAt_eq h, pure_bind, if_neg hquote, if_neg (fun h => hend h.2),
      quotedRest, if_neg hend]
    exact .ofFail hopened
  | case4 i letter rest c hletter hquote ih =>
    rw [quotedRest_letter h hquote opened text hletter]
    exact (ih h.tail.tail _).accumulate
  | case5 i h₁ h₂ h₃ h₄ rest hcode hquote hu =>
    have := h.stop_eq
    rw [quotedRest_unicode h hquote, unicodeEscape, codeAt_eq h.tail.tail, hcode]
    exact .ofFail (by simp only [List.length_cons] at this; omega)
  | case6 i h₁ h₂ h₃ h₄ rest code hcode hlow hquote hu =>
    have := h.stop_eq
    rw [quotedRest_unicode h hquote, unicodeEscape, codeAt_eq h.tail.tail, hcode]
    simp only [pure_bind, if_pos hlow]
    exact .ofFail (by simp only [List.length_cons] at this; omega)
  | case7 i h₁ h₂ h₃ h₄ code hcode hlow hhigh l₁ l₂ l₃ l₄ rest hcode' hquote hu =>
    have := h.stop_eq
    have hbehind : Between cs (i + 8) stop (l₁ :: l₂ :: l₃ :: l₄ :: rest) :=
      Between.right (a := ['\\', 'u', h₁, h₂, h₃, h₄, '\\', 'u']) h
    rw [quotedRest_unicode h hquote, unicodeEscape_pair h.tail.tail hcode hlow hhigh,
      codeAt_eq hbehind, hcode']
    exact .ofFail (by simp only [List.length_cons] at this; omega)
  | case8 i h₁ h₂ h₃ h₄ code hcode hlow hhigh l₁ l₂ l₃ l₄ rest low hcode' hlow' hquote hu ih =>
    have hbehind : Between cs (i + 8) stop (l₁ :: l₂ :: l₃ :: l₄ :: rest) :=
      Between.right (a := ['\\', 'u', h₁, h₂, h₃, h₄, '\\', 'u']) h
    rw [quotedRest_unicode h hquote, unicodeEscape_pair h.tail.tail hcode hlow hhigh,
      codeAt_eq hbehind, hcode']
    simp only [pure_bind, if_pos hlow', toChar_pair hhigh hlow']
    rw [onward_eq (by omega)]
    exact (ih (Between.right (a := [l₁, l₂, l₃, l₄]) hbehind) _).accumulate
  | case9 i h₁ h₂ h₃ h₄ code hcode hlow hhigh l₁ l₂ l₃ l₄ rest low hcode' hlow' hquote hu =>
    have := h.stop_eq
    have hbehind : Between cs (i + 8) stop (l₁ :: l₂ :: l₃ :: l₄ :: rest) :=
      Between.right (a := ['\\', 'u', h₁, h₂, h₃, h₄, '\\', 'u']) h
    rw [quotedRest_unicode h hquote, unicodeEscape_pair h.tail.tail hcode hlow hhigh,
      codeAt_eq hbehind, hcode']
    simp only [pure_bind, if_neg hlow']
    exact .ofFail (by simp only [List.length_cons] at this; omega)
  | case10 i h₁ h₂ h₃ h₄ code hcode hlow hhigh more hshort hquote hu =>
    have := h.stop_eq
    have hbehind : Between cs (i + 8) stop more :=
      Between.right (a := ['\\', 'u', h₁, h₂, h₃, h₄, '\\', 'u']) h
    rw [quotedRest_unicode h hquote, unicodeEscape_pair h.tail.tail hcode hlow hhigh,
      codeAt_short hbehind (length_lt_four hshort)]
    exact .ofFail (by simp only [List.length_cons] at this; omega)
  | case11 i h₁ h₂ h₃ h₄ rest code hcode hlow hhigh _ hnone hquote hu =>
    have := h.stop_eq
    rw [quotedRest_unicode h hquote, unicodeEscape_lone h.tail.tail hcode hlow hhigh hnone]
    exact .ofFail (by simp only [List.length_cons] at this; omega)
  | case12 i h₁ h₂ h₃ h₄ rest code hcode hlow hhigh hquote hu ih =>
    rw [quotedRest_unicode h hquote, unicodeEscape_single h.tail.tail hcode hlow hhigh, pure_bind,
      onward_eq (by omega)]
    exact (ih (Between.right (a := ['\\', 'u', h₁, h₂, h₃, h₄]) h) _).accumulate
  | case13 i rest hshort hquote hu =>
    have := h.stop_eq
    rw [quotedRest_unicode h hquote, unicodeEscape,
      codeAt_short h.tail.tail (length_lt_four hshort)]
    exact .ofFail (by simp only [List.length_cons] at this; omega)
  | case14 i letter rest hletter hu hquote =>
    have := h.stop_eq
    rw [quotedRest_invalid h hquote opened text hletter hu]
    exact .ofFail (by simp only [List.length_cons] at this; omega)
  | case15 i c rest hquote hslash ih =>
    rw [quotedRest, if_pos h.lt, charAt_eq h, pure_bind, if_neg hquote,
      if_neg (fun h => hslash h.1)]
    exact (ih h.tail _).accumulate

theorem readQuoted_agrees {s : Span} (h : s.In cs) (hs : s.chars ≠ []) :
    Agrees cs (readQuoted cs s.start s.stop)
      ((Literal.read s).map fun r => (r.1, r.2.start)) := by
  obtain ⟨quote, rest, hchars⟩ := List.exists_cons_of_ne_nil hs
  have hfirst : Between cs s.start s.stop (quote :: rest) := hchars ▸ h
  have hopened : s.start ≤ cs.length := Nat.le_trans (Nat.le_of_lt hfirst.lt) hfirst.stop_le
  rw [readQuoted, checkRange_eq hfirst, pure_bind, charAt_eq hfirst, pure_bind, Literal.read,
    hchars]
  exact quotedRest_agrees hfirst.tail hopened []

end Quotes

section Brackets

variable {cs text rest : List Char} {start stop i : Nat} {c : Char}

/-- Where a scan for the end of a group stops, and what it has run over. -/
theorem between_of_closing {n : Nesting} {inside : List Char} {after : Span}
    (h : Between cs i stop text) (hclosing : n.closing i text = .ok (inside, after)) :
    Between cs i (lastOf (inside, after)) inside ∧ lastOf (inside, after) + 1 = after.start ∧
      Between cs after.start stop after.chars := by
  obtain ⟨c, rfl, hstart⟩ := Nesting.closing_eq_ok hclosing
  have hlast : lastOf (inside, after) = i + inside.length := by
    rw [lastOf, hstart]
    rfl
  have hright := h.right.tail
  rw [← hstart] at hright
  exact ⟨hlast ▸ h.left, by rw [hlast, hstart], hright⟩

/-- The closing brackets that are to come for these opening ones. -/
def awaited (os : List Opener) : List Char := os.map fun o => counterpart o.char

/-- What is made of the end of a scan, when the outermost bracket is this one. -/
def finish (o : Opener) : Option Nat → Scan Nat
  | some i => pure i
  | none => fail (.unterminated o.char) o.position

theorem closeFrom_agrees {i : Nat} {text : List Char} (h : Between cs i stop text)
    (os : List Opener) (hos : os ≠ []) (houter : (os.getLast hos).position ≤ cs.length) :
    Agrees cs (closeFrom cs (awaited os) i stop >>= finish (os.getLast hos))
      (((Nesting.plain os).closing i text).map lastOf) := by
  have hopen : Nesting.plain os ≠ .plain [] := by simpa using hos
  match text with
  | [] =>
    rw [closeFrom, if_neg h.not_lt, Nesting.closing_nil, pure_bind]
    simp only [Nesting.unclosed, List.getLast?_eq_some_getLast hos, Option.map_some,
      Option.getD_some]
    exact .ofFail houter
  | c :: rest =>
    have hposition : i ≤ cs.length := Nat.le_trans (Nat.le_of_lt h.lt) h.stop_le
    rw [closeFrom, if_pos h.lt, charAt_eq h, pure_bind]
    cases ho : isOpener c with
    | true =>
      rw [Nesting.closing_step (Nesting.step_opener ho) (by simp), lastOf_ahead, if_pos rfl]
      have hmore := closeFrom_agrees h.tail (⟨c, i⟩ :: os) (by simp)
        (by rwa [List.getLast_cons hos])
      rwa [List.getLast_cons hos] at hmore
    | false =>
      rw [if_neg (by simp)]
      cases hc : isCloser c with
      | true =>
        have hq : isQuote c = false := by
          simp only [isCloser, Bool.or_eq_true, decide_eq_true_eq] at hc
          rcases hc with (rfl | rfl) | rfl <;> decide
        obtain ⟨o, os', rfl⟩ := List.exists_cons_of_ne_nil hos
        rw [if_pos rfl]
        change Agrees cs ((if counterpart o.char = c then
          (if (awaited os').isEmpty then pure (some i) else closeFrom cs (awaited os') (i + 1) stop)
          else fail (.mismatched c) i) >>= _) _
        by_cases hmatch : counterpart o.char = c
        · have hstep : (Nesting.plain (o :: os')).step i c = .ok (.plain os') := by
            simp [Nesting.step, hq, ho, hc, hmatch]
          rw [if_pos hmatch]
          by_cases hlast : os' = []
          · subst hlast
            rw [Nesting.closing_end hstep]
            exact .ofPure _
          · have hmore :=
              closeFrom_agrees h.tail _ hlast (by rwa [List.getLast_cons hlast] at houter)
            rw [Nesting.closing_step hstep (by simpa using hlast), lastOf_ahead,
              if_neg (by simpa [awaited] using hlast), List.getLast_cons hlast]
            exact hmore
        · have hstep : (Nesting.plain (o :: os')).step i c = .error ⟨.mismatched c, i⟩ := by
            simp [Nesting.step, hq, ho, hc, hmatch]
          rw [if_neg hmatch, Nesting.closing_error hstep]
          exact .ofFail hposition
      | false =>
        rw [if_neg (by simp)]
        cases hq : isQuote c with
        | true =>
          rw [Nesting.closing_step (Nesting.step_quote hq) (by simp), lastOf_ahead, if_pos rfl,
            closingQuote_eq h, pure_bind, Nesting.closing_of_quoted hos]
          cases hbody : (Nesting.quoted [] c i false).closing (i + 1) rest with
          | error fault =>
            obtain rfl := Nesting.closing_quoted_eq_error hbody
            exact .ofFail hposition
          | ok found =>
            obtain ⟨body, behind⟩ := found
            obtain ⟨hinside, hlast, hbehind⟩ := between_of_closing h.tail hbody
            have hforward : i < behind.start := hlast ▸ Nat.lt_succ_of_lt hinside.start_le
            have hlt : behind.chars.length ≤ rest.length := by
              have := Nesting.length_closing hbody
              simp only [Span.length] at this
              omega
            change Agrees cs
              (closeFrom cs (awaited os) (onward i (lastOf (body, behind) + 1)) stop >>= _)
              ((((Nesting.plain os).closing behind.start behind.chars).map _).map lastOf)
            rw [hlast, onward_eq hforward, lastOf_ahead]
            exact closeFrom_agrees hbehind os hos houter
        | false =>
          have hord : Nesting.isOrdinary c = true := by simp [Nesting.isOrdinary, hq, ho, hc]
          rw [if_neg (by simp), Nesting.closing_step (Nesting.step_ordinary hord) hopen,
            lastOf_ahead]
          exact closeFrom_agrees h.tail os hos houter
termination_by text.length

theorem findClose_agrees (h : Between cs i stop (c :: rest)) (ho : isOpener c = true) :
    Agrees cs (findClose cs i stop)
      (((Nesting.plain [⟨c, i⟩]).closing (i + 1) rest).map lastOf) := by
  have hposition : i ≤ cs.length := Nat.le_trans (Nat.le_of_lt h.lt) h.stop_le
  have hagrees := closeFrom_agrees h.tail [⟨c, i⟩] (by simp) hposition
  rw [findClose, checkRange_eq h, pure_bind, closeFrom, if_pos h.lt, charAt_eq h, pure_bind,
    if_pos ho]
  refine Eq.subst (motive := fun x => Agrees cs x _) ?_ hagrees
  refine bind_congr fun found => ?_
  cases found with
  | some last => rfl
  | none => rfl

/-- The positions in which the parts of a split end do not depend on the text in front of it. -/
theorem ends_leading {separator : Char} {n : Nesting} {i j : Nat} {w cs : List Char}
    (hj : i + w.length = j) (parts : List (Nat × Nat)) (start : Nat) :
    ((n.split separator j cs).map (Nesting.leading i w)).map
        (fun found => parts ++ (start, found.1.stop) :: found.2.map Span.ends) =
      (n.split separator j cs).map
        (fun found => parts ++ (start, found.1.stop) :: found.2.map Span.ends) := by
  cases hsplit : n.split separator j cs with
  | error fault => rfl
  | ok found =>
    obtain ⟨head, tail⟩ := found
    have hstart := Nesting.start_split hsplit
    have hstop : (⟨i, w ++ head.chars⟩ : Span).stop = head.stop := by
      simp only [Span.stop, Span.length, List.length_append, hstart]
      omega
    simp only [Except.map, Nesting.leading, hstop]

theorem splitFrom_agrees {separator : Char} (hsep : Nesting.isOrdinary separator = true) {i : Nat}
    {text : List Char} (h : Between cs i stop text) (parts : List (Nat × Nat)) (start : Nat) :
    Agrees cs (splitFrom cs separator parts start i stop)
      (((Nesting.plain []).split separator i text).map fun found =>
        parts ++ (start, found.1.stop) :: found.2.map Span.ends) := by
  match text with
  | [] =>
    have hstop := h.stop_eq
    rw [List.length_nil] at hstop
    rw [splitFrom, if_neg h.not_lt, ← hstop]
    exact .ofPure _
  | c :: rest =>
    have hother := hsep
    simp only [Nesting.isOrdinary, Bool.and_eq_true, Bool.not_eq_true'] at hother
    -- Behind what opens here, both go on where it is closed.
    have hopens : ∀ n : Nesting, ∀ found, n.closing (i + 1) rest = .ok found →
        Agrees cs (splitFrom cs separator parts start (onward i (lastOf found + 1)) stop)
          (((((Nesting.plain []).split separator found.2.start found.2.chars).map
            (Nesting.leading (i + 1) (rest.take (found.1.length + 1)))).map
              (Nesting.leading i [c])).map fun found =>
                parts ++ (start, found.1.stop) :: found.2.map Span.ends) := by
      intro n found hclosing
      obtain ⟨inside, after⟩ := found
      obtain ⟨hinside, hlast, hbehind⟩ := between_of_closing h.tail hclosing
      obtain ⟨d, hd, hstart⟩ := Nesting.closing_eq_ok hclosing
      have hforward : i < after.start := hlast ▸ Nat.lt_succ_of_lt hinside.start_le
      have hlt : after.chars.length < (c :: rest).length := by
        simp only [hd, List.length_cons, List.length_append]
        omega
      have hfront : i + ([c] ++ rest.take (inside.length + 1)).length = after.start := by
        rw [hstart, hd]
        simp
        omega
      rw [Nesting.map_leading_leading, ends_leading hfront, hlast, onward_eq hforward]
      exact splitFrom_agrees hsep hbehind parts start
    rw [splitFrom, if_pos h.lt, charAt_eq h, pure_bind]
    cases ho : isOpener c with
    | true =>
      have hne : c ≠ separator := fun heq => by simp [heq, hother.1.2] at ho
      rw [if_pos rfl, Nesting.split_step (fun h => hne h.2) (Nesting.step_opener ho),
        Nesting.split_of_open separator (by simp), Fault.map_bind, Fault.map_bind]
      exact (findClose_agrees h ho).bind (hopens _)
    | false =>
      rw [if_neg (by simp)]
      cases hq : isQuote c with
      | true =>
        have hne : c ≠ separator := fun heq => by simp [heq, hother.1.1] at hq
        rw [if_pos rfl, closingQuote_eq h, pure_bind,
          Nesting.split_step (fun h => hne h.2) (Nesting.step_quote hq),
          Nesting.split_of_open separator (by simp)]
        cases hclosing : (Nesting.quoted [] c i false).closing (i + 1) rest with
        | error fault =>
          obtain rfl := Nesting.closing_quoted_eq_error hclosing
          exact .ofFail (Nat.le_trans (Nat.le_of_lt h.lt) h.stop_le)
        | ok found => exact hopens _ found hclosing
      | false =>
        rw [if_neg (by simp)]
        by_cases hc : c = separator
        · rw [if_pos hc, Nesting.split, if_pos ⟨rfl, hc⟩]
          have hmore := splitFrom_agrees hsep h.tail (parts ++ [(start, i)]) (i + 1)
          cases hrest : (Nesting.plain []).split separator (i + 1) rest with
          | error fault =>
            rw [hrest] at hmore
            exact hmore
          | ok found =>
            obtain ⟨head, tail⟩ := found
            have hstart : head.start = i + 1 := Nesting.start_split hrest
            rw [hrest] at hmore
            simpa [Except.map, Span.ends, hstart, Span.stop, Span.length] using hmore
        · rw [if_neg hc, Nesting.split_step (fun h => hc h.2) (Nesting.step_bare hq ho),
            ends_leading (List.length_singleton ▸ rfl)]
          exact splitFrom_agrees hsep h.tail parts start
termination_by text.length

end Brackets

section Hops

variable {cs text rest : List Char} {start stop i : Nat} {c : Char}

theorem tokenEnd_agrees (h : Between cs i stop text) :
    Agrees cs (tokenEnd cs i stop) ((Token.take i text).map fun r => r.2.start) := by
  induction text generalizing i with
  | nil =>
    rw [tokenEnd, if_neg h.not_lt]
    exact .ofPure _
  | cons c rest ih =>
    rw [tokenEnd, if_pos h.lt, charAt_eq h, pure_bind, Token.take]
    by_cases hend : Token.isEnd c = true
    · rw [if_pos hend, if_pos hend]
      exact .ofPure _
    · rw [if_neg hend, if_neg hend]
      by_cases hreserved : Token.isReserved c = true
      · rw [if_pos hreserved, if_pos hreserved]
        exact .ofFail (Nat.le_trans (Nat.le_of_lt h.lt) h.stop_le)
      · rw [if_neg hreserved, if_neg hreserved]
        have hmore := ih h.tail
        cases htake : Token.take (i + 1) rest with
        | error fault =>
          rw [htake] at hmore
          exact hmore
        | ok found =>
          rw [htake] at hmore
          exact hmore

theorem classify_error {start : Nat} {text : List Char} {fault : Fault}
    (h : Token.classify start text = .error fault) : fault.position = start := by
  unfold Token.classify at h
  split at h
  · split at h
    · cases h
    · obtain rfl := Except.error.inj h
      rfl
  · split at h
    · cases h
    · cases h
    · split at h <;> cases h
    · cases h

theorem token_agrees {s : Span} (h : s.In cs) (hs : s.chars = c :: rest)
    (hend : Token.isEnd c = false) :
    Agrees cs (token cs s.start s.stop) (s.token.map fun h => (h.segment, h.rest.start)) := by
  have hfirst : Between cs s.start s.stop (c :: rest) := hs ▸ h
  have hposition : s.start ≤ cs.length := Nat.le_trans (Nat.le_of_lt hfirst.lt) hfirst.stop_le
  rw [Span.token_map hs fun segment rest => (segment, rest.start), token, tokenEnd,
    if_pos hfirst.lt, charAt_eq hfirst, pure_bind, if_neg (by simp [hend])]
  by_cases hreserved : Token.isReserved c = true
  · rw [if_pos hreserved, if_pos hreserved]
    exact .ofFail hposition
  · rw [if_neg hreserved, if_neg hreserved]
    refine (tokenEnd_agrees hfirst.tail).bind fun found htake => ?_
    obtain ⟨text, after⟩ := found
    obtain ⟨⟨front, hfront, hafter⟩, hrest⟩ := Span.endOf_take htake
    obtain rfl : front = text := List.append_cancel_right (hfront.symm.trans hrest)
    have htext : Between cs s.start after.start (c :: front) := by
      rw [hrest, ← List.cons_append] at hfirst
      have hleft := hfirst.left
      rwa [List.length_cons, Nat.add_comm front.length, ← Nat.add_assoc, ← hafter] at hleft
    rw [textOf_eq htext, pure_bind]
    exact (Agrees.ofExcept fun fault hfault => classify_error hfault ▸ hposition).next
      fun segment _ => .ofPure _

theorem dotsEnd_eq (h : Between cs i stop text) :
    dotsEnd cs i stop = pure (i + (text.takeWhile (· = '.')).length) := by
  induction text generalizing i with
  | nil =>
    rw [dotsEnd, if_neg h.not_lt]
    rfl
  | cons c rest ih =>
    rw [dotsEnd, if_pos h.lt, charAt_eq h, pure_bind]
    by_cases hc : c = '.'
    · rw [if_pos hc, ih h.tail, List.takeWhile_cons_of_pos (by simp [hc]), List.length_cons]
      congr 1
      omega
    · rw [if_neg hc, List.takeWhile_cons_of_neg (by simp [hc])]
      rfl

theorem dots_agrees {s : Span} (h : s.In cs) (hs : s.chars = '.' :: rest) :
    Agrees cs (dots cs s.start s.stop) (s.dots.map fun h => (h.segment, h.rest.start)) := by
  have hfirst : Between cs s.start s.stop ('.' :: rest) := hs ▸ h
  have hposition : s.start ≤ cs.length := Nat.le_trans (Nat.le_of_lt hfirst.lt) hfirst.stop_le
  have hbehind := Span.endOf_dropWhile ⟨s.start + 1, rest⟩ (· = '.')
  have hafter := h.sub (hbehind.trans (Span.endOf_tail hs)).sub
  have hstop := (hbehind.trans (Span.endOf_tail hs)).stop_eq
  rw [Span.dots_map hs fun segment rest => (segment, rest.start), dots, dotsEnd_eq hfirst,
    pure_bind]
  generalize hrest : (⟨s.start + 1, rest⟩ : Span).dropWhile (· = '.') = after at *
  have hstart : s.start + (('.' :: rest).takeWhile (· = '.')).length = after.start := by
    rw [← hrest, List.takeWhile_cons_of_pos (by simp), List.length_cons, Span.dropWhile]
    simp only
    omega
  have hcount : after.start - s.start = s.length - after.length := by
    simp only [Span.stop] at hstop
    omega
  rw [hstart, hcount]
  simp only
  cases Token.dots? (s.length - after.length) with
  | none => exact .ofFail hposition
  | some t =>
    cases hchars : after.chars with
    | nil =>
      have hend : ¬after.start < s.stop := by
        rw [← hstop, Span.stop, Span.length, hchars]
        simp
      simp only [if_neg hend]
      exact .ofPure _
    | cons d more =>
      have hnext : Between cs after.start s.stop (d :: more) := by
        have := Span.in_iff.mp hafter
        rwa [hchars, hstop] at this
      simp only [if_pos hnext.lt, charAt_eq hnext, pure_bind]
      have hends : Token.endsDots (d :: more) = true ↔ d = '/' ∨ d = '[' ∨ isBlank d = true := by
        simp [Token.endsDots, or_assoc]
      by_cases hd : d = '/' ∨ d = '[' ∨ isBlank d = true
      · rw [if_pos hd, if_pos (hends.mpr hd)]
        exact .ofPure _
      · rw [if_neg hd, if_neg fun h => hd (hends.mp h)]
        exact .ofFail hposition

theorem hop_agrees {s : Span} (h : s.In cs) (hs : s.chars = c :: rest) (hblank : isBlank c = false)
    (hslash : c ≠ '/') (hbracket : c ≠ '[') :
    Agrees cs (hop cs s.start s.stop) (s.hop.map fun h => (h.segment, h.rest.start)) := by
  have hfirst : Between cs s.start s.stop (c :: rest) := hs ▸ h
  rw [hop, charAt_eq hfirst, pure_bind]
  cases hq : isQuote c with
  | true =>
    rw [Span.hop_quote hs hq, Span.quotedKey_map fun segment rest => (segment, rest.start),
      if_pos rfl]
    have hread := readQuoted_agrees h (by simp [hs])
    refine Eq.subst (motive := fun y => Agrees cs _ y) ?_ (hread.bind fun r _ => .ofPure _)
    rfl
  | false =>
    rw [if_neg (by simp)]
    by_cases hdot : c = '.'
    · subst hdot
      rw [if_pos rfl, Span.hop_dot hs]
      exact dots_agrees h hs
    · rw [if_neg hdot, Span.hop_token hs hq hdot]
      exact token_agrees h hs (by simp [Token.isEnd, hslash, hdot, hbracket, hblank])

end Hops

end Scan

end TreePath

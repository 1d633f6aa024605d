import TreePath.Path.Nesting
import TreePath.Text.Character

namespace TreePath.Literal

open Text (unescape? readHex? isHighSurrogate isLowSurrogate ofSurrogates)

/-- The number that four characters denote in hexadecimal; the first one may be a plus. -/
def readCode? : List Char → Option Nat
  | '+' :: digits => readHex? digits
  | digits => readHex? digits

/-- The body of a literal behind the quote at `opened`, whose next character is at `i`: the text
it stands for, and the span behind its closing quote. -/
def readBody (opened : Nat) (quote : Char) (i : Nat) : List Char → Except Fault (List Char × Span)
  | [] => .error ⟨.unterminatedQuote, opened⟩
  | c :: rest =>
    if c = quote then .ok ([], ⟨i + 1, rest⟩)
    else if c = '\\' then
      match rest with
      | [] => .error ⟨.unterminatedQuote, opened⟩
      | letter :: rest =>
        match if letter = '\'' then some letter else unescape? letter with
        | some c =>
          (readBody opened quote (i + 2) rest).map fun (cs, after) => (c :: cs, after)
        | none =>
          if letter = 'u' then
            match rest with
            | h₁ :: h₂ :: h₃ :: h₄ :: rest =>
              match readCode? [h₁, h₂, h₃, h₄] with
              | none => .error ⟨.invalidUnicode, i + 2⟩
              | some code =>
                if isLowSurrogate code then .error ⟨.loneLowSurrogate, i + 1⟩
                else if isHighSurrogate code then
                  match rest with
                  | '\\' :: 'u' :: l₁ :: l₂ :: l₃ :: l₄ :: rest =>
                    match readCode? [l₁, l₂, l₃, l₄] with
                    | none => .error ⟨.invalidUnicode, i + 8⟩
                    | some low =>
                      if isLowSurrogate low then
                        (readBody opened quote (i + 12) rest).map fun (cs, after) =>
                          (ofSurrogates code low :: cs, after)
                      else .error ⟨.invalidLowSurrogate, i + 1⟩
                  | '\\' :: 'u' :: _ => .error ⟨.incompleteUnicode, i + 8⟩
                  | _ => .error ⟨.missingLowSurrogate, i + 1⟩
                else
                  (readBody opened quote (i + 6) rest).map fun (cs, after) =>
                    (Char.ofNat code :: cs, after)
            | _ => .error ⟨.incompleteUnicode, i + 2⟩
          else .error ⟨.invalidEscape, i + 1⟩
    else (readBody opened quote (i + 1) rest).map fun (cs, after) => (c :: cs, after)

/-- The literal that the first character of the span opens. -/
def read (s : Span) : Except Fault (List Char × Span) :=
  match s.chars with
  | [] => .error ⟨.unterminatedQuote, s.start⟩
  | quote :: rest => readBody s.start quote (s.start + 1) rest

private theorem map_eq_ok {α : Type} {x : Except Fault (α × Span)} {f : α → α} {a : α}
    {after : Span} (h : (x.map fun p => (f p.1, p.2)) = .ok (a, after)) :
    ∃ b, x = .ok (b, after) := by
  cases x with
  | error fault => simp [Except.map] at h
  | ok pair =>
    simp only [Except.map, Except.ok.injEq, Prod.mk.injEq] at h
    exact ⟨pair.1, by rw [← h.2]⟩

theorem length_readBody {opened : Nat} {quote : Char} {i : Nat} {cs text : List Char}
    {after : Span} (h : readBody opened quote i cs = .ok (text, after)) :
    after.length < cs.length := by
  fun_induction readBody opened quote i cs generalizing text after with
  | case2 i rest =>
    simp only [Except.ok.injEq, Prod.mk.injEq] at h
    simp [← h.2, Span.length]
  | case4 | case8 | case12 | case15 =>
    rename_i ih
    obtain ⟨t, ht⟩ := map_eq_ok h
    have := ih ht
    simp only [List.length_cons]
    omega
  | _ => simp at h

theorem length_read {s : Span} {text : List Char} {after : Span} (h : read s = .ok (text, after)) :
    after.length + 1 < s.length := by
  unfold read at h
  split at h
  · simp at h
  · next hs =>
    have := length_readBody h
    simp only [Span.length, hs, List.length_cons] at this ⊢
    omega

end TreePath.Literal

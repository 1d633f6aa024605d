import TreePath.Path.Basic
import TreePath.Path.Key
import TreePath.Path.Literal

namespace TreePath

open Text (isBlank)

def integerOf (text : List Char) : Int :=
  let value (digits : List Char) : Nat := digits.foldl (fun n c => 10 * n + (c.toNat - 48)) 0
  match text with
  | '-' :: digits => -value digits
  | digits => value digits

def positionOf? (text : List Char) : Option Int64 :=
  let n := integerOf text
  if Int64.minValue.toInt ≤ n ∧ n ≤ Int64.maxValue.toInt then some (Int64.ofInt n) else none

namespace Token

/-- Characters behind which a bare token does not go on. -/
def isEnd (c : Char) : Bool := c = '/' || c = '.' || c = '[' || isBlank c

/-- Characters that a bare token cannot hold. -/
def isReserved (c : Char) : Bool :=
  c = ']' || c = '{' || c = '}' || c = '(' || c = ')' || c = ',' || c = ':' || c = '\'' || c = '"'

def take (i : Nat) : List Char → Except Fault (List Char × Span)
  | [] => .ok ([], ⟨i, []⟩)
  | c :: rest =>
    if isEnd c then .ok ([], ⟨i, c :: rest⟩)
    else if isReserved c then .error ⟨.unexpected c, i⟩
    else (take (i + 1) rest).map fun (cs, after) => (c :: cs, after)

/-- What a bare token means: a position, a star, a tag, or else a key. -/
def classify (start : Nat) (text : List Char) : Except Fault Segment :=
  if Key.isInteger text then
    match positionOf? text with
    | some i => .ok (.index i)
    | none => .error ⟨.indexOutOfRange, start⟩
  else
    match text with
    | ['*'] => .ok (.tag .children)
    | ['*', '*'] => .ok (.tag .descendants)
    | '$' :: name =>
      match Tag.ofName? (String.ofList name) with
      | some t => .ok (.tag t)
      | none => .ok (.key (String.ofList text))
    | _ => .ok (.key (String.ofList text))

/-- A run of one to three dots stands for a tag. -/
def dots? : Nat → Option Tag
  | 1 => some .current
  | 2 => some .parent
  | 3 => some .ancestors
  | _ => none

def endsDots : List Char → Bool
  | [] => true
  | c :: _ => c = '/' || c = '[' || isBlank c

theorem length_take {i : Nat} {cs text : List Char} {after : Span}
    (h : take i cs = .ok (text, after)) : after.length ≤ cs.length := by
  induction cs generalizing i text with
  | nil =>
    simp only [take, Except.ok.injEq, Prod.mk.injEq] at h
    simp [← h.2, Span.length]
  | cons c rest ih =>
    unfold take at h
    split at h
    · simp only [Except.ok.injEq, Prod.mk.injEq] at h
      simp [← h.2, Span.length]
    · split at h
      · simp at h
      · cases ht : take (i + 1) rest with
        | error fault => simp [ht, Except.map] at h
        | ok pair =>
          simp only [ht, Except.map, Except.ok.injEq, Prod.mk.injEq] at h
          have : after.length ≤ rest.length := @ih (i + 1) pair.1 (by rw [ht, ← h.2])
          simp only [List.length_cons]
          omega

end Token

namespace Span

/-- A hop at the head of a span, and the span behind it. -/
structure Hop (s : Span) where
  segment : Segment
  rest : Span
  shorter : rest.length < s.length

def token (s : Span) : Except Fault (Hop s) :=
  match hs : s.chars with
  | [] => .error ⟨.emptySelector, s.start⟩
  | c :: cs =>
    if Token.isReserved c then .error ⟨.unexpected c, s.start⟩
    else
      match h : Token.take (s.start + 1) cs with
      | .error fault => .error fault
      | .ok (text, rest) =>
        match Token.classify s.start (c :: text) with
        | .error fault => .error fault
        | .ok segment => .ok ⟨segment, rest, by
            have := Token.length_take h
            simp only [length, hs, List.length_cons] at this ⊢
            omega⟩

def quotedKey (s : Span) : Except Fault (Hop s) :=
  match h : Literal.read s with
  | .error fault => .error fault
  | .ok (text, rest) => .ok ⟨.key (String.ofList text), rest, by
      have := Literal.length_read h
      omega⟩

def dots (s : Span) : Except Fault (Hop s) :=
  match hs : s.chars with
  | [] => .error ⟨.emptySelector, s.start⟩
  | _ :: cs =>
    let rest := (⟨s.start + 1, cs⟩ : Span).dropWhile (· = '.')
    match Token.dots? (s.length - rest.length) with
    | none => .error ⟨.tooManyDots, s.start⟩
    | some t =>
      if Token.endsDots rest.chars then .ok ⟨.tag t, rest, by
        have : rest.length ≤ cs.length := length_dropWhile_le ⟨s.start + 1, cs⟩ (· = '.')
        simp only [length, hs, List.length_cons] at this ⊢
        omega⟩
      else .error ⟨.dotsNotAlone, s.start⟩

def hop (s : Span) : Except Fault (Hop s) :=
  match s.chars with
  | '\'' :: _ => s.quotedKey
  | '"' :: _ => s.quotedKey
  | '.' :: _ => s.dots
  | _ => s.token

end Span

end TreePath

import TreePath.Path.Fault
import TreePath.Path.Span

namespace TreePath

/-- An opening bracket that waits for its counterpart. -/
structure Opener where
  char : Char
  position : Nat
  deriving DecidableEq, Repr

/-- Where a scan of a text stands: the brackets that are open, the innermost first, and whether it
is inside of quotes, behind a backslash or not. -/
inductive Nesting where
  | plain (openers : List Opener)
  | quoted (openers : List Opener) (quote : Char) (position : Nat) (escaped : Bool)
  deriving DecidableEq, Repr

namespace Nesting

def isQuote (c : Char) : Bool := c = '\'' || c = '"'

def isOpener (c : Char) : Bool := c = '[' || c = '{' || c = '('

def isCloser (c : Char) : Bool := c = ']' || c = '}' || c = ')'

def counterpart (c : Char) : Char :=
  if c = '[' then ']' else if c = '{' then '}' else ')'

/-- One character further. A closing bracket needs its counterpart, unless nothing is open: then
it is a character like any other. -/
def step (n : Nesting) (i : Nat) (c : Char) : Except Fault Nesting :=
  match n with
  | .quoted openers quote position true => .ok (.quoted openers quote position false)
  | .quoted openers quote position false =>
    if c = '\\' then .ok (.quoted openers quote position true)
    else if c = quote then .ok (.plain openers)
    else .ok n
  | .plain openers =>
    if isQuote c then .ok (.quoted openers c i false)
    else if isOpener c then .ok (.plain (⟨c, i⟩ :: openers))
    else if isCloser c then
      match openers with
      | [] => .ok n
      | opener :: rest =>
        if counterpart opener.char = c then .ok (.plain rest)
        else .error ⟨.mismatched c, i⟩
    else .ok n

/-- What is wrong when the text ends here: an open quote, or else the outermost open bracket. -/
def unclosed : Nesting → Option Fault
  | .quoted _ _ position _ => some ⟨.unterminatedQuote, position⟩
  | .plain openers => openers.getLast?.map fun o => ⟨.unterminated o.char, o.position⟩

/-- The text up to the character that closes everything that is open, and the span behind it. -/
def closing (n : Nesting) (i : Nat) : List Char → Except Fault (List Char × Span)
  | [] => .error (n.unclosed.getD ⟨.unterminatedQuote, i⟩)
  | c :: rest =>
    match n.step i c with
    | .error fault => .error fault
    | .ok (.plain []) => .ok ([], ⟨i + 1, rest⟩)
    | .ok n => (closing n (i + 1) rest).map fun (inside, after) => (c :: inside, after)

theorem length_closing {n : Nesting} {i : Nat} {cs inside : List Char} {after : Span}
    (h : n.closing i cs = .ok (inside, after)) : inside.length + after.length + 1 = cs.length := by
  induction cs generalizing n i inside with
  | nil => simp [closing] at h
  | cons c rest ih =>
    unfold closing at h
    split at h
    · simp at h
    · injection h with h
      injection h with h₁ h₂
      subst h₁ h₂
      simp [Span.length]
    · next n' _ _ =>
      cases hc : closing n' (i + 1) rest with
      | error fault => simp [hc, Except.map] at h
      | ok pair =>
        obtain ⟨ins, aft⟩ := pair
        simp only [hc, Except.map, Except.ok.injEq, Prod.mk.injEq] at h
        obtain ⟨rfl, rfl⟩ := h
        have := ih hc
        simp only [List.length_cons]
        omega

/-- Cuts a text at each separator that is neither in brackets nor in quotes: the part up to the
first one, and the parts behind. -/
def split (separator : Char) (n : Nesting) (i : Nat) : List Char → Except Fault (Span × List Span)
  | [] =>
    match n.unclosed with
    | some fault => .error fault
    | none => .ok (⟨i, []⟩, [])
  | c :: rest =>
    if n = .plain [] ∧ c = separator then
      (split separator n (i + 1) rest).map fun (head, tail) => (⟨i, []⟩, head :: tail)
    else
      match n.step i c with
      | .error fault => .error fault
      | .ok n =>
        (split separator n (i + 1) rest).map fun (head, tail) => (⟨i, c :: head.chars⟩, tail)

theorem extent_split {separator : Char} {n : Nesting} {i : Nat} {cs : List Char} {head : Span}
    {tail : List Span} (h : n.split separator i cs = .ok (head, tail)) :
    Span.extent (head :: tail) = cs.length + 1 := by
  induction cs generalizing n i head tail with
  | nil =>
    unfold split at h
    split at h
    · simp at h
    · injection h with h
      injection h with h₁ h₂
      subst h₁ h₂
      simp [Span.extent, Span.length]
  | cons c rest ih =>
    unfold split at h
    split at h
    · cases hs : split separator n (i + 1) rest with
      | error fault => simp [hs, Except.map] at h
      | ok pair =>
        obtain ⟨hd, tl⟩ := pair
        simp only [hs, Except.map, Except.ok.injEq, Prod.mk.injEq] at h
        obtain ⟨rfl, rfl⟩ := h
        have := ih hs
        simp only [Span.extent, Span.length, List.length_cons, List.length_nil] at this ⊢
        omega
    · split at h
      · simp at h
      · next n' _ =>
        cases hs : split separator n' (i + 1) rest with
        | error fault => simp [hs, Except.map] at h
        | ok pair =>
          obtain ⟨hd, tl⟩ := pair
          simp only [hs, Except.map, Except.ok.injEq, Prod.mk.injEq] at h
          obtain ⟨rfl, rfl⟩ := h
          have := ih hs
          simp only [Span.extent, Span.length, List.length_cons] at this ⊢
          omega

end Nesting

namespace Span

/-- A bracketed group at the head of a span: what it holds, and what follows. -/
structure Group (s : Span) where
  inside : Span
  rest : Span
  shorter : inside.length + rest.length + 2 = s.length

/-- The group that the first character of the span opens. -/
def group (s : Span) : Except Fault (Group s) :=
  match hs : s.chars with
  | [] => .error ⟨.unterminatedQuote, s.start⟩
  | c :: cs =>
    match h : (Nesting.plain [⟨c, s.start⟩]).closing (s.start + 1) cs with
    | .error fault => .error fault
    | .ok (inside, rest) =>
      .ok ⟨⟨s.start + 1, inside⟩, rest, by
        have := Nesting.length_closing h
        simp only [length, hs, List.length_cons] at this ⊢
        omega⟩

/-- The inside of the group that the first character opens, when it ends where the span ends. -/
def enclosed (s : Span) : Except Fault (Option { t : Span // t.length + 2 = s.length }) :=
  match s.group with
  | .error fault => .error fault
  | .ok g =>
    if h : g.rest.length = 0 then .ok (some ⟨g.inside, by have := g.shorter; omega⟩) else .ok none

/-- The parts of a span between separators. -/
structure Parts (s : Span) where
  head : Span
  tail : List Span
  extent_eq : extent (head :: tail) = s.length + 1

def Parts.toList {s : Span} (p : Parts s) : List Span := p.head :: p.tail

def split (s : Span) (separator : Char) : Except Fault (Parts s) :=
  match h : (Nesting.plain []).split separator s.start s.chars with
  | .error fault => .error fault
  | .ok (head, tail) => .ok ⟨head, tail, Nesting.extent_split h⟩

/-- A span cut in two at a separator. -/
structure Cut (s : Span) where
  before : Span
  after : Span
  shorter : before.length + after.length + 1 = s.length

/-- Cuts the span at its first separator, if it has one. -/
def cut (s : Span) (separator : Char) : Except Fault (Option (Cut s)) :=
  match s.split separator with
  | .error fault => .error fault
  | .ok ⟨_, [], _⟩ => .ok none
  | .ok ⟨head, second :: tail, h⟩ =>
    .ok (some ⟨head, s.drop (head.length + 1), by
      rw [length_drop]
      simp only [extent] at h
      omega⟩)

/-- Whether the separator stands in the span outside of brackets and quotes, all of which are
closed. -/
def hasCut (s : Span) (separator : Char) : Bool :=
  match s.cut separator with
  | .ok (some _) => true
  | _ => false

end Span

end TreePath

import TreePath.Text.Character

namespace TreePath

open Text (isBlank)

/-- A stretch of a text that knows where it starts, so that what is wrong in a part of a text is
reported at its place in the whole. -/
structure Span where
  start : Nat
  chars : List Char
  deriving DecidableEq

namespace Span

def ofText (text : String) : Span := ⟨0, text.toList⟩

def length (s : Span) : Nat := s.chars.length

/-- The position behind the last character. -/
def stop (s : Span) : Nat := s.start + s.length

def toText (s : Span) : String := String.ofList s.chars

def drop (s : Span) (n : Nat) : Span := ⟨s.start + n, s.chars.drop n⟩

/-- The span from its first character that is not dropped by `p` on. -/
def dropWhile (s : Span) (p : Char → Bool) : Span :=
  ⟨s.start + (s.chars.takeWhile p).length, s.chars.dropWhile p⟩

def skipBlanks (s : Span) : Span := s.dropWhile isBlank

/-- Blanks and slashes, which separate hops in any number. -/
def skipSeparators (s : Span) : Span := s.dropWhile fun c => isBlank c || c = '/'

def dropEndBlanks : List Char → List Char
  | [] => []
  | c :: rest =>
    match dropEndBlanks rest with
    | [] => if isBlank c then [] else [c]
    | kept => c :: kept

/-- The span without blanks at its ends. -/
def trim (s : Span) : Span :=
  let s := s.skipBlanks
  ⟨s.start, dropEndBlanks s.chars⟩

/-- The characters of several spans and one separator behind each. -/
def extent : List Span → Nat
  | [] => 0
  | s :: rest => s.length + 1 + extent rest

theorem length_drop (s : Span) (n : Nat) : (s.drop n).length = s.length - n := by
  simp [drop, length]

theorem length_dropWhile_le (s : Span) (p : Char → Bool) : (s.dropWhile p).length ≤ s.length :=
  (List.dropWhile_sublist p).length_le

theorem length_skipBlanks_le (s : Span) : s.skipBlanks.length ≤ s.length :=
  s.length_dropWhile_le isBlank

theorem length_dropEndBlanks_le (cs : List Char) : (dropEndBlanks cs).length ≤ cs.length := by
  induction cs with
  | nil => simp [dropEndBlanks]
  | cons c rest ih =>
    unfold dropEndBlanks
    split
    · split <;> simp
    · simp only [List.length_cons]
      omega

theorem length_trim_le (s : Span) : s.trim.length ≤ s.length :=
  Nat.le_trans (length_dropEndBlanks_le _) s.length_skipBlanks_le

end Span

end TreePath

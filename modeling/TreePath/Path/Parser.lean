import TreePath.Json.Reader
import TreePath.Path.Token

namespace TreePath

namespace Slice

def readBound (s : Span) : Except Fault (Option Int64) :=
  let s := s.trim
  if s.chars.isEmpty then .ok none
  else if !Key.isInteger s.chars then .error ⟨.boundNotInteger s.toText, s.start⟩
  else
    match positionOf? s.chars with
    | some n => .ok (some n)
    | none => .error ⟨.boundOutOfRange, s.start⟩

def read (s : Span) : Except Fault Slice := do
  let parts ← s.split ':'
  if 3 < parts.toList.length then throw ⟨.tooManyBounds, s.start⟩
  let bounds ← parts.toList.mapM readBound
  let bound (i : Nat) : Option Int64 := (bounds[i]?).join
  if bound 2 = some 0 then throw ⟨.zeroStep, s.start⟩
  return ⟨bound 0, bound 1, bound 2⟩

end Slice

namespace Expected

def readMarked (s : Span) : Except Fault Expected :=
  match Json.read? s.trim.chars with
  | some v => .ok (.value v)
  | none => .error ⟨.invalidJson, s.start⟩

def readQuoted (s : Span) : Except Fault Expected := do
  let (text, rest) ← Literal.read s
  if rest.chars.isEmpty then return .value (.str (String.ofList text))
  throw ⟨.trailingAfterQuoted, rest.start⟩

/-- Text that is no value stands for itself. -/
def ofBare (text : List Char) : Expected :=
  .value ((Json.read? text).getD (.str (String.ofList text)))

end Expected

namespace Parser

def selectorTag (start : Nat) (name : List Char) : Except Fault Path :=
  match Tag.ofName? (String.ofList name) with
  | some t => .ok [.tag t]
  | none => .error ⟨.unknownTag (String.ofList name), start⟩

mutual

/-- A whole path. A slash in front of it stands for the root. -/
def path (s : Span) : Except Fault Path :=
  match s.skipBlanks.chars with
  | '/' :: _ => do return .tag .root :: (← hops (s.skipBlanks.drop 1))
  | _ => hops s.skipBlanks
termination_by (s.length, 3)
decreasing_by all_goals
  have := s.length_skipBlanks_le
  have := s.skipBlanks.length_drop 1
  exact .right' _ (by omega) (by decide)

def hops (s : Span) : Except Fault Path :=
  match s.skipSeparators.chars with
  | [] => .ok []
  | '[' :: _ => brackets s.skipSeparators
  | _ => do
    let hop ← s.skipSeparators.hop
    return hop.segment :: (← following hop.rest)
termination_by (s.length, 2)
decreasing_by
  · exact .right' _ (s.length_dropWhile_le _) (by decide)
  · have : s.skipSeparators.length ≤ s.length := s.length_dropWhile_le _
    have := hop.shorter
    exact .left _ _ (by omega)

def brackets (s : Span) : Except Fault Path := do
  let group ← s.group
  let segments ← selector group.inside.trim
  return segments ++ (← following group.rest)
termination_by (s.length, 0)
decreasing_by all_goals
  have := group.shorter
  have := group.inside.length_trim_le
  exact .left _ _ (by omega)

/-- What follows a hop: brackets, or a separator and more hops, or nothing. -/
def following (s : Span) : Except Fault Path :=
  match s.chars with
  | '[' :: _ => brackets s
  | _ =>
    match h : s.skipBlanks.chars with
    | [] => .ok []
    | c :: rest =>
      if c = '/' ∨ c = '.' then hops ⟨s.skipBlanks.start + 1, rest⟩
      else .error ⟨.unexpected c, s.skipBlanks.start⟩
termination_by (s.length, 1)
decreasing_by
  · exact .right _ (by decide)
  · have := s.length_skipBlanks_le
    simp only [Span.length, h, List.length_cons] at this
    exact .left _ _ (by simp only [Span.length]; omega)

def selector (s : Span) : Except Fault Path :=
  match s.chars with
  | [] => .error ⟨.emptySelector, s.start⟩
  | ['*'] => .ok [.slice .full]
  | '?' :: '{' :: _ => do
    match ← (s.drop 1).enclosed with
    | some inside => return [.predicate (← query inside.1.trim)]
    | none => throw ⟨.expectedBraces, s.start⟩
  | '?' :: _ => .error ⟨.expectedBraces, s.start⟩
  | '{' :: _ => do
    match ← s.enclosed with
    | some inside => return [← braces inside.1.trim]
    | none => spliced s
  | '[' :: _ => do
    match ← s.enclosed with
    | some inside => return [.union (← members inside.1.trim) false]
    | none => spliced s
  | '(' :: _ => do
    match ← s.enclosed with
    | some inside => return [.tuple (← members inside.1.trim).flatten]
    | none => spliced s
  | _ => spliced s
termination_by (s.length, 5)
decreasing_by all_goals
  first
  | exact .right _ (by decide)
  | have := inside.2
    have := inside.1.length_trim_le
    have := s.length_drop 1
    exact .left _ _ (by omega)

/-- A selector that is not one group: a slice, a tag, or a path whose hops are taken over. -/
def spliced (s : Span) : Except Fault Path := do
  if (← s.cut ':').isSome then return [.slice (← Slice.read s)]
  match s.chars with
  | '$' :: name => selectorTag s.start name
  | _ => path s
termination_by (s.length, 4)
decreasing_by exact .right _ (by decide)

/-- What stands between braces: a query when one of its parts has a colon, or else a union. -/
def braces (s : Span) : Except Fault Segment := do
  if s.chars.isEmpty then return .predicate []
  let parts ← s.split ','
  if parts.toList.any (·.hasCut ':') then return .predicate (← query s)
  return .union (← members s) true
termination_by (s.length + 1, 2)
decreasing_by all_goals exact .right _ (by decide)

def members (s : Span) : Except Fault (List Path) := do
  if s.chars.isEmpty then return []
  let parts ← s.split ','
  paths parts.toList
termination_by (s.length + 1, 1)
decreasing_by
  exact .right' _ (Nat.le_of_eq parts.extent_eq) (by decide)

def paths (parts : List Span) : Except Fault (List Path) :=
  match parts with
  | [] => .ok []
  | part :: rest => do
    if part.trim.chars.isEmpty then throw ⟨.emptyMember, part.trim.start⟩
    let p ← path part.trim
    return p :: (← paths rest)
termination_by (Span.extent parts, 0)
decreasing_by all_goals
  have := part.length_trim_le
  exact .left _ _ (by simp only [Span.extent]; omega)

def query (s : Span) : Except Fault Query := do
  if s.chars.isEmpty then return []
  let parts ← s.split ','
  entries parts.toList
termination_by (s.length + 1, 1)
decreasing_by
  exact .right' _ (Nat.le_of_eq parts.extent_eq) (by decide)

def entries (parts : List Span) : Except Fault Query :=
  match parts with
  | [] => .ok []
  | part :: rest => do
    if part.trim.chars.isEmpty then throw ⟨.emptyEntry, part.trim.start⟩
    match ← part.trim.cut ':' with
    | none => throw ⟨.entryWithoutColon, part.trim.start⟩
    | some cut =>
      let key ← queryKey cut.before.trim
      let value ← expected cut.after.trim
      return (key, value) :: (← entries rest)
termination_by (Span.extent parts, 0)
decreasing_by
  · have := cut.shorter
    have := part.length_trim_le
    have := cut.before.length_trim_le
    exact .left _ _ (by simp only [Span.extent]; omega)
  · have := cut.shorter
    have := part.length_trim_le
    have := cut.after.length_trim_le
    exact .left _ _ (by simp only [Span.extent]; omega)
  · exact .left _ _ (by simp only [Span.extent]; omega)

/-- The key of an entry. A lone point or sign `@`, or nothing, is the candidate itself; in front of
a path the sign is left out. -/
def queryKey (s : Span) : Except Fault Path :=
  match s.chars with
  | [] => .ok []
  | ['.'] => .ok []
  | ['@'] => .ok []
  | '@' :: _ => path (s.drop 1)
  | _ => path s
termination_by (s.length, 4)
decreasing_by all_goals
  have := s.length_drop 1
  exact .right' _ (by omega) (by decide)

/-- The value of an entry: a query in braces, or a value in one of its spellings. -/
def expected (s : Span) : Except Fault Expected :=
  match s.chars with
  | [] => .error ⟨.missingValue, s.start⟩
  | '?' :: '{' :: _ => nested (s.drop 1)
  | '{' :: _ => nested s
  | '=' :: _ => Expected.readMarked (s.drop 1)
  | '\'' :: _ => Expected.readQuoted s
  | text => .ok (Expected.ofBare text)
termination_by (s.length, 1)
decreasing_by all_goals
  have := s.length_drop 1
  exact .right' _ (by omega) (by decide)

def nested (s : Span) : Except Fault Expected := do
  let group ← s.group
  if !group.rest.chars.isEmpty then throw ⟨.trailingAfterQuery, group.rest.start⟩
  return .query (← query group.inside.trim)
termination_by (s.length, 0)
decreasing_by
  have := group.shorter
  have := group.inside.length_trim_le
  exact .left _ _ (by omega)

end

end Parser

/-- The path that a text denotes, or what is wrong with the text. -/
def Path.read (text : String) : Except Fault Path := Parser.path (Span.ofText text)

end TreePath

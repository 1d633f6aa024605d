import Mathlib
import TreePath.Path.Parser

namespace TreePath

open Text (isBlank unescape? isHighSurrogate isLowSurrogate)
open Nesting (isQuote isOpener isCloser counterpart)

/-- Why a scan stops before it has a result. -/
inductive Halt where
  /-- A position or a range that is not in the text, or a range that ends before it starts. -/
  | outside
  /-- A number that was taken for a character and is none. -/
  | noCharacter
  | fault (fault : Fault)

/-- The parser by positions has a result or halts, or it runs out of calls. A part of the text is a
range of positions, and every look at a character and every range is checked. -/
abbrev Scan := ExceptT Halt Option

/-- The stretch of a text between two positions. -/
def Span.range (cs : List Char) (start stop : Nat) : Span := ⟨start, (cs.take stop).drop start⟩

namespace Scan

/-- No call is left. -/
def unfinished {α : Type} : Scan α := ExceptT.mk none

/-- What is known without a look at the text. -/
def ofExcept {α : Type} (x : Except Fault α) : Scan α :=
  match x with
  | .ok a => pure a
  | .error fault => throw (.fault fault)

def fail {α : Type} (reason : Reason) (position : Nat) : Scan α :=
  throw (.fault ⟨reason, position⟩)

def toChar (n : Nat) : Scan Char :=
  if n.isValidChar then pure (Char.ofNat n) else throw .noCharacter

section Scanning

variable (cs : List Char)

def charAt (i : Nat) : Scan Char :=
  match cs[i]? with
  | some c => pure c
  | none => throw .outside

def checkRange (start stop : Nat) : Scan Unit :=
  if start ≤ stop ∧ stop ≤ cs.length then pure () else throw .outside

def textOf (start stop : Nat) : Scan (List Char) := do
  checkRange cs start stop
  return (Span.range cs start stop).chars

/-- Where a loop goes on: at `next`, which is behind `i` in any case. -/
def onward (i next : Nat) : Nat := max (i + 1) next

theorem sub_onward_lt {i stop : Nat} (h : i < stop) (next : Nat) :
    stop - onward i next < stop - i := by
  have := Nat.le_max_left (i + 1) next
  unfold onward
  omega

theorem onward_eq {i next : Nat} (h : i < next) : onward i next = next := Nat.max_eq_right h

section Blanks

def skipBlanks (i stop : Nat) : Scan Nat := do
  if i < stop then
    if isBlank (← charAt cs i) then skipBlanks (i + 1) stop else return i
  else return i
termination_by stop - i

def dropBlanks (start stop : Nat) : Scan Nat := do
  if start < stop then
    if isBlank (← charAt cs (stop - 1)) then dropBlanks start (stop - 1) else return stop
  else return stop
termination_by stop

/-- The range without blanks at its ends. -/
def trim (start stop : Nat) : Scan (Nat × Nat) := do
  checkRange cs start stop
  let start ← skipBlanks cs start stop
  let stop ← dropBlanks cs start stop
  return (start, stop)

/-- Slashes, each with the blanks behind it. -/
def skipSlashes (i stop : Nat) : Scan Nat := do
  if i < stop then
    if (← charAt cs i) = '/' then
      let next ← skipBlanks cs (i + 1) stop
      skipSlashes (onward i next) stop
    else return i
  else return i
termination_by stop - i
decreasing_by exact sub_onward_lt (by assumption) _

end Blanks

section Quotes

/-- The position of the quote, unless it stands behind a backslash, from `i` on. -/
def findQuote (quote : Char) (i stop : Nat) : Scan (Option Nat) := do
  if i < stop then
    let c ← charAt cs i
    if c = '\\' then findQuote quote (i + 2) stop
    else if c = quote then return some i
    else findQuote quote (i + 1) stop
  else return none
termination_by stop - i

/-- Where the literal that opens at `start` is closed, without a look at its escapes. -/
def closingQuote (start stop : Nat) : Scan (Option Nat) := do
  checkRange cs start stop
  findQuote cs (← charAt cs start) (start + 1) stop

/-- The number that the four characters at `i` denote. -/
def codeAt (i stop : Nat) : Scan Nat := do
  if stop < i + 4 then fail .incompleteUnicode i
  else
    match Literal.readCode? (← textOf cs i (i + 4)) with
    | some n => return n
    | none => fail .invalidUnicode i

/-- The character of the escape whose letter is at `i`, and the position of its last digit. -/
def unicodeEscape (i stop : Nat) : Scan (Char × Nat) := do
  let code ← codeAt cs (i + 1) stop
  if isLowSurrogate code then fail .loneLowSurrogate i
  else if isHighSurrogate code then
    if i + 6 < stop then
      if (← charAt cs (i + 5)) = '\\' then
        if (← charAt cs (i + 6)) = 'u' then
          let low ← codeAt cs (i + 7) stop
          if isLowSurrogate low then
            let c ← toChar (0x10000 + (code - 0xD800) * 0x400 + (low - 0xDC00))
            return (c, i + 10)
          else fail .invalidLowSurrogate i
        else fail .missingLowSurrogate i
      else fail .missingLowSurrogate i
    else fail .missingLowSurrogate i
  else
    let c ← toChar code
    return (c, i + 4)

/-- The rest of a literal behind `text`, and the position behind its closing quote. -/
def quotedRest (opened : Nat) (quote : Char) (text : List Char) (i stop : Nat) :
    Scan (List Char × Nat) := do
  if i < stop then
    let c ← charAt cs i
    if c = quote then return (text, i + 1)
    else if c = '\\' ∧ i + 1 < stop then
      let letter ← charAt cs (i + 1)
      match if letter = '\'' then some letter else unescape? letter with
      | some c => quotedRest opened quote (text ++ [c]) (i + 2) stop
      | none =>
        if letter = 'u' then
          let (c, last) ← unicodeEscape cs (i + 1) stop
          quotedRest opened quote (text ++ [c]) (onward i (last + 1)) stop
        else fail .invalidEscape (i + 1)
    else quotedRest opened quote (text ++ [c]) (i + 1) stop
  else fail .unterminatedQuote opened
termination_by stop - i
decreasing_by all_goals first | omega | exact sub_onward_lt (by assumption) _

/-- The literal that opens at `start`, and the position behind its closing quote. -/
def readQuoted (start stop : Nat) : Scan (List Char × Nat) := do
  checkRange cs start stop
  quotedRest cs start (← charAt cs start) [] (start + 1) stop

end Quotes

section Brackets

/-- Where the brackets are all closed for the first time, while `awaited` are the closing brackets
that are still to come, the innermost first. -/
def closeFrom (awaited : List Char) (i stop : Nat) : Scan (Option Nat) := do
  if i < stop then
    let c ← charAt cs i
    if isOpener c then closeFrom (counterpart c :: awaited) (i + 1) stop
    else if isCloser c then
      match awaited with
      | [] => fail (.mismatched c) i
      | next :: rest =>
        if next = c then
          if rest.isEmpty then return some i else closeFrom rest (i + 1) stop
        else fail (.mismatched c) i
    else if isQuote c then
      match ← closingQuote cs i stop with
      | some last => closeFrom awaited (onward i (last + 1)) stop
      | none => fail .unterminatedQuote i
    else closeFrom awaited (i + 1) stop
  else return none
termination_by stop - i
decreasing_by all_goals first | omega | exact sub_onward_lt (by assumption) _

/-- Where the bracket at `opened` is closed. -/
def findClose (opened stop : Nat) : Scan Nat := do
  checkRange cs opened stop
  match ← closeFrom cs [] opened stop with
  | some i => return i
  | none => fail (.unterminated (← charAt cs opened)) opened

/-- The parts behind `parts`, of which the first one starts at `start`, from `i` on. -/
def splitFrom (separator : Char) (parts : List (Nat × Nat)) (start i stop : Nat) :
    Scan (List (Nat × Nat)) := do
  if i < stop then
    let c ← charAt cs i
    if isOpener c then
      let last ← findClose cs i stop
      splitFrom separator parts start (onward i (last + 1)) stop
    else if isQuote c then
      match ← closingQuote cs i stop with
      | some last => splitFrom separator parts start (onward i (last + 1)) stop
      | none => fail .unterminatedQuote i
    else if c = separator then splitFrom separator (parts ++ [(start, i)]) (i + 1) (i + 1) stop
    else splitFrom separator parts start (i + 1) stop
  else return parts ++ [(start, stop)]
termination_by stop - i
decreasing_by all_goals first | omega | exact sub_onward_lt (by assumption) _

/-- The ranges between the separators that stand outside of brackets and quotes. -/
def split (separator : Char) (start stop : Nat) : Scan (List (Nat × Nat)) := do
  checkRange cs start stop
  splitFrom cs separator [] start start stop

/-- The first separator outside of brackets and quotes. -/
def cut (separator : Char) (start stop : Nat) : Scan (Option Nat) := do
  match ← split cs separator start stop with
  | (_, i) :: _ :: _ => return some i
  | _ => return none

/-- Whether there is such a separator; a fault counts as none. -/
def hasCut (separator : Char) (start stop : Nat) : Scan Bool :=
  tryCatch ((·.isSome) <$> cut cs separator start stop) fun
    | .fault _ => pure false
    | halt => throw halt

/-- The closing bracket of the group at `opened`, if the range ends behind it. -/
def enclosed (opened stop : Nat) : Scan (Option Nat) := do
  let last ← findClose cs opened stop
  return if last + 1 = stop then some last else none

end Brackets

section Hops

def tokenEnd (i stop : Nat) : Scan Nat := do
  if i < stop then
    let c ← charAt cs i
    if Token.isEnd c then return i
    else if Token.isReserved c then fail (.unexpected c) i
    else tokenEnd (i + 1) stop
  else return i
termination_by stop - i

def token (i stop : Nat) : Scan (Segment × Nat) := do
  let last ← tokenEnd cs i stop
  let segment ← ofExcept (Token.classify i (← textOf cs i last))
  return (segment, last)

def dotsEnd (i stop : Nat) : Scan Nat := do
  if i < stop then
    if (← charAt cs i) = '.' then dotsEnd (i + 1) stop else return i
  else return i
termination_by stop - i

def dots (i stop : Nat) : Scan (Segment × Nat) := do
  let last ← dotsEnd cs i stop
  match Token.dots? (last - i) with
  | none => fail .tooManyDots i
  | some t =>
    if last < stop then
      let c ← charAt cs last
      if c = '/' ∨ c = '[' ∨ isBlank c then return (.tag t, last) else fail .dotsNotAlone i
    else return (.tag t, last)

/-- The hop at `i`, which is not in brackets, and the position behind it. -/
def hop (i stop : Nat) : Scan (Segment × Nat) := do
  let c ← charAt cs i
  if isQuote c then
    let (key, next) ← readQuoted cs i stop
    return (.key (String.ofList key), next)
  else if c = '.' then dots cs i stop
  else token cs i stop

end Hops

section Values

def bound (start stop : Nat) : Scan (Option Int64) := do
  let (start, stop) ← trim cs start stop
  if start = stop then return none
  else
    let text ← textOf cs start stop
    if Key.isInteger text then
      match positionOf? text with
      | some n => return some n
      | none => fail .boundOutOfRange start
    else fail (.boundNotInteger (String.ofList text)) start

def bounds (parts : List (Nat × Nat)) : Scan (List (Option Int64)) :=
  match parts with
  | [] => return []
  | (start, stop) :: rest => do
    let first ← bound cs start stop
    return first :: (← bounds rest)

def slice (start stop : Nat) : Scan Slice := do
  let parts ← split cs ':' start stop
  if 3 < parts.length then fail .tooManyBounds start
  else
    let bounds ← bounds cs parts
    let bound (i : Nat) : Option Int64 := (bounds[i]?).join
    if bound 2 = some 0 then fail .zeroStep start
    else return ⟨bound 0, bound 1, bound 2⟩

/-- Whether one of the parts has a colon, up to the first that has. -/
def anyCut (parts : List (Nat × Nat)) : Scan Bool :=
  match parts with
  | [] => return false
  | (start, stop) :: rest => do
    if ← hasCut cs ':' start stop then return true else anyCut rest

end Values

mutual

def path (calls : Nat) (start stop : Nat) : Scan Path :=
  match calls with
  | 0 => unfinished
  | calls + 1 => do
    checkRange cs start stop
    let i ← skipBlanks cs start stop
    if i < stop then
      if (← charAt cs i) = '/' then hops calls [.tag .root] (i + 1) stop else hops calls [] i stop
    else hops calls [] i stop

/-- The hops behind `done`, from a place where a hop may start. -/
def hops (calls : Nat) (done : Path) (i stop : Nat) : Scan Path :=
  match calls with
  | 0 => unfinished
  | calls + 1 => do
    let i ← skipBlanks cs i stop
    let i ← skipSlashes cs i stop
    if i < stop then
      if (← charAt cs i) = '[' then
        let (segments, next) ← brackets calls i stop
        following calls (done ++ segments) next stop
      else
        let (segment, next) ← hop cs i stop
        following calls (done ++ [segment]) next stop
    else return done

/-- What follows a hop: brackets, or a separator and more hops, or nothing. -/
def following (calls : Nat) (done : Path) (i stop : Nat) : Scan Path :=
  match calls with
  | 0 => unfinished
  | calls + 1 => do
    if i < stop then
      if (← charAt cs i) = '[' then
        let (segments, next) ← brackets calls i stop
        following calls (done ++ segments) next stop
      else
        let i ← skipBlanks cs i stop
        if i < stop then
          let c ← charAt cs i
          if c = '/' ∨ c = '.' then hops calls done (i + 1) stop else fail (.unexpected c) i
        else return done
    else return done

/-- The segments of the selector in brackets at `i`, and the position behind it. -/
def brackets (calls : Nat) (i stop : Nat) : Scan (Path × Nat) :=
  match calls with
  | 0 => unfinished
  | calls + 1 => do
    let last ← findClose cs i stop
    let segments ← selector calls (i + 1) last
    return (segments, last + 1)

def selector (calls : Nat) (start stop : Nat) : Scan Path :=
  match calls with
  | 0 => unfinished
  | calls + 1 => do
    let (start, stop) ← trim cs start stop
    if start = stop then fail .emptySelector start
    else
      let c ← charAt cs start
      if stop - start = 1 ∧ c = '*' then return [.slice .full]
      else if c = '?' then
        if start + 1 < stop then
          if (← charAt cs (start + 1)) = '{' then
            match ← enclosed cs (start + 1) stop with
            | some last => return [.predicate (← query calls (start + 2) last)]
            | none => fail .expectedBraces start
          else fail .expectedBraces start
        else fail .expectedBraces start
      else if c = '{' then
        match ← enclosed cs start stop with
        | some last => return [← braces calls (start + 1) last]
        | none => spliced calls start stop
      else if c = '[' then
        match ← enclosed cs start stop with
        | some last => return [.union (← members calls (start + 1) last) false]
        | none => spliced calls start stop
      else if c = '(' then
        match ← enclosed cs start stop with
        | some last => return [.tuple (← members calls (start + 1) last).flatten]
        | none => spliced calls start stop
      else spliced calls start stop

def spliced (calls : Nat) (start stop : Nat) : Scan Path :=
  match calls with
  | 0 => unfinished
  | calls + 1 => do
    if (← cut cs ':' start stop).isSome then return [.slice (← slice cs start stop)]
    else if (← charAt cs start) = '$' then
      let name ← textOf cs (start + 1) stop
      ofExcept (Parser.selectorTag start name)
    else path calls start stop

def braces (calls : Nat) (start stop : Nat) : Scan Segment :=
  match calls with
  | 0 => unfinished
  | calls + 1 => do
    let (start, stop) ← trim cs start stop
    if start = stop then return .predicate []
    else if ← anyCut cs (← split cs ',' start stop) then
      return .predicate (← query calls start stop)
    else return .union (← members calls start stop) true

def members (calls : Nat) (start stop : Nat) : Scan (List Path) :=
  match calls with
  | 0 => unfinished
  | calls + 1 => do
    let (start, stop) ← trim cs start stop
    if start = stop then return []
    else paths calls (← split cs ',' start stop)

def paths (calls : Nat) (parts : List (Nat × Nat)) : Scan (List Path) :=
  match calls with
  | 0 => unfinished
  | calls + 1 => do
    match parts with
    | [] => return []
    | (start, stop) :: rest =>
      let (start, stop) ← trim cs start stop
      if start = stop then fail .emptyMember start
      else
        let p ← path calls start stop
        return p :: (← paths calls rest)

def query (calls : Nat) (start stop : Nat) : Scan Query :=
  match calls with
  | 0 => unfinished
  | calls + 1 => do
    let (start, stop) ← trim cs start stop
    if start = stop then return []
    else entries calls [] (← split cs ',' start stop)

/-- The entries behind `done`, one in each of the parts. -/
def entries (calls : Nat) (done : Query) (parts : List (Nat × Nat)) : Scan Query :=
  match calls with
  | 0 => unfinished
  | calls + 1 => do
    match parts with
    | [] => return done
    | (start, stop) :: rest =>
      let (start, stop) ← trim cs start stop
      if start = stop then fail .emptyEntry start
      else
        match ← cut cs ':' start stop with
        | none => fail .entryWithoutColon start
        | some colon =>
          let key ← queryKey calls start colon
          let value ← expected calls (colon + 1) stop
          entries calls (done ++ [(key, value)]) rest

def queryKey (calls : Nat) (start stop : Nat) : Scan Path :=
  match calls with
  | 0 => unfinished
  | calls + 1 => do
    let (start, stop) ← trim cs start stop
    if start = stop then return []
    else
      let c ← charAt cs start
      if stop - start = 1 ∧ (c = '.' ∨ c = '@') then return []
      else if c = '@' then path calls (start + 1) stop
      else path calls start stop

def expected (calls : Nat) (start stop : Nat) : Scan Expected :=
  match calls with
  | 0 => unfinished
  | calls + 1 => do
    let (start, stop) ← trim cs start stop
    if start = stop then fail .missingValue start
    else
      let c ← charAt cs start
      if c = '{' then nested calls start stop
      else if c = '?' ∧ start + 1 < stop then
        if (← charAt cs (start + 1)) = '{' then nested calls (start + 1) stop
        else return Expected.ofBare (← textOf cs start stop)
      else if c = '=' then
        let text ← textOf cs (start + 1) stop
        ofExcept (Expected.readMarked ⟨start + 1, text⟩)
      else if c = '\'' then
        let (text, next) ← readQuoted cs start stop
        if next = stop then return .value (.str (String.ofList text))
        else fail .trailingAfterQuoted next
      else return Expected.ofBare (← textOf cs start stop)

def nested (calls : Nat) (opened stop : Nat) : Scan Expected :=
  match calls with
  | 0 => unfinished
  | calls + 1 => do
    let last ← findClose cs opened stop
    if last + 1 = stop then return .query (← query calls (opened + 1) last)
    else fail .trailingAfterQuery (last + 1)

end

end Scanning

/-- The path that a text denotes. For each of its characters the rules may call each other up to six
deep. -/
def parse (text : String) : Scan Path :=
  path text.toList (6 * (text.length + 1)) 0 text.length

end Scan

end TreePath

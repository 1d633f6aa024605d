import TreePath.Decimal.Double
import TreePath.Json.Basic
import TreePath.Text.Character

namespace TreePath.Json

open Text (unescape? readHex? isHighSurrogate isLowSurrogate ofSurrogates)

def isGap (c : Char) : Bool := c = ' ' || c = '\n' || c = '\t' || c = '\r'

def skipGaps (text : List Char) : List Char := text.dropWhile isGap

/-- The body of a string, behind its opening quote, up to and with the closing one. -/
def readChars : List Char → Option (List Char × List Char)
  | [] => none
  | c :: rest =>
    if c = '"' then some ([], rest)
    else if c = '\\' then
      match rest with
      | [] => none
      | letter :: rest =>
        match unescape? letter with
        | some c => (readChars rest).map fun (cs, rest) => (c :: cs, rest)
        | none =>
          match letter, rest with
          | 'u', h₁ :: h₂ :: h₃ :: h₄ :: rest =>
            match readHex? [h₁, h₂, h₃, h₄] with
            | none => none
            | some code =>
              if isLowSurrogate code then none
              else if isHighSurrogate code then
                match rest with
                | '\\' :: 'u' :: l₁ :: l₂ :: l₃ :: l₄ :: rest =>
                  match readHex? [l₁, l₂, l₃, l₄] with
                  | none => none
                  | some low =>
                    if isLowSurrogate low then
                      (readChars rest).map fun (cs, rest) => (ofSurrogates code low :: cs, rest)
                    else none
                | _ => none
              else (readChars rest).map fun (cs, rest) => (Char.ofNat code :: cs, rest)
          | _, _ => none
    else if c.toNat < 0x20 then none
    else (readChars rest).map fun (cs, rest) => (c :: cs, rest)

def readString : List Char → Option (String × List Char)
  | '"' :: rest => (readChars rest).map fun (cs, rest) => (String.ofList cs, rest)
  | _ => none

def digitValue (c : Char) : Nat := c.toNat - 48

/-- Appends digits to a significand as long as it stays below `2 ^ 64`; the count is that of the
digits appended. -/
def appendDigits (significand count : Nat) : List Char → Nat × Nat × List Char
  | [] => (significand, count, [])
  | c :: rest =>
    if c.isDigit ∧ significand * 10 + digitValue c < UInt64.size then
      appendDigits (significand * 10 + digitValue c) (count + 1) rest
    else (significand, count, c :: rest)

def readPower (text : List Char) : Option (Int × List Char) :=
  let (negative, text) := match text with
    | '+' :: rest => (false, rest)
    | '-' :: rest => (true, rest)
    | rest => (false, rest)
  let digits := text.takeWhile Char.isDigit
  let power := digits.foldl (fun n c => 10 * n + digitValue c) 0
  if digits.isEmpty then none
  else some (if negative then -(power : Int) else power, text.dropWhile Char.isDigit)

/-- The end of a double: an exponent may follow, and the parts are put together. -/
def readDouble (negative : Bool) (significand : Nat) (power : Int) (text : List Char) :
    Option (Json × List Char) :=
  let double (power : Int) (rest : List Char) :=
    (Double.ofParts? negative significand power).map fun d => (.num (.double d), rest)
  match text with
  | c :: rest =>
    if c = 'e' ∨ c = 'E' then
      match readPower rest with
      | some (p, rest) => double (power + p) rest
      | none => none
    else double power text
  | [] => double power text

/-- The fraction behind a point. Digits that the significand has no room for are dropped, but the
first one has to be there. -/
def readFraction (negative : Bool) (significand : Nat) (power : Int) (text : List Char) :
    Option (Json × List Char) :=
  match text with
  | c :: _ =>
    if c.isDigit then
      let (significand, count, rest) := appendDigits significand 0 text
      readDouble negative significand (power - count) (rest.dropWhile Char.isDigit)
    else none
  | [] => none

/-- A number without its sign. Integer digits that the significand has no room for raise the
power instead, and the number is a double; so is a negative zero. -/
def readUnsigned (negative : Bool) (text : List Char) : Option (Json × List Char) :=
  let (significand, count, rest) := appendDigits 0 0 text
  let excess := rest.takeWhile Char.isDigit
  let rest := rest.dropWhile Char.isDigit
  if count = 0 ∨ (text.head? = some '0' ∧ 1 < count + excess.length) then none
  else
    match rest with
    | '.' :: fraction => readFraction negative significand excess.length fraction
    | _ =>
      if rest.head? = some 'e' ∨ rest.head? = some 'E' ∨ excess ≠ [] then
        readDouble negative significand excess.length rest
      else if negative ∧ significand = 0 then readDouble negative significand 0 rest
      else
        match Integer.ofInt? (if negative then -significand else significand) with
        | some n => some (.num (.int n), rest)
        | none => readDouble negative significand 0 rest

def readNumber : List Char → Option (Json × List Char)
  | '-' :: rest => readUnsigned true rest
  | text => readUnsigned false text

/-- Items up to the closing bracket, each read by `item`. At least one follows. -/
def readItems (item : List Char → Option (Json × List Char)) :
    Nat → List Char → Option (List Json × List Char)
  | 0, _ => none
  | fuel + 1, text =>
    match item text with
    | none => none
    | some (v, rest) =>
      match skipGaps rest with
      | ',' :: rest => (readItems item fuel rest).map fun (vs, rest) => (v :: vs, rest)
      | ']' :: rest => some ([v], rest)
      | _ => none

/-- Fields up to the closing brace. At least one follows. -/
def readFields (item : List Char → Option (Json × List Char)) :
    Nat → List Char → Option (List (String × Json) × List Char)
  | 0, _ => none
  | fuel + 1, text =>
    match readString (skipGaps text) with
    | none => none
    | some (name, rest) =>
      match skipGaps rest with
      | ':' :: rest =>
        match item rest with
        | none => none
        | some (v, rest) =>
          match skipGaps rest with
          | ',' :: rest =>
            (readFields item fuel rest).map fun (fields, rest) => ((name, v) :: fields, rest)
          | '}' :: rest => some ([(name, v)], rest)
          | _ => none
      | _ => none

def readScalar (text : List Char) : Option (Json × List Char) :=
  match text with
  | 'n' :: 'u' :: 'l' :: 'l' :: rest => some (.null, rest)
  | 't' :: 'r' :: 'u' :: 'e' :: rest => some (.bool true, rest)
  | 'f' :: 'a' :: 'l' :: 's' :: 'e' :: rest => some (.bool false, rest)
  | '"' :: rest => (readChars rest).map fun (cs, rest) => (.str (String.ofList cs), rest)
  | _ => readNumber text

/-- One value in front of other text, with at most `limit` containers around its innermost part. -/
def readValue : (limit : Nat) → List Char → Option (Json × List Char)
  | 0, text => readScalar (skipGaps text)
  | limit + 1, text =>
    match skipGaps text with
    | '[' :: rest =>
      match skipGaps rest with
      | ']' :: rest => some (.arr [], rest)
      | _ => (readItems (readValue limit) rest.length rest).map fun (vs, rest) => (.arr vs, rest)
    | '{' :: rest =>
      match skipGaps rest with
      | '}' :: rest => some (.obj [], rest)
      | _ => (readFields (readValue limit) rest.length rest).map fun (fields, rest) =>
          (.obj (Fields.ofList fields), rest)
    | text => readScalar text

def readWithin? (limit : Nat) (text : List Char) : Option Json :=
  match readValue limit text with
  | some (v, rest) => if (skipGaps rest).isEmpty then some v else none
  | none => none

/-- The deepest nesting of containers that a text may have. -/
def nestingLimit : Nat := 127

def read? (text : List Char) : Option Json := readWithin? nestingLimit text

end TreePath.Json

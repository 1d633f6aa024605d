import TreePath.Decimal.Layout
import TreePath.Text.Alphanumeric
import TreePath.Text.Character

namespace TreePath.Key

open Text (hexCode isAlphanumeric isControl)

/-- A text of digits, with an optional minus in front, reads as a position. -/
def isInteger (text : List Char) : Bool :=
  let digits := match text with
    | '-' :: rest => rest
    | _ => text
  !digits.isEmpty && digits.all Char.isDigit

def isBareChar (c : Char) : Bool :=
  isAlphanumeric c || c = '_' || c = '-' || c = '#' || c = '~' || c = '+'

def needsQuotes (key : List Char) : Bool :=
  key.isEmpty || isInteger key || !key.all isBareChar

/-- The quote, the backslash and controls are escaped, all else stands for itself. -/
def escape (c : Char) : List Char :=
  if c = '\'' then ['\\', '\'']
  else if c = '\\' then ['\\', '\\']
  else if c = '\n' then ['\\', 'n']
  else if c = '\r' then ['\\', 'r']
  else if c = '\t' then ['\\', 't']
  else if isControl c then '\\' :: 'u' :: hexCode c.toNat
  else [c]

def quote (key : List Char) : List Char := '\'' :: (key.flatMap escape ++ ['\''])

def render (key : String) : List Char :=
  if needsQuotes key.toList then quote key.toList else key.toList

end TreePath.Key

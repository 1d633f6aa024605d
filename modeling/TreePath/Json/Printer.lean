import TreePath.Decimal.Layout
import TreePath.Json.Basic
import TreePath.Text.Character

namespace TreePath.Json

open Text (hexCode)

/-- Doubles always show a point or an exponent, and an exponent always shows its sign. Powers of
ten from `-5` to `15` are written positionally. -/
def doubleLayout : Decimal.Layout where
  plainFrom := -5
  plainBelow := 16
  wholeEnd := ['.', '0']
  mark := 'e'
  plus := ['+']

def renderDouble (d : Double) : List Char :=
  let text := if d.isZero then ['0', '.', '0'] else doubleLayout.text d.shortest
  if d.isNegative then '-' :: text else text

def renderNumber : Number → List Char
  | .int n => Decimal.intText n.value
  | .double d => renderDouble d

/-- Quotes, backslashes and characters below U+0020 are escaped, with the short form of an escape
where there is one. -/
def escape (c : Char) : List Char :=
  if c = '"' then ['\\', '"']
  else if c = '\\' then ['\\', '\\']
  else if c = '\n' then ['\\', 'n']
  else if c = '\r' then ['\\', 'r']
  else if c = '\t' then ['\\', 't']
  else if c.toNat = 8 then ['\\', 'b']
  else if c.toNat = 12 then ['\\', 'f']
  else if c.toNat < 0x20 then '\\' :: 'u' :: hexCode c.toNat
  else [c]

def renderString (s : String) : List Char :=
  '"' :: (s.toList.flatMap escape ++ ['"'])

mutual

def render : Json → List Char
  | .null => ['n', 'u', 'l', 'l']
  | .bool true => ['t', 'r', 'u', 'e']
  | .bool false => ['f', 'a', 'l', 's', 'e']
  | .num n => renderNumber n
  | .str s => renderString s
  | .arr items => '[' :: (renderItems items ++ [']'])
  | .obj fields => '{' :: (renderFields fields ++ ['}'])

/-- Items with commas between them. -/
def renderItems : List Json → List Char
  | [] => []
  | [v] => v.render
  | v :: w :: rest => v.render ++ ',' :: renderItems (w :: rest)

def renderFields : List (String × Json) → List Char
  | [] => []
  | [(name, v)] => renderString name ++ ':' :: v.render
  | (name, v) :: field :: rest =>
    renderString name ++ ':' :: (v.render ++ ',' :: renderFields (field :: rest))

end

def toText (v : Json) : String := String.ofList v.render

end TreePath.Json

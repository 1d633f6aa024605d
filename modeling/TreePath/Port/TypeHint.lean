import TreePath.Json.Basic

namespace TreePath

/-- What a port is declared to hold. Hints are recorded and never enforced. -/
inductive TypeHint where
  | mapping | sequence | string | number | bool | null | any
  | named (name : String)
  deriving DecidableEq, Repr

namespace TypeHint

/-- The hints that need no name of their own. -/
def plain : List TypeHint := [mapping, sequence, string, number, bool, null, any]

def toText : TypeHint → String
  | mapping => "mapping"
  | sequence => "sequence"
  | string => "string"
  | number => "number"
  | bool => "bool"
  | null => "null"
  | any => "any"
  | named name => name

/-- A plain hint is written as its name, another one as a field. -/
def toJson : TypeHint → Json
  | named name => .obj [("named", .str name)]
  | hint => .str hint.toText

def ofText? (text : String) : Option TypeHint := plain.find? fun hint => hint.toText == text

/-- Reads a hint. A plain one may also be written as a field that holds null. -/
def ofJson? : Json → Option TypeHint
  | .str text => ofText? text
  | .obj [("named", .str name)] => some (named name)
  | .obj [(text, .null)] => ofText? text
  | _ => none

end TypeHint

end TreePath

import TreePath.Json.Printer
import TreePath.Path.Basic
import TreePath.Path.Key

namespace TreePath

/-- Some tags have a sign of their own; the others show their name. -/
def Tag.render : Tag → List Char
  | .children => ['*']
  | .descendants => ['*', '*']
  | .current => ['.']
  | .parent => ['.', '.']
  | .ancestors => ['.', '.', '.']
  | t => '$' :: t.name.toList

def Slice.renderBound : Option Int64 → List Char
  | none => []
  | some n => Decimal.intText n.toInt

def Slice.render (s : Slice) : List Char :=
  if s.isFull then ['*']
  else
    let step := match s.step with
      | none => []
      | some n => ':' :: Decimal.intText n.toInt
    renderBound s.start ++ ':' :: (renderBound s.stop ++ step)

/-- A value in a query; an object is marked so that it is not taken for a query. -/
def Json.renderExpected (v : Json) : List Char :=
  match v with
  | .obj _ => '=' :: v.render
  | _ => v.render

/-- The key of an entry, from the text of its path. The empty path is a lone point, so the current
marker, of which that is the sign, shows its name. -/
def queryKey (p : List Segment) (text : List Char) : List Char :=
  match p with
  | [] => ['.']
  | [.tag .current] => '$' :: Tag.current.name.toList
  | _ => text

mutual

def Segment.render : Segment → List Char
  | .key name => Key.render name
  | .index i => Decimal.intText i.toInt
  | .tag t => t.render
  | .slice s => '[' :: (s.render ++ [']'])
  | .predicate query => '[' :: '{' :: (renderEntries query ++ ['}', ']'])
  | .union alternatives true => '[' :: '{' :: (renderPaths alternatives ++ ['}', ']'])
  | .union alternatives false => '[' :: '[' :: (renderPaths alternatives ++ [']', ']'])
  | .tuple members => '[' :: '(' :: (renderMembers members ++ [')', ']'])

/-- The segments behind the first hop: all but bracketed ones have a slash in front. -/
def renderHops : List Segment → List Char
  | [] => []
  | s :: rest =>
    (if s.isBracketed then s.render else '/' :: s.render) ++ renderHops rest

/-- A path without a leading root. -/
def renderRelative : List Segment → List Char
  | [] => []
  | s :: rest => s.render ++ renderHops rest

/-- A path; a leading root is the slash in front of the first hop. -/
def renderPath : List Segment → List Char
  | [] => []
  | .tag .root :: rest => '/' :: renderRelative rest
  | s :: rest => s.render ++ renderHops rest

/-- Paths with commas between them. -/
def renderPaths : List (List Segment) → List Char
  | [] => []
  | [p] => renderPath p
  | p :: q :: rest => renderPath p ++ ',' :: ' ' :: renderPaths (q :: rest)

/-- Segments with commas between them. -/
def renderMembers : List Segment → List Char
  | [] => []
  | [s] => s.render
  | s :: t :: rest => s.render ++ ',' :: ' ' :: renderMembers (t :: rest)

/-- Entries with commas between them. -/
def renderEntries : List (List Segment × Expected) → List Char
  | [] => []
  | [(p, e)] => queryKey p (renderPath p) ++ ':' :: ' ' :: e.render
  | (p, e) :: entry :: rest =>
    queryKey p (renderPath p) ++
      ':' :: ' ' :: (e.render ++ ',' :: ' ' :: renderEntries (entry :: rest))

def Expected.render : Expected → List Char
  | .value v => v.renderExpected
  | .query q => '?' :: '{' :: (renderEntries q ++ ['}'])

end

def renderQuery (q : Query) : List Char := '{' :: (renderEntries q ++ ['}'])

def Segment.toText (s : Segment) : String := String.ofList s.render

def Path.toText (p : Path) : String := String.ofList (renderPath p)

def Query.toText (q : Query) : String := String.ofList (renderQuery q)

end TreePath

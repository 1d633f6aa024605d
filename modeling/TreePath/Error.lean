import TreePath.Config
import TreePath.Path.Parser
import TreePath.Path.Printer
import TreePath.Tree.Access

namespace TreePath

/-- A read of something that is not there is no error; what is left are malformed texts, writes that
cannot be done, ports that have nothing to fetch, and invalid settings. -/
inductive PathError where
  /-- The text of a path is malformed. -/
  | parse (text : String) (fault : Fault)
  /-- A position so far behind the end of a sequence that too many slots would have to be filled. -/
  | gapTooLarge (path : Path) (index : Int64) (gap limit : Nat)
  /-- A position in front of the start of a sequence. -/
  | beforeStart (path : Path) (index : Int64) (size : Nat)
  /-- A value that a node which only holds numbers does not take. -/
  | notNumber (key : Option ChildKey) (value : Json)
  /-- A write that would have to go on below a leaf. -/
  | notContainer (path : Path) (kind : NodeKind)
  /-- A segment that a write cannot apply to where it stands. -/
  | unsupportedTarget (path : Path) (segment : Segment)
  /-- A port that no node is bound to. -/
  | unbound (fragment : Path)
  /-- A port whose fragment leads nowhere. -/
  | nothingFound (fragment : Path)
  | config (error : ConfigError)

namespace PathError

def message : PathError → String
  | parse text fault =>
    "invalid path '" ++ text ++ "': " ++ fault.reason.message ++ " at position " ++
      toString fault.position
  | gapTooLarge path index gap limit =>
    path.toText ++ ": index " ++ toString index.toInt ++ " would pad " ++ toString gap ++
      " slots, limit is " ++ toString limit
  | beforeStart path index size =>
    path.toText ++ ": index " ++ toString index.toInt ++ " is out of range for " ++
      toString size ++ " elements"
  | notNumber key value =>
    (key.map ChildKey.toText).getD "" ++ ": expected a number, got " ++ value.toText
  | notContainer path kind => "cannot descend into " ++ kind.name ++ " at '" ++ path.toText ++ "'"
  | unsupportedTarget path segment =>
    "unsupported write target at '" ++ path.toText ++ "': " ++ segment.toText
  | unbound fragment =>
    "fetch failed for '" ++ fragment.toText ++ "': port is not bound to a node"
  | nothingFound fragment =>
    "fetch failed for '" ++ fragment.toText ++ "': nothing found at the fragment"
  | config error => error.message

end PathError

/-- The path that a text denotes. -/
def Path.parse (text : String) : Except PathError Path :=
  (Path.read text).mapError (.parse text)

/-- The query that a text denotes, which is read between brackets. A text that is something else
than one query is refused as a whole. -/
def Query.parse (text : String) : Except PathError Query := do
  match ← Path.parse ("[" ++ text ++ "]") with
  | [.predicate query] => return query
  | _ => throw (.parse text ⟨.notPredicate, 0⟩)

/-- The path with the segments of a text behind it; a key at the start of the text continues a key
at the end of the path. -/
def Path.withSuffix (p : Path) (text : String) : Except PathError Path :=
  (Path.parse text).map p.glue

end TreePath

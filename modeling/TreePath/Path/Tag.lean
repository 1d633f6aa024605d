namespace TreePath

/-- Reserved markers in a path. Structural ones move through the tree, the others name an operation
on what the path leads to. -/
inductive Tag where
  | root | parent | children | ancestors | descendants | siblings | current | next | prev
  | find | update | insert | remove | count | exists | search | call | isLeaf | isList | isDict
  | keys
  deriving DecidableEq, Repr

namespace Tag

/-- Every tag, the structural ones first. -/
def all : List Tag :=
  [root, parent, children, ancestors, descendants, siblings, current, next, prev, find, update,
    insert, remove, count, .exists, search, call, isLeaf, isList, isDict, keys]

/-- The name that stands behind the sign `$`. -/
def name : Tag → String
  | root => "root"
  | parent => "parent"
  | children => "children"
  | ancestors => "ancestors"
  | descendants => "descendants"
  | siblings => "siblings"
  | current => "current"
  | next => "next"
  | prev => "prev"
  | find => "find"
  | update => "update"
  | insert => "insert"
  | remove => "remove"
  | count => "count"
  | .exists => "exists"
  | search => "search"
  | call => "call"
  | isLeaf => "is_leaf"
  | isList => "is_list"
  | isDict => "is_dict"
  | keys => "keys"

def ofName? (name : String) : Option Tag := all.find? fun t => t.name == name

/-- Structural tags say where to go. -/
def isStructural : Tag → Bool
  | root | parent | children | ancestors | descendants | siblings | current | next | prev => true
  | _ => false

/-- The other tags say what to do there. -/
def isOperation (t : Tag) : Bool := !t.isStructural

/-- Tags that lead to several places at once. -/
def isFanOut : Tag → Bool
  | children | descendants | siblings => true
  | _ => false

theorem ofName?_name (t : Tag) : ofName? t.name = some t := by cases t <;> decide

end Tag

end TreePath

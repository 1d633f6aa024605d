import TreePath.Walk.Basic

namespace TreePath

open TreeAccess

/-- What is asked about the place that a path leads to. -/
inductive Operation where
  /-- The value there. -/
  | fetch
  /-- Whether there is something. -/
  | exists
  /-- The number of children; one for a leaf and zero for nothing. -/
  | count
  /-- The names or positions of the children. -/
  | keys
  | isLeaf | isList | isDict
  /-- The name or position of the first child that matches a query. -/
  | search (query : Query)
  /-- The answer of a callable node. -/
  | call (args : List Json)
  /-- What a function makes of the value there, or of its absence. -/
  | apply (f : Option Json → Option Json)

/-- A key as a value. The position of an element is a number, and so is a name that is written like
one, when it stands in a sequence. -/
def keyValue (kind : NodeKind) (key : ChildKey) : Json :=
  match kind, key with
  | .sequence, .index i => .ofNat i
  | .sequence, .name n => ((ChildKey.readPosition? n).map Json.ofNat).getD (.str n)
  | _, key => .str key.toText

namespace Operation

/-- The operation that a tag at the end of a path asks for; tags that write ask for none. -/
def ofTag? : Tag → Option Operation
  | .find => some fetch
  | .exists => some .exists
  | .count => some count
  | .keys => some keys
  | .isLeaf => some isLeaf
  | .isList => some isList
  | .isDict => some isDict
  | .search => some (search [])
  | .call => some (call [])
  | _ => none

end Operation

namespace Resolved

variable {ν : Type} [TreeAccess ν]

def count : Resolved ν → Nat
  | absent => 0
  | node n => if (kind n).isContainer then size n else 1
  | value v => if v.kind.isContainer then v.size else 1

def keys? : Resolved ν → Option (List Json)
  | absent => none
  | node n => some ((TreeAccess.entries n).map fun entry => keyValue (kind n) entry.1)
  | value v => some (v.childKeys.map (keyValue v.kind))

/-- The key of the first of the children that matches a query. -/
def firstMatch (config : Config) (query : Query) (kind : NodeKind)
    (children : List (ChildKey × ν)) : Guarded (Option Json) := do
  let found ← children.findM? fun entry => meets config query entry.2
  return found.map fun entry => keyValue kind entry.1

def search (config : Config) (query : Query) : Resolved ν → Guarded (Option Json)
  | absent => return none
  | node n => firstMatch config query (kind n) (TreeAccess.entries n)
  | value v => firstMatch config query v.kind v.children

def call? (args : List Json) : Resolved ν → Option Json
  | node n => TreeAccess.call? n args
  | _ => none

/-- The answer of an operation to where a walk has ended. -/
def answer (config : Config) (operation : Operation) (r : Resolved ν) : Guarded (Option Json) :=
  match operation with
  | .fetch => return r.toJson?
  | .exists => return some (.bool (!r.isAbsent))
  | .count => return some (.ofNat r.count)
  | .keys => return r.keys?.map Json.arr
  | .isLeaf => return some (.bool (r.kind? == some .leaf))
  | .isList => return some (.bool (r.kind? == some .sequence))
  | .isDict => return some (.bool (r.kind? == some .mapping))
  | .search query => r.search config query
  | .call args => return r.call? args
  | .apply f => return f r.toJson?

end Resolved

end TreePath

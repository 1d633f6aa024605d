import TreePath.Json.Basic
import TreePath.Path.ChildKey

namespace TreePath

inductive NodeKind where
  | mapping | sequence | leaf
  deriving DecidableEq, Repr

namespace NodeKind

def name : NodeKind → String
  | mapping => "mapping"
  | sequence => "sequence"
  | leaf => "leaf"

def ofName? (name : String) : Option NodeKind :=
  [mapping, sequence, leaf].find? fun k => k.name == name

def isContainer (k : NodeKind) : Bool := k != leaf

/-- The empty container of a kind; a leaf without a value is null. -/
def emptyValue : NodeKind → Json
  | mapping => .obj []
  | sequence => .arr []
  | leaf => .null

end NodeKind

namespace Json

def kind : Json → NodeKind
  | .obj _ => .mapping
  | .arr _ => .sequence
  | _ => .leaf

/-- The child at a key. A mapping takes a position for the name that it is written as. -/
def child? : Json → ChildKey → Option Json
  | .obj fields, key => Fields.find? fields key.asName
  | .arr items, .index i => items[i]?
  | _, _ => none

/-- How many children stand in front of the one at a key. -/
def position? : Json → ChildKey → Option Nat
  | .obj fields, key => Fields.position? fields key.asName
  | .arr items, .index i => if i < items.length then some i else none
  | _, _ => none

/-- The children with their keys, in order. -/
def children : Json → List (ChildKey × Json)
  | .obj fields => fields.map fun (name, v) => (.name name, v)
  | .arr items => items.zipIdx.map fun (v, i) => (.index i, v)
  | _ => []

def childKeys (v : Json) : List ChildKey := v.children.map (·.1)

/-- The number of children. -/
def size : Json → Nat
  | .obj fields => fields.length
  | .arr items => items.length
  | _ => 0

end Json

/-- What tells two nodes of one tree apart, where something does. -/
abbrev Identity := List Nat

/-- The read side of a node. -/
class TreeAccess (ν : Type) where
  kind : ν → NodeKind
  child? : ν → ChildKey → Option ν
  /-- The children in the order of their container. -/
  entries : ν → List (ChildKey × ν)
  size : ν → Nat
  parent? : ν → Option ν
  /-- Nodes that have an identity are recognized when a walk meets them again. -/
  identity? : ν → Option Identity
  /-- The whole of what is below the node. -/
  toJson : ν → Json
  /-- Invokes a callable node. -/
  call? : ν → List Json → Option Json

/-- A plain value knows nothing of what is above it. -/
instance : TreeAccess Json where
  kind := Json.kind
  child? := Json.child?
  entries := Json.children
  size := Json.size
  parent? _ := none
  identity? _ := none
  toJson v := v
  call? _ _ := none

end TreePath

import TreePath.Tree.Access

namespace TreePath

/-- The value at a place, and the containers above it, the closest one first. With each container
stands the position of the child through which the way goes on. -/
structure Cursor where
  node : Json
  trail : List (Json × Nat)

namespace Cursor

/-- The top of a value. -/
def top (v : Json) : Cursor := ⟨v, []⟩

def depth (c : Cursor) : Nat := c.trail.length

/-- The cursor one step down, at the child in the given position. -/
def down (c : Cursor) (position : Nat) (child : Json) : Cursor :=
  ⟨child, (c.node, position) :: c.trail⟩

def child? (c : Cursor) (key : ChildKey) : Option Cursor :=
  match c.node.child? key, c.node.position? key with
  | some child, some position => some (c.down position child)
  | _, _ => none

def entries (c : Cursor) : List (ChildKey × Cursor) :=
  c.node.children.zipIdx.map fun ((key, child), position) => (key, c.down position child)

def parent? (c : Cursor) : Option Cursor :=
  match c.trail with
  | [] => none
  | (node, _) :: trail => some ⟨node, trail⟩

/-- The positions that lead to the cursor identify it within its tree. -/
def place (c : Cursor) : Identity := c.trail.map (·.2)

/-- Follows a chain of keys downwards. -/
def descend? (c : Cursor) (keys : List ChildKey) : Option Cursor := keys.foldlM child? c

end Cursor

instance : TreeAccess Cursor where
  kind c := c.node.kind
  child? := Cursor.child?
  entries := Cursor.entries
  size c := c.node.size
  parent? := Cursor.parent?
  identity? c := some c.place
  toJson c := c.node
  call? _ _ := none

end TreePath

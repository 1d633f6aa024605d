import TreePath.Tree.Access

namespace TreePath

/-- One row of the table; other nodes are named by their rows. -/
structure GraphRow where
  kind : NodeKind
  entries : List (ChildKey × Nat)
  parent : Option Nat
  identity : Option Nat
  value : Json

/-- A node of a graph, with the graph. -/
structure GraphNode where
  rows : Array GraphRow
  row : Nat

namespace GraphNode

/-- The node's row; a row that is missing is a leaf without value. -/
def data (n : GraphNode) : GraphRow := n.rows[n.row]?.getD ⟨.leaf, [], none, none, .null⟩

def goto (n : GraphNode) (row : Nat) : GraphNode := { n with row }

end GraphNode

instance : TreeAccess GraphNode where
  kind n := n.data.kind
  child? n key := (n.data.entries.find? fun entry => entry.1 == key).map fun entry => n.goto entry.2
  entries n := n.data.entries.map fun (key, row) => (key, n.goto row)
  size n := n.data.entries.length
  parent? n := n.data.parent.map n.goto
  identity? n := n.data.identity.map fun i => [i]
  toJson n := n.data.value
  call? _ _ := none

end TreePath

import TreePath.Tree.Access

namespace TreePath

/-- What a cell holds; children are named by their cells. -/
inductive Content where
  | mapping (fields : List (String × Nat))
  | sequence (items : List Nat)
  | leaf (value : Json)
  | function (f : List Json → Json)

structure Cell where
  parent : Option Nat
  content : Content

/-- Trees with shared nodes. The nodes are cells and know their parents; a node keeps its identity
when its content is replaced, and every operation keeps the links of both directions together. -/
structure Heap where
  cells : Array Cell

namespace Content

def kind : Content → NodeKind
  | mapping _ => .mapping
  | sequence _ => .sequence
  | leaf _ => .leaf
  | function _ => .leaf

def entries : Content → List (ChildKey × Nat)
  | mapping fields => fields.map fun (name, i) => (.name name, i)
  | sequence items => items.zipIdx.map fun (i, position) => (.index position, i)
  | leaf _ => []
  | function _ => []

def children (c : Content) : List Nat := c.entries.map (·.2)

def size : Content → Nat
  | mapping fields => fields.length
  | sequence items => items.length
  | leaf _ => 0
  | function _ => 0

def child? : Content → ChildKey → Option Nat
  | mapping fields, key => Fields.find? fields key.asName
  | sequence items, .index i => items[i]?
  | _, _ => none

end Content

namespace Heap

def empty : Heap := ⟨#[]⟩

/-- What a cell holds; there is nothing in a cell that does not exist. -/
def content (h : Heap) (i : Nat) : Content :=
  match h.cells[i]? with
  | some cell => cell.content
  | none => .leaf .null

def parent? (h : Heap) (i : Nat) : Option Nat := h.cells[i]?.bind (·.parent)

def kind (h : Heap) (i : Nat) : NodeKind := (h.content i).kind

def child? (h : Heap) (i : Nat) (key : ChildKey) : Option Nat := (h.content i).child? key

def childKeys (h : Heap) (i : Nat) : List ChildKey := (h.content i).entries.map (·.1)

/-- A leaf that holds null stands for a missing value. -/
def isVacant (h : Heap) (i : Nat) : Bool :=
  match h.content i with
  | .leaf v => v.isNull
  | _ => false

def setParent (h : Heap) (i : Nat) (parent : Option Nat) : Heap :=
  ⟨h.cells.modify i fun cell => { cell with parent }⟩

def setContent (h : Heap) (i : Nat) (content : Content) : Heap :=
  ⟨h.cells.modify i fun cell => { cell with content }⟩

def attach (h : Heap) (parent : Nat) (children : List Nat) : Heap :=
  children.foldl (fun h i => h.setParent i (some parent)) h

def detach (h : Heap) (children : List Nat) : Heap :=
  children.foldl (fun h i => h.setParent i none) h

/-- A new cell behind the others, which is the parent of what it holds. -/
def alloc (h : Heap) (content : Content) : Nat × Heap :=
  let i := h.cells.size
  (i, (⟨h.cells.push ⟨none, content⟩⟩ : Heap).attach i content.children)

/-- Gives a cell new content: the new children are taken in, and then the old ones are let go. -/
def replaceContent (h : Heap) (i : Nat) (content : Content) : Heap :=
  let old := (h.content i).children
  ((h.attach i content.children).setContent i content).detach old

mutual

/-- The content for a value, with new cells for everything below it. -/
def contentOf (h : Heap) : Json → Content × Heap
  | .obj fields => let (fields, h) := h.fieldsOf fields; (.mapping fields, h)
  | .arr items => let (items, h) := h.itemsOf items; (.sequence items, h)
  | .null => (.leaf .null, h)
  | .bool b => (.leaf (.bool b), h)
  | .num n => (.leaf (.num n), h)
  | .str s => (.leaf (.str s), h)

def itemsOf (h : Heap) : List Json → List Nat × Heap
  | [] => ([], h)
  | v :: rest =>
    let (content, h) := h.contentOf v
    let (i, h) := h.alloc content
    let (is, h) := h.itemsOf rest
    (i :: is, h)

def fieldsOf (h : Heap) : List (String × Json) → List (String × Nat) × Heap
  | [] => ([], h)
  | (name, v) :: rest =>
    let (content, h) := h.contentOf v
    let (i, h) := h.alloc content
    let (fields, h) := h.fieldsOf rest
    ((name, i) :: fields, h)

end

/-- A new tree for a value. -/
def ofJson (h : Heap) (v : Json) : Nat × Heap :=
  let (content, h) := h.contentOf v
  h.alloc content

/-- Replaces what is in and below a cell by a value; the cell stays the same one. -/
def set (h : Heap) (i : Nat) (v : Json) : Heap :=
  let (content, h) := h.contentOf v
  h.replaceContent i content

/-- The value in and below a cell, read down to the given depth. -/
def toJsonWithin (h : Heap) : (depth : Nat) → Nat → Json
  | 0, _ => .null
  | depth + 1, i =>
    match h.content i with
    | .mapping fields => .obj (fields.map fun (name, i) => (name, h.toJsonWithin depth i))
    | .sequence items => .arr (items.map (h.toJsonWithin depth))
    | .leaf v => v
    | .function _ => .null

/-- The value in and below a cell. No tree is deeper than there are cells. -/
def toJson (h : Heap) (i : Nat) : Json := h.toJsonWithin h.cells.size i

/-- Puts a child into a mapping, and returns the one that it replaces. A vacant node becomes a
mapping first; into any other node nothing is put, and the child itself comes back. What comes back
has no parent. -/
def insert (h : Heap) (i : Nat) (name : String) (child : Nat) : Option Nat × Heap :=
  let h := if h.isVacant i then h.replaceContent i (.mapping []) else h
  let h := h.attach i [child]
  match h.content i with
  | .mapping fields =>
    let previous := Fields.find? fields name
    let h := h.setContent i (.mapping (Fields.insert fields name child))
    (previous, h.detach previous.toList)
  | _ => (some child, h.detach [child])

/-- Puts a child behind the others of a sequence. A vacant node becomes a sequence first; other
nodes refuse. -/
def push (h : Heap) (i : Nat) (child : Nat) : Bool × Heap :=
  let h := if h.isVacant i then h.replaceContent i (.sequence []) else h
  match h.content i with
  | .sequence items => (true, (h.attach i [child]).setContent i (.sequence (items ++ [child])))
  | _ => (false, h)

/-- Takes a child out of its container. -/
def remove (h : Heap) (i : Nat) (key : ChildKey) : Option Nat × Heap :=
  match h.content i, key with
  | .mapping fields, key =>
    match Fields.find? fields key.asName with
    | some child =>
      (some child, (h.setContent i (.mapping (Fields.erase fields key.asName))).detach [child])
    | none => (none, h)
  | .sequence items, .index position =>
    match items[position]? with
    | some child =>
      (some child, (h.setContent i (.sequence (items.eraseIdx position))).detach [child])
    | none => (none, h)
  | _, _ => (none, h)

/-- Puts vacant leaves behind the elements of a sequence, as many as are asked for. -/
def pad (h : Heap) (i : Nat) : (count : Nat) → Heap
  | 0 => h
  | count + 1 =>
    let (leaf, h) := h.alloc (.leaf .null)
    (h.push i leaf).2.pad i count

/-- The element of a sequence at a position, up to which the sequence is filled with vacant leaves
when it is shorter. -/
def slot (h : Heap) (i position : Nat) : Option Nat × Heap :=
  match h.content i with
  | .sequence items =>
    let h := h.pad i (position + 1 - items.length)
    (h.child? i (.index position), h)
  | _ => (none, h)

end Heap

/-- A node of a heap, with the heap. -/
structure HeapNode where
  heap : Heap
  cell : Nat

namespace HeapNode

def goto (n : HeapNode) (cell : Nat) : HeapNode := { n with cell }

/-- The top of a new tree for a value, alone on its heap. -/
def ofJson (v : Json) : HeapNode :=
  let (cell, heap) := Heap.empty.ofJson v
  ⟨heap, cell⟩

end HeapNode

instance : TreeAccess HeapNode where
  kind n := n.heap.kind n.cell
  child? n key := (n.heap.child? n.cell key).map n.goto
  entries n := (n.heap.content n.cell).entries.map fun (key, i) => (key, n.goto i)
  size n := (n.heap.content n.cell).size
  parent? n := (n.heap.parent? n.cell).map n.goto
  identity? n := some [n.cell]
  toJson n := n.heap.toJson n.cell
  call? n args :=
    match n.heap.content n.cell with
    | .function f => some (f args)
    | _ => none

end TreePath

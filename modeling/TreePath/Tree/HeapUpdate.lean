import TreePath.Tree.Heap
import TreePath.Tree.Update

namespace TreePath

namespace Heap

def ensureContainer (kind : NodeKind) (h : Heap) (i : Nat) : Bool × Heap :=
  let h := if h.isVacant i then h.set i kind.emptyValue else h
  ((h.kind i).isContainer, h)

/-- The cell for a child, which is made when it is missing. -/
def ensureSlot (key : ChildKey) (h : Heap) (i : Nat) : Option Nat × Heap :=
  match h.content i, key with
  | .mapping fields, key =>
    match Fields.find? fields key.asName with
    | some child => (some child, h)
    | none =>
      let (child, h) := h.alloc (.leaf .null)
      (some child, (h.insert i key.asName child).2)
  | .sequence _, .index position => h.slot i position
  | _, _ => (none, h)

def ensureChild (key : ChildKey) (kind : NodeKind) (h : Heap) (i : Nat) : Bool × Heap :=
  match h.ensureSlot key i with
  | (some child, h) => (true, if h.isVacant child then h.set child kind.emptyValue else h)
  | (none, h) => (false, h)

/-- The value of a cell as a patch takes it: a vacant one holds nothing. -/
def present? (h : Heap) (i : Nat) : Option Json :=
  if h.isVacant i then none else some (h.toJson i)

/-- Applies a patch to a cell, and counts what has changed. -/
def patched (patch : Patch) (h : Heap) (i : Nat) : Nat × Heap :=
  match patch.resolve (h.present? i) with
  | some v => (1, h.set i v)
  | none => (if h.isVacant i then 0 else 1, h.set i .null)

/-- Puts a value at a key for which there is no child yet, and counts it if that is possible. -/
def putNew (key : ChildKey) (v : Json) (h : Heap) (i : Nat) : Nat × Heap :=
  match h.content i, key with
  | .mapping _, key =>
    let (child, h) := h.ofJson v
    (1, (h.insert i key.asName child).2)
  | .sequence _, .index position =>
    match h.slot i position with
    | (some child, h) => (1, h.set child v)
    | (none, h) => (0, h)
  | _, _ => (0, h)

/-- Applies a patch to the child at a key, and counts what has changed. -/
def patchedChild (key : ChildKey) (patch : Patch) (h : Heap) (i : Nat) : Nat × Heap :=
  let existing := h.child? i key
  match patch.resolve (existing.bind h.present?) with
  | some v =>
    match existing with
    | some child => (1, h.set child v)
    | none => h.putNew key v i
  | none =>
    let (removed, h) := h.remove i key
    (if removed.isSome then 1 else 0, h)

end Heap

namespace HeapNode

/-- Takes a step on the heap. -/
def liftStep {α : Type} (f : Heap → Nat → α × Heap) (n : HeapNode) : α × HeapNode :=
  let x := f n.heap n.cell
  (x.1, { n with heap := x.2 })

def withChild (key : ChildKey) (x : Write HeapNode Nat) : Write HeapNode (Option Nat) := fun n =>
  match n.heap.child? n.cell key with
  | none => ⟨.ok none, n, 0⟩
  | some child =>
    let o := x (n.goto child)
    ⟨o.result.map some, o.tree.goto n.cell, o.trips⟩

end HeapNode

instance : TreeUpdate HeapNode where
  kind n := n.heap.kind n.cell
  snapshot n := n.heap.toJson n.cell
  isVacant n := n.heap.isVacant n.cell
  childKeys n := n.heap.childKeys n.cell
  childCount n := (n.heap.content n.cell).size
  childKind? n key :=
    (n.heap.child? n.cell key).bind fun i =>
      if n.heap.isVacant i then none else some (n.heap.kind i)
  childSnapshot? n key := (n.heap.child? n.cell key).map n.heap.toJson
  ensureContainer kind := HeapNode.liftStep (Heap.ensureContainer kind)
  ensureChild key kind := HeapNode.liftStep (Heap.ensureChild key kind)
  withChild := HeapNode.withChild
  apply key patch :=
    Write.step (HeapNode.liftStep
      (match key with | none => Heap.patched patch | some key => Heap.patchedChild key patch))

end TreePath

import TreePath.Tree.Heap

namespace TreePath.Heap

section Contents

@[simp] theorem size_setParent (h : Heap) (i : Nat) (parent : Option Nat) :
    (h.setParent i parent).cells.size = h.cells.size := by
  simp [setParent]

@[simp] theorem content_setParent (h : Heap) (i j : Nat) (parent : Option Nat) :
    (h.setParent i parent).content j = h.content j := by
  unfold content setParent
  rw [Array.getElem?_modify]
  by_cases hij : i = j
  · rw [if_pos hij]
    cases h.cells[j]? <;> rfl
  · rw [if_neg hij]

@[simp] theorem size_setContent (h : Heap) (i : Nat) (c : Content) :
    (h.setContent i c).cells.size = h.cells.size := by
  simp [setContent]

theorem content_setContent_of_ne (h : Heap) {i j : Nat} (c : Content) (hne : j ≠ i) :
    (h.setContent i c).content j = h.content j := by
  unfold content setContent
  rw [Array.getElem?_modify, if_neg (Ne.symm hne)]

theorem content_setContent_self (h : Heap) {i : Nat} (c : Content) (hi : i < h.cells.size) :
    (h.setContent i c).content i = c := by
  unfold content setContent
  rw [Array.getElem?_modify, if_pos rfl, Array.getElem?_eq_getElem hi]
  rfl

@[simp] theorem size_attach (h : Heap) (parent : Nat) (children : List Nat) :
    (h.attach parent children).cells.size = h.cells.size := by
  induction children generalizing h with
  | nil => rfl
  | cons i children ih =>
    change ((h.setParent i (some parent)).attach parent children).cells.size = _
    rw [ih, size_setParent]

@[simp] theorem content_attach (h : Heap) (parent j : Nat) (children : List Nat) :
    (h.attach parent children).content j = h.content j := by
  induction children generalizing h with
  | nil => rfl
  | cons i children ih =>
    change ((h.setParent i (some parent)).attach parent children).content j = _
    rw [ih, content_setParent]

@[simp] theorem size_detach (h : Heap) (children : List Nat) :
    (h.detach children).cells.size = h.cells.size := by
  induction children generalizing h with
  | nil => rfl
  | cons i children ih =>
    change ((h.setParent i none).detach children).cells.size = _
    rw [ih, size_setParent]

@[simp] theorem content_detach (h : Heap) (j : Nat) (children : List Nat) :
    (h.detach children).content j = h.content j := by
  induction children generalizing h with
  | nil => rfl
  | cons i children ih =>
    change ((h.setParent i none).detach children).content j = _
    rw [ih, content_setParent]

@[simp] theorem alloc_fst (h : Heap) (c : Content) : (h.alloc c).1 = h.cells.size := rfl

@[simp] theorem size_alloc (h : Heap) (c : Content) :
    (h.alloc c).2.cells.size = h.cells.size + 1 := by
  simp [alloc]

theorem content_alloc_self (h : Heap) (c : Content) :
    (h.alloc c).2.content h.cells.size = c := by
  rw [alloc, content_attach]
  simp [content]

theorem content_alloc_of_lt (h : Heap) (c : Content) {j : Nat} (hj : j < h.cells.size) :
    (h.alloc c).2.content j = h.content j := by
  rw [alloc, content_attach]
  simp [content, Array.getElem?_push, Nat.ne_of_lt hj]

@[simp] theorem size_replaceContent (h : Heap) (i : Nat) (c : Content) :
    (h.replaceContent i c).cells.size = h.cells.size := by
  simp [replaceContent]

theorem content_replaceContent_self (h : Heap) {i : Nat} (c : Content) (hi : i < h.cells.size) :
    (h.replaceContent i c).content i = c := by
  simp [replaceContent, content_setContent_self, hi]

theorem content_replaceContent_of_ne (h : Heap) {i j : Nat} (c : Content) (hne : j ≠ i) :
    (h.replaceContent i c).content j = h.content j := by
  simp [replaceContent, content_setContent_of_ne _ _ hne]

end Contents

end TreePath.Heap

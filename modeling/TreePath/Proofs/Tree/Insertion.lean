import TreePath.Proofs.Tree.Links
import TreePath.Proofs.Tree.Steps

namespace TreePath.Heap

variable {h : Heap} {n : Nat} {fields : List (String × Nat)}

/-- The child that was there before is let go, and whatever else was put in is held. -/
theorem parent?_insert (hcontent : h.content n = .mapping fields) (name : String) {c : Nat}
    (hc : c < h.cells.size) (j : Nat) :
    (h.insert n name c).2.parent? j =
      if h.child? n (.name name) = some j then none
      else if j = c then some n else h.parent? j := by
  rw [child?_name hcontent, insert_mapping hcontent, parent?_detach, parent?_setContent,
    parent?_attach]
  simp only [Option.mem_toList, List.mem_singleton]
  by_cases hj : j = c
  · simp [hj, hc]
  · simp [hj]

/-- Whatever stands wherever on the heap, a mapping shows the child that is put into it, and gives
back the one that it replaces. The child has the mapping as its parent unless it was there already,
under this very name: then it has none. Of the other nodes none but the replaced one has another
parent than before; that one has none. -/
theorem insert_attaches (hn : h.kind n = .mapping) (name : String) {c : Nat}
    (hc : c < h.cells.size) :
    let old := h.child? n (.name name)
    let h' := (h.insert n name c).2
    (h.insert n name c).1 = old ∧ h'.child? n (.name name) = some c ∧
      h'.parent? c = (if old = some c then none else some n) ∧
      ∀ j ≠ c, h'.parent? j = if old = some j then none else h.parent? j := by
  obtain ⟨fields, hcontent⟩ := exists_mapping hn
  refine ⟨?_, child?_insert (lt_size_of_mapping hcontent) hcontent name c rfl, ?_, ?_⟩
  · rw [child?_name hcontent, insert_mapping hcontent]
  · rw [parent?_insert hcontent name hc, if_pos rfl]
  · intro j hj
    rw [parent?_insert hcontent name hc, if_neg hj]

/-- A node that hangs elsewhere is put in the place of another one. -/
theorem insert_attaches_moved :
    let h := (HeapNode.ofJson
      (.obj [("a", .obj [("x", .ofNat 1)]), ("b", .ofNat 2)])).heap
    let h' := (h.insert 3 "b" 0).2
    h.kind 3 = .mapping ∧ 0 < h.cells.size ∧ h.parent? 0 = some 1 ∧
      (h.insert 3 "b" 0).1 = some 2 ∧ h'.child? 3 (.name "b") = some 0 ∧ h'.parent? 0 = some 3 ∧
      ∀ j ≠ 0, h'.parent? j = if some 2 = some j then none else h.parent? j := by
  intro h h'
  have hold : h.child? 3 (.name "b") = some 2 := rfl
  have hmoved := insert_attaches (h := h) (n := 3) rfl "b" (c := 0) (by decide)
  rw [hold] at hmoved
  exact ⟨rfl, by decide, rfl, hmoved⟩

/-- A child that is put where it is already is left without a parent, and with that the links do not
go both ways any more. -/
theorem insert_again :
    let n := HeapNode.ofJson (.obj [("a", .ofNat 1)])
    let h' := (n.heap.insert n.cell "a" 0).2
    n.heap.kind n.cell = .mapping ∧ 0 < n.heap.cells.size ∧ 0 ≠ n.cell ∧ n.heap.Linked ∧
      h'.child? n.cell (.name "a") = some 0 ∧ h'.parent? 0 = none ∧ ¬ h'.Linked := by
  intro n h'
  have hparent : h'.parent? 0 = none := rfl
  refine ⟨rfl, by decide, by decide, HeapNode.ofJson_linked _, rfl, hparent, fun hlinked => ?_⟩
  have hheld : h'.parent? 0 = some n.cell := hlinked n.cell 0 (by decide)
  rw [hparent] at hheld
  cases hheld

end TreePath.Heap

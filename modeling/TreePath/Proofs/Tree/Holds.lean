import Mathlib.Data.Finset.Card
import TreePath.Proofs.Fields
import TreePath.Proofs.Tree.Cells

namespace TreePath

mutual

/-- The value is in and below cell `i`, and its cells are those in the set. -/
inductive Holds (h : Heap) : Json → Nat → Finset Nat → Prop
  | node {v : Json} {i : Nat} {c : Content} {S : Finset Nat} (hi : i < h.cells.size)
      (hc : h.content i = c) (hout : i ∉ S) (hbelow : Below h v c S) : Holds h v i (insert i S)

/-- The content is that of a cell for the value, whose children have the cells in the set. -/
inductive Below (h : Heap) : Json → Content → Finset Nat → Prop
  | leaf {v : Json} (hv : v.kind = .leaf) : Below h v (.leaf v) ∅
  | sequence {items : List Json} {cells : List Nat} {S : Finset Nat}
      (hitems : HoldsItems h items cells S) : Below h (.arr items) (.sequence cells) S
  | mapping {fields : List (String × Json)} {cells : List (String × Nat)} {S : Finset Nat}
      (hasc : Fields.Ascending fields) (hfields : HoldsFields h fields cells S) :
      Below h (.obj fields) (.mapping cells) S

inductive HoldsItems (h : Heap) : List Json → List Nat → Finset Nat → Prop
  | nil : HoldsItems h [] [] ∅
  | cons {v : Json} {i : Nat} {items : List Json} {cells : List Nat} {S T : Finset Nat}
      (hv : Holds h v i S) (hrest : HoldsItems h items cells T) (hdisj : Disjoint S T) :
      HoldsItems h (v :: items) (i :: cells) (S ∪ T)

inductive HoldsFields (h : Heap) : List (String × Json) → List (String × Nat) → Finset Nat → Prop
  | nil : HoldsFields h [] [] ∅
  | cons {name : String} {v : Json} {i : Nat} {fields : List (String × Json)}
      {cells : List (String × Nat)} {S T : Finset Nat}
      (hv : Holds h v i S) (hrest : HoldsFields h fields cells T) (hdisj : Disjoint S T) :
      HoldsFields h ((name, v) :: fields) ((name, i) :: cells) (S ∪ T)

end

/-- The second heap has at least the cells of the first one, and those in the set hold the same. -/
structure Agrees (h h' : Heap) (S : Finset Nat) : Prop where
  size_le : h.cells.size ≤ h'.cells.size
  content_eq : ∀ j ∈ S, h'.content j = h.content j

theorem Agrees.mono {h h' : Heap} {S T : Finset Nat} (ha : Agrees h h' S) (hsub : T ⊆ S) :
    Agrees h h' T :=
  ⟨ha.size_le, fun j hj => ha.content_eq j (hsub hj)⟩

section Transport

variable {h h' : Heap}

mutual

/-- What a heap holds depends on the cells of the value alone. -/
theorem Holds.transport {v : Json} {i : Nat} {S : Finset Nat} :
    Holds h v i S → Agrees h h' S → Holds h' v i S
  | .node hi hc hout hbelow, ha =>
    .node (Nat.lt_of_lt_of_le hi ha.size_le)
      ((ha.content_eq i (Finset.mem_insert_self i _)).trans hc) hout
      (hbelow.transport (ha.mono (Finset.subset_insert i _)))

theorem Below.transport {v : Json} {c : Content} {S : Finset Nat} :
    Below h v c S → Agrees h h' S → Below h' v c S
  | .leaf hv, _ => .leaf hv
  | .sequence hitems, ha => .sequence (hitems.transport ha)
  | .mapping hasc hfields, ha => .mapping hasc (hfields.transport ha)

theorem HoldsItems.transport {items : List Json} {cells : List Nat} {S : Finset Nat} :
    HoldsItems h items cells S → Agrees h h' S → HoldsItems h' items cells S
  | .nil, _ => .nil
  | .cons hv hrest hdisj, ha =>
    .cons (hv.transport (ha.mono Finset.subset_union_left))
      (hrest.transport (ha.mono Finset.subset_union_right)) hdisj

theorem HoldsFields.transport {fields : List (String × Json)} {cells : List (String × Nat)}
    {S : Finset Nat} : HoldsFields h fields cells S → Agrees h h' S → HoldsFields h' fields cells S
  | .nil, _ => .nil
  | .cons hv hrest hdisj, ha =>
    .cons (hv.transport (ha.mono Finset.subset_union_left))
      (hrest.transport (ha.mono Finset.subset_union_right)) hdisj

end

end Transport

section Cells

variable {h : Heap}

mutual

/-- The cells of a value exist. -/
theorem Holds.lt_size {v : Json} {i : Nat} {S : Finset Nat} :
    Holds h v i S → ∀ j ∈ S, j < h.cells.size
  | .node hi _ _ hbelow, j, hj => by
    rcases Finset.mem_insert.mp hj with rfl | hj
    · exact hi
    · exact hbelow.lt_size j hj

theorem Below.lt_size {v : Json} {c : Content} {S : Finset Nat} :
    Below h v c S → ∀ j ∈ S, j < h.cells.size
  | .leaf _, j, hj => absurd hj (Finset.notMem_empty j)
  | .sequence hitems, j, hj => hitems.lt_size j hj
  | .mapping _ hfields, j, hj => hfields.lt_size j hj

theorem HoldsItems.lt_size {items : List Json} {cells : List Nat} {S : Finset Nat} :
    HoldsItems h items cells S → ∀ j ∈ S, j < h.cells.size
  | .nil, j, hj => absurd hj (Finset.notMem_empty j)
  | .cons hv hrest _, j, hj => by
    rcases Finset.mem_union.mp hj with hj | hj
    · exact hv.lt_size j hj
    · exact hrest.lt_size j hj

theorem HoldsFields.lt_size {fields : List (String × Json)} {cells : List (String × Nat)}
    {S : Finset Nat} : HoldsFields h fields cells S → ∀ j ∈ S, j < h.cells.size
  | .nil, j, hj => absurd hj (Finset.notMem_empty j)
  | .cons hv hrest _, j, hj => by
    rcases Finset.mem_union.mp hj with hj | hj
    · exact hv.lt_size j hj
    · exact hrest.lt_size j hj

end

mutual

/-- As deep as there are cells, a value can be read back. -/
theorem Holds.toJsonWithin {v : Json} {i : Nat} {S : Finset Nat} :
    Holds h v i S → ∀ depth, S.card ≤ depth → h.toJsonWithin depth i = v
  | .node _ hc hout hbelow, depth, hcard => by
    rw [Finset.card_insert_of_notMem hout] at hcard
    obtain ⟨d, rfl⟩ : ∃ d, depth = d + 1 := ⟨depth - 1, by omega⟩
    rw [Heap.toJsonWithin, hc]
    exact hbelow.toJsonWithin d (by omega)

theorem Below.toJsonWithin {v : Json} {c : Content} {S : Finset Nat} :
    Below h v c S → ∀ depth, S.card ≤ depth →
      (match c with
        | .mapping fields => .obj (fields.map fun (name, i) => (name, h.toJsonWithin depth i))
        | .sequence items => .arr (items.map (h.toJsonWithin depth))
        | .leaf v => v
        | .function _ => .null) = v
  | .leaf _, _, _ => rfl
  | .sequence hitems, depth, hcard => congrArg Json.arr (hitems.toJsonWithin depth hcard)
  | .mapping _ hfields, depth, hcard => congrArg Json.obj (hfields.toJsonWithin depth hcard)

theorem HoldsItems.toJsonWithin {items : List Json} {cells : List Nat} {S : Finset Nat} :
    HoldsItems h items cells S → ∀ depth, S.card ≤ depth →
      cells.map (h.toJsonWithin depth) = items
  | .nil, _, _ => rfl
  | .cons hv hrest hdisj, depth, hcard => by
    rw [Finset.card_union_of_disjoint hdisj] at hcard
    rw [List.map_cons, hv.toJsonWithin depth (by omega), hrest.toJsonWithin depth (by omega)]

theorem HoldsFields.toJsonWithin {fields : List (String × Json)} {cells : List (String × Nat)}
    {S : Finset Nat} : HoldsFields h fields cells S → ∀ depth, S.card ≤ depth →
      cells.map (fun (name, i) => (name, h.toJsonWithin depth i)) = fields
  | .nil, _, _ => rfl
  | .cons hv hrest hdisj, depth, hcard => by
    rw [Finset.card_union_of_disjoint hdisj] at hcard
    rw [List.map_cons, hrest.toJsonWithin depth (by omega)]
    simp only [hv.toJsonWithin depth (by omega)]

end

theorem Holds.toJson {v : Json} {i : Nat} {S : Finset Nat} (hv : Holds h v i S) :
    h.toJson i = v := by
  have hsub : S ⊆ Finset.range h.cells.size := fun j hj => Finset.mem_range.mpr (hv.lt_size j hj)
  have hcard := Finset.card_le_card hsub
  rw [Finset.card_range] at hcard
  exact hv.toJsonWithin _ hcard

mutual

theorem Holds.wellFormed {v : Json} {i : Nat} {S : Finset Nat} : Holds h v i S → v.WellFormed
  | .node _ _ _ hbelow => hbelow.wellFormed

theorem Below.wellFormed {v : Json} {c : Content} {S : Finset Nat} :
    Below h v c S → v.WellFormed
  | .leaf hv => by
    cases v with
    | arr | obj => simp [Json.kind] at hv
    | null | bool | num | str => trivial
  | .sequence hitems => hitems.wellFormed
  | .mapping hasc hfields => ⟨hasc, hfields.wellFormed⟩

theorem HoldsItems.wellFormed {items : List Json} {cells : List Nat} {S : Finset Nat} :
    HoldsItems h items cells S → Json.WellFormedItems items
  | .nil => trivial
  | .cons hv hrest _ => ⟨hv.wellFormed, hrest.wellFormed⟩

theorem HoldsFields.wellFormed {fields : List (String × Json)} {cells : List (String × Nat)}
    {S : Finset Nat} : HoldsFields h fields cells S → Json.WellFormedFields fields
  | .nil => trivial
  | .cons hv hrest _ => ⟨hv.wellFormed, hrest.wellFormed⟩

end

end Cells

end TreePath

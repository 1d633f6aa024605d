import Mathlib.Data.List.Forall2
import TreePath.Proofs.Tree.Focus
import TreePath.Proofs.Tree.Links

namespace TreePath

theorem forall₂_zipIdx {α β : Type} {P : α → β → Prop} {xs : List α} {ys : List β}
    (h : List.Forall₂ P xs ys) :
    List.Forall₂ (fun x y => P x.1 y.1 ∧ x.2 = y.2 ∧ ys[y.2]? = some y.1) xs.zipIdx ys.zipIdx := by
  obtain ⟨hlength, hget⟩ := List.forall₂_iff_get.mp h
  refine List.forall₂_iff_get.mpr ⟨by simpa using hlength, fun k hx hy => ?_⟩
  have hk : k < ys.length := by simpa using hy
  have hsame := hget k (by simpa using hx) hk
  simp only [List.get_eq_getElem, List.getElem_zipIdx, Nat.zero_add, true_and] at hsame ⊢
  exact ⟨hsame, List.getElem?_eq_getElem hk⟩

section Positions

/-- There is a child just where one has a position. -/
theorem Json.child?_position? (t : Json) (key : ChildKey) :
    t.child? key = none ∧ t.position? key = none ∨
      ∃ v k, t.child? key = some v ∧ t.position? key = some k := by
  cases t with
  | obj fields =>
    have hchild : (Json.obj fields).child? key = Fields.find? fields key.asName := by
      cases key <;> rfl
    have hposition : (Json.obj fields).position? key = Fields.position? fields key.asName := by
      cases key <;> rfl
    rw [hchild, hposition]
    cases hk : Fields.position? fields key.asName with
    | none => exact .inl ⟨Fields.find?_eq_none_of_position? hk, rfl⟩
    | some k =>
      obtain ⟨v, hv⟩ := Fields.exists_of_position? hk
      exact .inr ⟨v, k, hv, rfl⟩
  | arr items =>
    cases key with
    | name n => exact .inl ⟨rfl, rfl⟩
    | index i =>
      by_cases hi : i < items.length
      · exact .inr ⟨items[i], i, List.getElem?_eq_getElem hi, if_pos hi⟩
      · exact .inl ⟨List.getElem?_eq_none (Nat.le_of_not_lt hi), if_neg hi⟩
  | null | bool | num | str => cases key <;> exact .inl ⟨rfl, rfl⟩

end Positions

section Cells

variable {h : Heap} {S : Finset Nat}

theorem Holds.mem {v : Json} {i : Nat} (hh : Holds h v i S) : i ∈ S := by
  obtain ⟨T, rfl, -⟩ := hh.content_below
  exact Finset.mem_insert_self i T

/-- Each element has its own cell. -/
theorem HoldsItems.cells {items : List Json} {cells : List Nat} (hh : HoldsItems h items cells S) :
    List.Forall₂ (fun v i => ∃ T, Holds h v i T) items cells ∧ cells.Nodup ∧
      ∀ i ∈ cells, i ∈ S := by
  induction items generalizing cells S with
  | nil =>
    cases hh
    exact ⟨.nil, .nil, fun _ hi => absurd hi List.not_mem_nil⟩
  | cons v items ih =>
    cases hh with
    | @cons _ i _ cells S T hv hrest hdisj =>
    obtain ⟨hall, hnodup, hmem⟩ := ih hrest
    refine ⟨.cons ⟨S, hv⟩ hall, List.nodup_cons.mpr ⟨fun hi => ?_, hnodup⟩, fun j hj => ?_⟩
    · exact Finset.disjoint_left.mp hdisj hv.mem (hmem i hi)
    · rcases List.mem_cons.mp hj with rfl | hj
      · exact Finset.mem_union_left T hv.mem
      · exact Finset.mem_union_right S (hmem j hj)

theorem HoldsFields.cells {fields : List (String × Json)} {cells : List (String × Nat)}
    (hh : HoldsFields h fields cells S) :
    List.Forall₂ (fun x y => x.1 = y.1 ∧ ∃ T, Holds h x.2 y.2 T) fields cells ∧
      (cells.map Prod.snd).Nodup ∧ ∀ i ∈ cells.map Prod.snd, i ∈ S := by
  induction fields generalizing cells S with
  | nil =>
    cases hh
    exact ⟨.nil, .nil, fun _ hi => absurd hi List.not_mem_nil⟩
  | cons field fields ih =>
    cases hh with
    | @cons _ _ i _ cells S T hv hrest hdisj =>
    obtain ⟨hall, hnodup, hmem⟩ := ih hrest
    refine ⟨.cons ⟨rfl, S, hv⟩ hall, List.nodup_cons.mpr ⟨fun hi => ?_, hnodup⟩, fun j hj => ?_⟩
    · exact Finset.disjoint_left.mp hdisj hv.mem (hmem i hi)
    · rcases List.mem_cons.mp hj with rfl | hj
      · exact Finset.mem_union_left T hv.mem
      · exact Finset.mem_union_right S (hmem j hj)

variable {t : Json} {c : Content} {i : Nat}

theorem Below.cells (hh : Below h t c S) :
    List.Forall₂ (fun x y => x.1 = y.1 ∧ ∃ T, Holds h x.2 y.2 T) t.children c.entries ∧
      c.children.Nodup := by
  cases hh with
  | leaf hv =>
    cases t with
    | arr | obj => simp [Json.kind] at hv
    | null | bool | num | str => exact ⟨.nil, .nil⟩
  | @sequence items cells _ hitems =>
    obtain ⟨hall, hnodup, -⟩ := hitems.cells
    rw [Content.children_sequence]
    refine ⟨List.rel_map (fun x y hxy => ?_) (forall₂_zipIdx hall), hnodup⟩
    exact ⟨congrArg ChildKey.index hxy.2.1, hxy.1⟩
  | @mapping fields cells _ _ hfields =>
    obtain ⟨hall, hnodup, -⟩ := hfields.cells
    rw [Content.children_mapping]
    refine ⟨List.rel_map (fun x y hxy => ?_) hall, hnodup⟩
    exact ⟨congrArg ChildKey.name hxy.1, hxy.2⟩

/-- The cell of the child at a key stands where the child does. -/
theorem Below.children_getElem? (hh : Below h t c S) {key : ChildKey} {k j : Nat}
    (hk : t.position? key = some k) (hj : c.child? key = some j) : c.children[k]? = some j := by
  cases hh with
  | leaf hv => cases key <;> cases hj
  | sequence hitems =>
    rw [Content.children_sequence]
    cases key with
    | name n => cases hj
    | index i =>
      simp only [Json.position?, Option.ite_none_right_eq_some, Option.some.injEq] at hk
      rw [← hk.2]
      exact hj
  | @mapping fields cells _ _ hfields =>
    rw [Content.children_mapping, List.getElem?_map]
    have hposition : Fields.position? cells key.asName = some k := by
      rw [Fields.position?_congr hfields.names_eq]
      cases key <;> exact hk
    have hfound : Fields.find? cells key.asName = some j := by cases key <;> exact hj
    rw [Fields.find?_eq_bind, hposition] at hfound
    exact hfound

end Cells

end TreePath

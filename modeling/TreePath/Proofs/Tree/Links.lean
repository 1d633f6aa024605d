import TreePath.Proofs.Tree.Cells

namespace TreePath

namespace Content

@[simp] theorem children_mapping (fields : List (String × Nat)) :
    (mapping fields).children = fields.map (·.2) := by
  rw [children, entries, List.map_map]
  rfl

@[simp] theorem children_sequence (items : List Nat) : (sequence items).children = items := by
  rw [children, entries, List.map_map]
  exact List.zipIdx_map_fst 0 items

end Content

namespace Heap

section Parents

theorem parent?_setParent (h : Heap) (i j : Nat) (parent : Option Nat) :
    (h.setParent i parent).parent? j =
      if i = j ∧ j < h.cells.size then parent else h.parent? j := by
  unfold parent? setParent
  rw [Array.getElem?_modify]
  by_cases hij : i = j
  · by_cases hj : j < h.cells.size
    · rw [if_pos hij, if_pos ⟨hij, hj⟩, Array.getElem?_eq_getElem hj]
      rfl
    · rw [if_pos hij, if_neg fun hboth => hj hboth.2, Array.getElem?_eq_none (by omega)]
      rfl
  · rw [if_neg hij, if_neg fun hboth => hij hboth.1]

theorem parent?_attach (h : Heap) (parent j : Nat) (children : List Nat) :
    (h.attach parent children).parent? j =
      if j ∈ children ∧ j < h.cells.size then some parent else h.parent? j := by
  induction children generalizing h with
  | nil => simp [attach]
  | cons i children ih =>
    change ((h.setParent i (some parent)).attach parent children).parent? j = _
    rw [ih, parent?_setParent, size_setParent]
    by_cases hj : j < h.cells.size
    · by_cases hmem : j ∈ children
      · simp [hj, hmem]
      · by_cases hij : i = j
        · simp [hj, hmem, hij]
        · simp [hmem, hij, Ne.symm hij]
    · simp [hj]

theorem parent?_of_size_le (h : Heap) {i : Nat} (hi : h.cells.size ≤ i) : h.parent? i = none := by
  rw [parent?, Array.getElem?_eq_none hi]
  rfl

theorem content_of_size_le (h : Heap) {i : Nat} (hi : h.cells.size ≤ i) :
    h.content i = .leaf .null := by
  rw [content, Array.getElem?_eq_none hi]

theorem lt_size_of_mapping {h : Heap} {i : Nat} {fields : List (String × Nat)}
    (hcontent : h.content i = .mapping fields) : i < h.cells.size := by
  refine Nat.lt_of_not_le fun hle => ?_
  rw [h.content_of_size_le hle] at hcontent
  cases hcontent

theorem exists_mapping {h : Heap} {i : Nat} (hi : h.kind i = .mapping) :
    ∃ fields, h.content i = .mapping fields := by
  unfold kind at hi
  cases hcontent : h.content i with
  | mapping fields => exact ⟨fields, rfl⟩
  | sequence | leaf | function => simp [hcontent, Content.kind] at hi

@[simp] theorem parent?_setContent (h : Heap) (i j : Nat) (content : Content) :
    (h.setContent i content).parent? j = h.parent? j := by
  unfold parent? setContent
  rw [Array.getElem?_modify]
  by_cases hij : i = j
  · rw [if_pos hij]
    cases h.cells[j]? <;> rfl
  · rw [if_neg hij]

theorem parent?_detach (h : Heap) (children : List Nat) (j : Nat) :
    (h.detach children).parent? j = if j ∈ children then none else h.parent? j := by
  induction children generalizing h with
  | nil => simp [detach]
  | cons i children ih =>
    change ((h.setParent i none).detach children).parent? j = _
    rw [ih, parent?_setParent]
    by_cases hmem : j ∈ children
    · simp [hmem]
    · by_cases hij : i = j
      · subst hij
        by_cases hi : i < h.cells.size
        · simp [hi]
        · simp [hi, h.parent?_of_size_le (Nat.le_of_not_lt hi)]
      · simp [hmem, hij, Ne.symm hij]

theorem parent?_alloc (h : Heap) (c : Content) {j : Nat} (hj : j < h.cells.size) :
    (h.alloc c).2.parent? j = if j ∈ c.children then some h.cells.size else h.parent? j := by
  have hpush : (⟨h.cells.push ⟨none, c⟩⟩ : Heap).parent? j = h.parent? j := by
    simp [parent?, Array.getElem?_push, Nat.ne_of_lt hj]
  have hlt : j < (h.cells.push ⟨none, c⟩).size := by
    rw [Array.size_push]
    omega
  rw [alloc, parent?_attach, hpush]
  simp only [hlt, and_true]

theorem parent?_alloc_self (h : Heap) (c : Content) (hout : h.cells.size ∉ c.children) :
    (h.alloc c).2.parent? h.cells.size = none := by
  rw [alloc, parent?_attach, if_neg fun hboth => hout hboth.1]
  simp [parent?]

end Parents

section Building

/-- Every child has its container as its parent. -/
def Linked (h : Heap) : Prop := ∀ i, ∀ j ∈ (h.content i).children, h.parent? j = some i

/-- New cells have been made behind those of `h`, and `orphans` are the ones among them that are
without a parent as yet. -/
structure Builds (h h' : Heap) (orphans : List Nat) : Prop where
  linked : h.Linked → h'.Linked
  size_le : h.cells.size ≤ h'.cells.size
  parent?_eq : ∀ j < h.cells.size, h'.parent? j = h.parent? j
  orphaned : ∀ j ∈ orphans, h.cells.size ≤ j ∧ j < h'.cells.size ∧ h'.parent? j = none

variable {h h' h'' : Heap}

theorem Linked.alloc (hl : h.Linked) {c : Content}
    (hc : ∀ j ∈ c.children, j < h.cells.size ∧ h.parent? j = none) : (h.alloc c).2.Linked := by
  intro i j hj
  rcases Nat.lt_trichotomy i h.cells.size with hi | rfl | hi
  · rw [h.content_alloc_of_lt c hi] at hj
    have hparent := hl i j hj
    have hlt : j < h.cells.size := by
      refine Nat.lt_of_not_le fun hge => ?_
      rw [h.parent?_of_size_le hge] at hparent
      cases hparent
    have hout : j ∉ c.children := by
      intro hmem
      rw [(hc j hmem).2] at hparent
      cases hparent
    rw [h.parent?_alloc c hlt, if_neg hout, hparent]
  · rw [h.content_alloc_self c] at hj
    rw [h.parent?_alloc c (hc j hj).1, if_pos hj]
  · have hbehind : (h.alloc c).2.cells.size ≤ i := by
      rw [size_alloc]
      exact hi
    rw [content_of_size_le _ hbehind] at hj
    cases hj

namespace Builds

theorem refl (h : Heap) : Builds h h [] :=
  ⟨id, Nat.le_refl _, fun _ _ => rfl, fun _ hj => absurd hj List.not_mem_nil⟩

/-- A cell is made for content, which takes in all that was without a parent. -/
theorem alloc {c : Content} (hb : Builds h h' c.children) :
    Builds h (h'.alloc c).2 [(h'.alloc c).1] := by
  have hout : h'.cells.size ∉ c.children := fun hmem =>
    Nat.lt_irrefl _ (hb.orphaned _ hmem).2.1
  refine ⟨fun hl => ?_, ?_, fun j hj => ?_, fun j hj => ?_⟩
  · exact (hb.linked hl).alloc fun j hj => (hb.orphaned j hj).2
  · rw [size_alloc]
    exact Nat.le_succ_of_le hb.size_le
  · have hold : j ∉ c.children := fun hmem => Nat.not_le_of_lt hj (hb.orphaned j hmem).1
    rw [h'.parent?_alloc c (Nat.lt_of_lt_of_le hj hb.size_le), if_neg hold, hb.parent?_eq j hj]
  · obtain rfl := List.mem_singleton.mp hj
    exact ⟨hb.size_le, by simp, h'.parent?_alloc_self c hout⟩

theorem append {xs ys : List Nat} (hf : Builds h h' xs) (hg : Builds h' h'' ys) :
    Builds h h'' (xs ++ ys) := by
  refine ⟨fun hl => hg.linked (hf.linked hl), Nat.le_trans hf.size_le hg.size_le,
    fun j hj => ?_, fun j hj => ?_⟩
  · rw [hg.parent?_eq j (Nat.lt_of_lt_of_le hj hf.size_le), hf.parent?_eq j hj]
  · rcases List.mem_append.mp hj with hj | hj
    · obtain ⟨hle, hlt, hnone⟩ := hf.orphaned j hj
      exact ⟨hle, Nat.lt_of_lt_of_le hlt hg.size_le, (hg.parent?_eq j hlt).trans hnone⟩
    · obtain ⟨hle, hlt, hnone⟩ := hg.orphaned j hj
      exact ⟨Nat.le_trans hf.size_le hle, hlt, hnone⟩

end Builds

/-- What holds when no cell is made, passes on to a cell that takes in all that was made before, and
passes on to two heaps of cells made one after the other. -/
structure BuildingLaws (P : Heap → Heap → List Nat → Prop) : Prop where
  refl : ∀ h, P h h []
  alloc : ∀ {h h' c}, P h h' c.children → P h (h'.alloc c).2 [(h'.alloc c).1]
  append : ∀ {h h' h'' xs ys}, P h h' xs → P h' h'' ys → P h h'' (xs ++ ys)

namespace BuildingLaws

variable {P : Heap → Heap → List Nat → Prop} (hP : BuildingLaws P)

include hP

mutual

/-- Such a law holds when the cells below a value are made. -/
theorem contentOf (h : Heap) : (v : Json) → P h (h.contentOf v).2 (h.contentOf v).1.children
  | .obj fields => by
    have hfields := fieldsOf h fields
    rw [← Content.children_mapping] at hfields
    exact hfields
  | .arr items => by
    have hitems := itemsOf h items
    rw [← Content.children_sequence (h.itemsOf items).1] at hitems
    exact hitems
  | .null | .bool _ | .num _ | .str _ => hP.refl h

theorem itemsOf (h : Heap) : (items : List Json) → P h (h.itemsOf items).2 (h.itemsOf items).1
  | [] => hP.refl h
  | v :: rest => hP.append (hP.alloc (contentOf h v)) (itemsOf _ rest)

theorem fieldsOf (h : Heap) : (fields : List (String × Json)) →
    P h (h.fieldsOf fields).2 ((h.fieldsOf fields).1.map (·.2))
  | [] => hP.refl h
  | (_, v) :: rest => hP.append (hP.alloc (contentOf h v)) (fieldsOf _ rest)

end

theorem ofJson (h : Heap) (v : Json) : P h (h.ofJson v).2 [(h.ofJson v).1] :=
  hP.alloc (hP.contentOf h v)

end BuildingLaws

theorem Builds.laws : BuildingLaws Builds := ⟨.refl, .alloc, .append⟩

theorem ofJson_builds (h : Heap) (v : Json) : Builds h (h.ofJson v).2 [(h.ofJson v).1] :=
  Builds.laws.ofJson h v

theorem empty_linked : empty.Linked := by
  intro i j hj
  rw [empty.content_of_size_le (Nat.zero_le i)] at hj
  cases hj

end Building

end Heap

namespace HeapNode

theorem ofJson_linked (v : Json) : (ofJson v).heap.Linked :=
  (Heap.empty.ofJson_builds v).linked Heap.empty_linked

/-- There is nothing above the top of a new tree. -/
theorem parent?_ofJson (v : Json) : (ofJson v).heap.parent? (ofJson v).cell = none :=
  ((Heap.empty.ofJson_builds v).orphaned _ (List.mem_singleton.mpr rfl)).2.2

end HeapNode

end TreePath

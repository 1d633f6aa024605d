import TreePath.Proofs.Tree.Focus

namespace TreePath

/-- After a step from `h` to `h'` that touches only the cells in `S`, cell `i` holds `t`. -/
def Rewrites (h : Heap) (S : Finset Nat) (h' : Heap) (t : Json) (i : Nat) : Prop :=
  ∃ S', Holds h' t i S' ∧ Frame h S h' S'

theorem Rewrites.refl {h : Heap} {S : Finset Nat} {t : Json} {i : Nat} (hh : Holds h t i S) :
    Rewrites h S h t i := ⟨S, hh, .refl h S⟩

theorem Rewrites.trans {h h' h'' : Heap} {S : Finset Nat} {t u : Json} {i j : Nat}
    (hf : Rewrites h S h' t i) (hg : ∀ S', Holds h' t i S' → Rewrites h' S' h'' u j) :
    Rewrites h S h'' u j := by
  obtain ⟨S', hh, hframe⟩ := hf
  obtain ⟨S'', hh', hframe'⟩ := hg S' hh
  exact ⟨S'', hh', hframe.trans hframe'⟩

/-- The cell of a child. What becomes of the child becomes of it in its container. -/
theorem Holds.at_child {h : Heap} {S : Finset Nat} {t : Json} {i : Nat} (hh : Holds h t i S)
    {key : ChildKey} {v : Json} (hkey : t.child? key = some v) :
    ∃ c T, h.child? i key = some c ∧ Holds h v c T ∧
      ∀ {h' v'}, Rewrites h T h' v' c → Rewrites h S h' (t.replaceChild key v') i := by
  obtain ⟨c, hc, T, -, hv, hwhole⟩ := hh.focus hkey
  refine ⟨c, T, hc, hv, ?_⟩
  intro h' v' hrewrites
  obtain ⟨T', hv', hframe⟩ := hrewrites
  exact hwhole h' v' T' hframe hv'

/-- A cell takes over content for a value whose children are there already. -/
theorem Below.install {h h' : Heap} {v : Json} {c : Content} {T : Finset Nat} {i : Nat}
    (hb : Below h v c T) (hi : i < h.cells.size) (hout : i ∉ T)
    (hsize : h'.cells.size = h.cells.size) (hself : h'.content i = c)
    (hother : ∀ j, j ≠ i → h'.content j = h.content j) :
    Holds h' v i (insert i T) ∧ Frame h (insert i T) h' (insert i T) := by
  have hagrees : Agrees h h' T := ⟨Nat.le_of_eq hsize.symm, fun j hj =>
    hother j fun he => hout (he ▸ hj)⟩
  refine ⟨.node (by omega) hself hout (hb.transport hagrees), Nat.le_of_eq hsize.symm, ?_,
    fun j => .inl⟩
  intro j _ hj
  exact hother j fun he => hj (he ▸ Finset.mem_insert_self i T)

section Construction

/-- A new cell for content whose children are there already. -/
theorem Below.alloc {h : Heap} {v : Json} {c : Content} {T : Finset Nat} (hb : Below h v c T) :
    Holds (h.alloc c).2 v (h.alloc c).1 (insert h.cells.size T) ∧
      Frame h T (h.alloc c).2 (insert h.cells.size T) := by
  have hout : h.cells.size ∉ T := fun hmem => Nat.lt_irrefl _ (hb.lt_size _ hmem)
  have hagrees : Agrees h (h.alloc c).2 T :=
    ⟨by simp, fun j hj => h.content_alloc_of_lt c (hb.lt_size j hj)⟩
  refine ⟨.node (by simp) (h.content_alloc_self c) hout (hb.transport hagrees), by simp, ?_, ?_⟩
  · intro j hj _
    exact h.content_alloc_of_lt c hj
  · intro j hj
    rcases Finset.mem_insert.mp hj with rfl | hj
    · exact .inr (Nat.le_refl _)
    · exact .inl hj

/-- Two parts that are built one after the other stand side by side. -/
theorem Frame.beside {h h₁ h₂ : Heap} {S T : Finset Nat} (hf : Frame h ∅ h₁ S)
    (hg : Frame h₁ ∅ h₂ T) (hS : ∀ j ∈ S, j < h₁.cells.size) :
    Agrees h₁ h₂ S ∧ Disjoint S T ∧ Frame h ∅ h₂ (S ∪ T) := by
  refine ⟨hg.agrees hS (Finset.disjoint_empty_left S), ?_, ?_⟩
  · exact (hg.disjoint hS (Finset.disjoint_empty_left S)).symm
  · have hunion := hg.union S
    rw [Finset.empty_union, Finset.union_comm] at hunion
    exact hf.trans hunion

mutual

/-- Content for a value, with new cells for all below it. -/
theorem Heap.contentOf_below (h : Heap) : (v : Json) → v.WellFormed →
    ∃ S, Below (h.contentOf v).2 v (h.contentOf v).1 S ∧ Frame h ∅ (h.contentOf v).2 S
  | .obj fields, hw => by
    obtain ⟨S, hfields, hframe⟩ := h.fieldsOf_holds fields hw.2
    exact ⟨S, .mapping hw.1 hfields, hframe⟩
  | .arr items, hw => by
    obtain ⟨S, hitems, hframe⟩ := h.itemsOf_holds items hw
    exact ⟨S, .sequence hitems, hframe⟩
  | .null, _ => ⟨∅, .leaf rfl, .refl h ∅⟩
  | .bool _, _ => ⟨∅, .leaf rfl, .refl h ∅⟩
  | .num _, _ => ⟨∅, .leaf rfl, .refl h ∅⟩
  | .str _, _ => ⟨∅, .leaf rfl, .refl h ∅⟩

theorem Heap.itemsOf_holds (h : Heap) : (items : List Json) → Json.WellFormedItems items →
    ∃ S, HoldsItems (h.itemsOf items).2 items (h.itemsOf items).1 S ∧
      Frame h ∅ (h.itemsOf items).2 S
  | [], _ => ⟨∅, .nil, .refl h ∅⟩
  | v :: rest, hw => by
    obtain ⟨S, hbelow, hframe⟩ := h.contentOf_below v hw.1
    obtain ⟨hv, hframe'⟩ := hbelow.alloc
    obtain ⟨T, hrest, hframe''⟩ :=
      ((h.contentOf v).2.alloc (h.contentOf v).1).2.itemsOf_holds rest hw.2
    obtain ⟨hagrees, hdisj, hwhole⟩ := (hframe.trans hframe').beside hframe'' hv.lt_size
    exact ⟨_, .cons (hv.transport hagrees) hrest hdisj, hwhole⟩

theorem Heap.fieldsOf_holds (h : Heap) :
    (fields : List (String × Json)) → Json.WellFormedFields fields →
    ∃ S, HoldsFields (h.fieldsOf fields).2 fields (h.fieldsOf fields).1 S ∧
      Frame h ∅ (h.fieldsOf fields).2 S
  | [], _ => ⟨∅, .nil, .refl h ∅⟩
  | (name, v) :: rest, hw => by
    obtain ⟨S, hbelow, hframe⟩ := h.contentOf_below v hw.1
    obtain ⟨hv, hframe'⟩ := hbelow.alloc
    obtain ⟨T, hrest, hframe''⟩ :=
      ((h.contentOf v).2.alloc (h.contentOf v).1).2.fieldsOf_holds rest hw.2
    obtain ⟨hagrees, hdisj, hwhole⟩ := (hframe.trans hframe').beside hframe'' hv.lt_size
    exact ⟨_, .cons (hv.transport hagrees) hrest hdisj, hwhole⟩

end

/-- A new tree is apart from everything that was there. -/
theorem Heap.ofJson_holds (h : Heap) {v : Json} (hw : v.WellFormed) :
    ∃ S, Holds (h.ofJson v).2 v (h.ofJson v).1 S ∧ Frame h ∅ (h.ofJson v).2 S := by
  obtain ⟨S, hbelow, hframe⟩ := h.contentOf_below v hw
  obtain ⟨hv, hframe'⟩ := hbelow.alloc
  exact ⟨_, hv, hframe.trans hframe'⟩

theorem HeapNode.ofJson_holds {v : Json} (hw : v.WellFormed) :
    ∃ S, Holds (HeapNode.ofJson v).heap v (HeapNode.ofJson v).cell S := by
  obtain ⟨S, hv, -⟩ := Heap.empty.ofJson_holds hw
  exact ⟨S, hv⟩

end Construction

section Children

variable {h : Heap} {S T : Finset Nat}

theorem HoldsItems.concat {items : List Json} {cells : List Nat} (hh : HoldsItems h items cells S)
    {v : Json} {c : Nat} (hv : Holds h v c T) (hdisj : Disjoint S T) :
    HoldsItems h (items ++ [v]) (cells ++ [c]) (S ∪ T) := by
  induction items generalizing cells S with
  | nil =>
    cases hh
    have hsingle : HoldsItems h [v] [c] (T ∪ ∅) := .cons hv .nil (Finset.disjoint_empty_right T)
    rwa [Finset.union_comm] at hsingle
  | cons w items ih =>
    cases hh with
    | @cons _ _ _ _ P Q hw hrest hdisj' =>
    obtain ⟨hPT, hQT⟩ := Finset.disjoint_union_left.mp hdisj
    rw [Finset.union_assoc]
    exact .cons hw (ih hrest hQT) (Finset.disjoint_union_right.mpr ⟨hdisj', hPT⟩)

/-- A name that is not there yet is put in at the same place among values and cells. -/
theorem HoldsFields.insert {fields : List (String × Json)} {cells : List (String × Nat)}
    (hh : HoldsFields h fields cells S) {name : String} (hnone : Fields.find? fields name = none)
    {v : Json} {c : Nat} (hv : Holds h v c T) (hdisj : Disjoint S T) :
    HoldsFields h (Fields.insert fields name v) (Fields.insert cells name c) (S ∪ T) := by
  induction fields generalizing cells S with
  | nil =>
    cases hh
    have hsingle : HoldsFields h [(name, v)] [(name, c)] (T ∪ ∅) :=
      .cons hv .nil (Finset.disjoint_empty_right T)
    rwa [Finset.union_comm] at hsingle
  | cons field fields ih =>
    cases hh with
    | @cons n w i _ cells P Q hw hrest hdisj' =>
    have hn : n ≠ name := by
      intro hsame
      obtain rfl := hsame
      simp [Fields.find?] at hnone
    simp only [Fields.find?, hn, if_false] at hnone
    rw [Fields.insert, Fields.insert, if_neg hn, if_neg hn]
    split
    · rw [Finset.union_comm]
      exact .cons hv (.cons hw hrest hdisj') hdisj.symm
    · obtain ⟨hPT, hQT⟩ := Finset.disjoint_union_left.mp hdisj
      rw [Finset.union_assoc]
      exact .cons hw (ih hrest hnone hQT) (Finset.disjoint_union_right.mpr ⟨hdisj', hPT⟩)

theorem HoldsItems.eraseIdx {items : List Json} {cells : List Nat} (hh : HoldsItems h items cells S)
    (k : Nat) : ∃ S' ⊆ S, HoldsItems h (items.eraseIdx k) (cells.eraseIdx k) S' := by
  induction items generalizing cells S k with
  | nil =>
    cases hh
    exact ⟨∅, subset_rfl, .nil⟩
  | cons w items ih =>
    cases hh with
    | @cons _ _ _ _ P Q hw hrest hdisj =>
    cases k with
    | zero => exact ⟨Q, Finset.subset_union_right, hrest⟩
    | succ k =>
      obtain ⟨S', hsub, hitems⟩ := ih hrest k
      exact ⟨P ∪ S', Finset.union_subset_union_right hsub,
        .cons hw hitems (Finset.disjoint_of_subset_right hsub hdisj)⟩

theorem HoldsFields.erase {fields : List (String × Json)} {cells : List (String × Nat)}
    (hh : HoldsFields h fields cells S) (name : String) :
    ∃ S' ⊆ S, HoldsFields h (Fields.erase fields name) (Fields.erase cells name) S' := by
  induction fields generalizing cells S with
  | nil =>
    cases hh
    exact ⟨∅, subset_rfl, .nil⟩
  | cons field fields ih =>
    cases hh with
    | @cons n w i _ cells P Q hw hrest hdisj =>
    rw [Fields.erase, Fields.erase]
    split
    · exact ⟨Q, Finset.subset_union_right, hrest⟩
    · obtain ⟨S', hsub, hfields⟩ := ih hrest
      exact ⟨P ∪ S', Finset.union_subset_union_right hsub,
        .cons hw hfields (Finset.disjoint_of_subset_right hsub hdisj)⟩

end Children

section Containers

variable {h h₁ : Heap} {S T : Finset Nat} {i c : Nat} {v : Json}

/-- The setting in which a container takes in a child: the child was built apart from it. -/
theorem Holds.beside {t : Json} (hh : Holds h t i S) (hf : Frame h ∅ h₁ T) :
    Holds h₁ t i S ∧ Disjoint S T ∧ Frame h S h₁ (S ∪ T) := by
  have hempty := Finset.disjoint_empty_left S
  refine ⟨hh.transport (hf.agrees hh.lt_size hempty), (hf.disjoint hh.lt_size hempty).symm, ?_⟩
  have hunion := hf.union S
  rwa [Finset.empty_union, Finset.union_comm] at hunion

/-- Replacing the content of a cell by content for another value. -/
theorem Holds.install {t : Json} (hh : Holds h t i S) {h' : Heap} (hf : Frame h S h₁ (S ∪ T))
    {content : Content} {P : Finset Nat} (hb : Below h₁ v content P) (hP : P ⊆ S ∪ T) (hout : i ∉ P)
    (hsize : h'.cells.size = h₁.cells.size) (hself : h'.content i = content)
    (hother : ∀ j, j ≠ i → h'.content j = h₁.content j) : Rewrites h S h' v i := by
  obtain ⟨Q, rfl, -, hi, -⟩ := hh.content_below
  obtain ⟨hv, hframe⟩ := hb.install (Nat.lt_of_lt_of_le hi hf.size_le) hout hsize hself hother
  have hsub : insert i P ⊆ insert i Q ∪ T :=
    Finset.insert_subset (Finset.mem_union_left _ (Finset.mem_insert_self i Q)) hP
  exact ⟨_, hv, (hf.shrink hsub).trans hframe⟩

/-- A cell that gets a value in the place of what it held. -/
theorem Holds.set {t : Json} (hh : Holds h t i S) (hw : v.WellFormed) :
    Rewrites h S (h.set i v) v i := by
  obtain ⟨T, hbelow, hframe⟩ := h.contentOf_below v hw
  obtain ⟨hh₁, hdisj, hwhole⟩ := hh.beside hframe
  have hi : i < (h.contentOf v).2.cells.size := by
    obtain ⟨Q, -, -, hi, -⟩ := hh₁.content_below
    exact hi
  have hout : i ∉ T := by
    obtain ⟨Q, rfl, -⟩ := hh.content_below
    exact Finset.disjoint_left.mp hdisj (Finset.mem_insert_self i Q)
  exact hh.install hwhole hbelow Finset.subset_union_right hout (by simp [Heap.set])
    (Heap.content_replaceContent_self _ _ hi)
    fun j hj => Heap.content_replaceContent_of_ne _ _ hj

theorem Heap.child?_mapping {cells : List (String × Nat)} (hcontent : h.content i = .mapping cells)
    (key : ChildKey) : h.child? i key = Fields.find? cells key.asName := by
  rw [Heap.child?, hcontent]
  cases key <;> rfl

theorem Heap.child?_name {cells : List (String × Nat)} (hcontent : h.content i = .mapping cells)
    (name : String) : h.child? i (.name name) = Fields.find? cells name :=
  Heap.child?_mapping hcontent (.name name)

theorem Heap.isVacant_mapping {cells : List (String × Nat)}
    (hcontent : h.content i = .mapping cells) : h.isVacant i = false := by
  rw [Heap.isVacant, hcontent]

/-- What is put into a mapping is attached before the child that it replaces is let go. -/
theorem Heap.insert_mapping {cells : List (String × Nat)} (hcontent : h.content i = .mapping cells)
    (name : String) (c : Nat) :
    h.insert i name c = (Fields.find? cells name, ((h.attach i [c]).setContent i
      (.mapping (Fields.insert cells name c))).detach (Fields.find? cells name).toList) := by
  unfold Heap.insert
  rw [Heap.isVacant_mapping hcontent, if_neg (by simp)]
  simp only [Heap.content_attach, hcontent]

/-- A mapping takes in a child under a name that is new to it. -/
theorem Holds.insert {fields : List (String × Json)} (hh : Holds h (.obj fields) i S)
    {name : String} (hnone : Fields.find? fields name = none) (hv : Holds h₁ v c T)
    (hf : Frame h ∅ h₁ T) :
    Rewrites h S (h₁.insert i name c).2 (.obj (Fields.insert fields name v)) i := by
  obtain ⟨hh₁, hdisj, hwhole⟩ := hh.beside hf
  obtain ⟨cells, Q, rfl, hout, hi, hcontent, hasc, hfields⟩ := hh₁.of_obj
  obtain ⟨hiT, hQT⟩ := Finset.disjoint_insert_left.mp hdisj
  have hbelow' := Below.mapping (Fields.ascending_insert hasc name v)
    (hfields.insert hnone hv hQT)
  rw [Heap.insert_mapping hcontent]
  refine hh.install hwhole hbelow' (Finset.union_subset_union_left (Finset.subset_insert i Q))
    (by simp [hout, hiT]) (by simp) ?_ ?_
  · rw [Heap.content_detach, Heap.content_setContent_self _ _ (by simpa using hi)]
  · intro j hj
    rw [Heap.content_detach, Heap.content_setContent_of_ne _ _ hj, Heap.content_attach]

/-- A sequence takes in a child behind the others. -/
theorem Holds.push {items : List Json} (hh : Holds h (.arr items) i S) (hv : Holds h₁ v c T)
    (hf : Frame h ∅ h₁ T) : Rewrites h S (h₁.push i c).2 (.arr (items ++ [v])) i := by
  obtain ⟨hh₁, hdisj, hwhole⟩ := hh.beside hf
  have hvacant : h₁.isVacant i = false := hh₁.isVacant_eq
  obtain ⟨cells, Q, rfl, hout, hi, hcontent, hitems⟩ := hh₁.of_arr
  obtain ⟨hiT, hQT⟩ := Finset.disjoint_insert_left.mp hdisj
  have hbelow' := Below.sequence (hitems.concat hv hQT)
  have hheap : (h₁.push i c).2 = (h₁.attach i [c]).setContent i (.sequence (cells ++ [c])) := by
    unfold Heap.push
    rw [hvacant, if_neg (by simp)]
    simp only [hcontent]
  rw [hheap]
  refine hh.install hwhole hbelow' (Finset.union_subset_union_left (Finset.subset_insert i Q))
    (by simp [hout, hiT]) (by simp) ?_ ?_
  · rw [Heap.content_setContent_self _ _ (by simpa using hi)]
  · intro j hj
    rw [Heap.content_setContent_of_ne _ _ hj, Heap.content_attach]

/-- A container that lets a child go. -/
theorem Holds.dismiss {t u : Json} (hh : Holds h t i S) {h' : Heap} {content : Content}
    (hb : ∃ P ⊆ S, i ∉ P ∧ Below h u content P) (hsize : h'.cells.size = h.cells.size)
    (hself : h'.content i = content) (hother : ∀ j, j ≠ i → h'.content j = h.content j) :
    Rewrites h S h' u i := by
  obtain ⟨P, hP, hout, hbelow⟩ := hb
  have hwhole : Frame h S h (S ∪ ∅) := by
    rw [Finset.union_empty]
    exact .refl h S
  exact hh.install hwhole hbelow (by rwa [Finset.union_empty]) hout hsize hself hother

theorem Heap.remove_mapping {cells : List (String × Nat)} (hcontent : h.content i = .mapping cells)
    (key : ChildKey) :
    h.remove i key =
      match Fields.find? cells key.asName with
      | some child =>
        (some child, (h.setContent i (.mapping (Fields.erase cells key.asName))).detach [child])
      | none => (none, h) := by
  unfold Heap.remove
  rewrite [hcontent]
  rfl

theorem Heap.remove_sequence {cells : List Nat} (hcontent : h.content i = .sequence cells)
    (k : Nat) :
    h.remove i (.index k) =
      match cells[k]? with
      | some child => (some child, (h.setContent i (.sequence (cells.eraseIdx k))).detach [child])
      | none => (none, h) := by
  unfold Heap.remove
  rewrite [hcontent]
  rfl

/-- What stands at a key, which may be nothing, is taken out of its container. -/
theorem Holds.remove_name {fields : List (String × Json)} (hh : Holds h (.obj fields) i S)
    (key : ChildKey) :
    (h.remove i key).1.isSome = (Fields.find? fields key.asName).isSome ∧
      Rewrites h S (h.remove i key).2 (.obj (Fields.erase fields key.asName)) i := by
  have hfocus := hh
  obtain ⟨cells, Q, rfl, hout, hi, hcontent, hasc, hfields⟩ := hh.of_obj
  rw [h.remove_mapping hcontent]
  cases hname : Fields.find? fields key.asName with
  | none =>
    rw [hfields.find?_eq_none hname, Fields.erase_eq_self hname]
    exact ⟨rfl, .refl hfocus⟩
  | some v =>
    obtain ⟨child, hchild, -⟩ := hfields.focus hasc hname
    rw [hchild]
    refine ⟨rfl, ?_⟩
    obtain ⟨P, hP, herase⟩ := hfields.erase key.asName
    refine hfocus.dismiss ⟨P, hP.trans (Finset.subset_insert i Q), fun hmem => hout (hP hmem),
      .mapping (Fields.ascending_erase hasc _) herase⟩ (by simp) ?_ ?_
    · rw [Heap.content_detach, Heap.content_setContent_self _ _ hi]
    · intro j hj
      rw [Heap.content_detach, Heap.content_setContent_of_ne _ _ hj]

theorem Holds.remove_index {items : List Json} (hh : Holds h (.arr items) i S) (k : Nat) :
    (h.remove i (.index k)).1.isSome = (items[k]?).isSome ∧
      Rewrites h S (h.remove i (.index k)).2 (.arr (items.eraseIdx k)) i := by
  have hfocus := hh
  obtain ⟨cells, Q, rfl, hout, hi, hcontent, hitems⟩ := hh.of_arr
  have hlength := hitems.length_eq
  rw [h.remove_sequence hcontent]
  cases hk : items[k]? with
  | none =>
    have hge : items.length ≤ k := List.getElem?_eq_none_iff.mp hk
    rw [List.getElem?_eq_none (by omega), List.eraseIdx_of_length_le hge]
    exact ⟨rfl, .refl hfocus⟩
  | some v =>
    obtain ⟨child, hchild, -⟩ := hitems.focus hk
    rw [hchild]
    refine ⟨rfl, ?_⟩
    obtain ⟨P, hP, herase⟩ := hitems.eraseIdx k
    refine hfocus.dismiss ⟨P, hP.trans (Finset.subset_insert i Q), fun hmem => hout (hP hmem),
      .sequence herase⟩ (by simp) ?_ ?_
    · rw [Heap.content_detach, Heap.content_setContent_self _ _ hi]
    · intro j hj
      rw [Heap.content_detach, Heap.content_setContent_of_ne _ _ hj]

end Containers

end TreePath

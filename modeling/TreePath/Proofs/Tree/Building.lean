import TreePath.Proofs.Tree.Ownership

namespace TreePath

namespace Heap

variable {h h' h'' : Heap} {gone : Finset Nat} {i c : Nat}

section Keeping

/-- The heap is consistent afterwards, and all cells are still there. -/
structure Kept (gone : Finset Nat) (h h' : Heap) : Prop where
  size_le : h.cells.size ≤ h'.cells.size
  consistent : h'.Consistent gone

theorem Consistent.kept (hh : h.Consistent gone) : Kept gone h h := ⟨Nat.le_refl _, hh⟩

theorem Kept.trans (hk : Kept gone h h') (hk' : Kept gone h' h'') : Kept gone h h'' :=
  ⟨Nat.le_trans hk.size_le hk'.size_le, hk'.consistent⟩

theorem Kept.live (hk : Kept gone h h') (hi : h.Live gone i) : h'.Live gone i :=
  ⟨Nat.lt_of_lt_of_le hi.1 hk.size_le, hi.2⟩

theorem SoundExchange.kept {taken left : List Nat} (he : SoundExchange h gone i taken left h')
    (htidy : (h'.content i).Tidy) : Kept gone h h' :=
  ⟨Nat.le_of_eq he.exchanged.size_eq.symm, he.consistent_after htidy⟩

end Keeping

section Building

/-- The heap with an empty cell behind the others. -/
def reserve (h : Heap) : Heap := ⟨h.cells.push ⟨none, .leaf .null⟩⟩

theorem size_reserve (h : Heap) : h.reserve.cells.size = h.cells.size + 1 := Array.size_push _

theorem content_reserve (h : Heap) (j : Nat) : h.reserve.content j = h.content j := by
  simp only [content, reserve, Array.getElem?_push]
  by_cases hj : j = h.cells.size
  · simp [hj]
  · simp [hj]

theorem parent?_reserve (h : Heap) (j : Nat) : h.reserve.parent? j = h.parent? j := by
  simp only [parent?, reserve, Array.getElem?_push]
  by_cases hj : j = h.cells.size
  · simp [hj]
  · simp [hj]

theorem sameLinks_reserve (h : Heap) : SameLinks h h.reserve where
  size_le := Array.size_push _ ▸ Nat.le_succ _
  parent?_eq := h.parent?_reserve
  children_eq j := congrArg Content.children (h.content_reserve j)

theorem not_above_of_parent? (hnone : h.parent? i = none) : ¬ h.Above gone c i := by
  intro habove
  cases habove with
  | single hp =>
    rw [hp.parent?_eq] at hnone
    cases hnone
  | tail _ hp =>
    rw [hp.parent?_eq] at hnone
    cases hnone

/-- To make a cell is to fill an empty one. -/
theorem alloc_exchanged (h : Heap) {content : Content}
    (hlt : ∀ j ∈ content.children, j < h.cells.size) :
    Exchanged h.reserve h.cells.size content.children [] (h.alloc content).2 where
  size_eq := by rw [size_alloc, size_reserve]
  content_eq j hj := by
    rw [content_reserve]
    rcases Nat.lt_or_gt_of_ne hj with hlt | hgt
    · exact h.content_alloc_of_lt content hlt
    · rw [h.content_of_size_le (Nat.le_of_lt hgt), content_of_size_le]
      rw [size_alloc]
      exact hgt
  perm := by
    rw [content_alloc_self, content_reserve, h.content_of_size_le (Nat.le_refl _)]
    simp [Content.children, Content.entries]
  parent?_eq j := by
    rw [if_neg List.not_mem_nil, parent?_reserve]
    rcases Nat.lt_trichotomy j h.cells.size with hj | rfl | hj
    · exact h.parent?_alloc content hj
    · have hout : h.cells.size ∉ content.children := fun hmem => Nat.lt_irrefl _ (hlt _ hmem)
      rw [h.parent?_alloc_self content hout, if_neg hout, h.parent?_of_size_le (Nat.le_refl _)]
    · have hout : j ∉ content.children := fun hmem => Nat.lt_asymm hj (hlt _ hmem)
      rw [if_neg hout, h.parent?_of_size_le (Nat.le_of_lt hj), parent?_of_size_le]
      rw [size_alloc]
      exact hj

/-- A new cell takes in nodes that stand nowhere. -/
theorem Consistent.alloc (hh : h.Consistent gone) {content : Content} (htidy : content.Tidy)
    (hnodup : content.children.Nodup) (hloose : ∀ j ∈ content.children, h.Loose gone j) :
    Kept gone h (h.alloc content).2 := by
  have hreserve : h.reserve.Consistent gone := h.sameLinks_reserve.consistent hh fun j => by
    rw [content_reserve]
    exact hh.tidy j
  have he : SoundExchange h.reserve gone h.cells.size content.children [] (h.alloc content).2 := {
    consistent := hreserve
    live := hh.live_of_le (Nat.le_refl _) (by rw [size_reserve]; exact Nat.lt_succ_self _)
    insertable := fun j hj => {
      loose := h.sameLinks_reserve.loose (hloose j hj)
      ne := Nat.ne_of_lt (hloose j hj).1.1
      not_above := not_above_of_parent? (by
        rw [parent?_reserve, h.parent?_of_size_le (Nat.le_refl _)]) }
    nodup := hnodup
    exchanged := h.alloc_exchanged fun j hj => (hloose j hj).1.1 }
  refine ⟨by rw [size_alloc]; exact Nat.le_succ _, he.consistent_after ?_⟩
  rw [content_alloc_self]
  exact htidy

theorem Consistent.allocEmpty (hh : h.Consistent gone) (content : Content) (htidy : content.Tidy)
    (hnone : content.children = []) : Kept gone h (h.alloc content).2 := by
  refine hh.alloc htidy ?_ ?_
  · rw [hnone]
    exact .nil
  · rw [hnone]
    exact fun j hj => absurd hj List.not_mem_nil

/-- New nodes that stand nowhere may become children of any old one. -/
theorem Builds.insertable {cs : List Nat} (hb : Builds h h' cs) (hh : h.Consistent gone)
    (hh' : h'.Consistent gone) (hi : i < h.cells.size) : ∀ c ∈ cs, h'.Insertable gone i c := by
  intro c hc
  obtain ⟨hle, hlt, hnone⟩ := hb.orphaned c hc
  refine ⟨hh'.loose_of_parent? (hh.live_of_le hle hlt) hnone, by omega, ?_⟩
  refine not_above_of_le (fun {c p} hc hp => ?_) hi hle
  rw [hb.parent?_eq c hc] at hp
  exact (hh.parent_live hp).1

/-- New cells have been made on a consistent heap, and `orphans` are those that stand nowhere. -/
structure Built (gone : Finset Nat) (h h' : Heap) (orphans : List Nat) : Prop where
  builds : Builds h h' orphans
  consistent : h'.Consistent gone
  nodup : orphans.Nodup
  content_eq : ∀ j < h.cells.size, h'.content j = h.content j

namespace Built

theorem refl (hh : h.Consistent gone) : Built gone h h [] :=
  ⟨.refl h, hh, .nil, fun _ _ => rfl⟩

theorem alloc {content : Content} (hh : h.Consistent gone)
    (hb : Built gone h h' content.children) (htidy : content.Tidy) :
    Built gone h (h'.alloc content).2 [(h'.alloc content).1] where
  builds := hb.builds.alloc
  consistent := by
    refine (hb.consistent.alloc htidy hb.nodup fun j hj => ?_).consistent
    obtain ⟨hle, hlt, hnone⟩ := hb.builds.orphaned j hj
    exact hb.consistent.loose_of_parent? (hh.live_of_le hle hlt) hnone
  nodup := List.nodup_singleton _
  content_eq j hj := by
    have hlt : j < h'.cells.size := Nat.lt_of_lt_of_le hj hb.builds.size_le
    rw [h'.content_alloc_of_lt content hlt, hb.content_eq j hj]

theorem append {xs ys : List Nat} (hf : Built gone h h' xs) (hg : Built gone h' h'' ys) :
    Built gone h h'' (xs ++ ys) where
  builds := hf.builds.append hg.builds
  consistent := hg.consistent
  nodup := by
    refine hf.nodup.append hg.nodup fun j hx hy => ?_
    exact Nat.not_le_of_lt (hf.builds.orphaned j hx).2.1 (hg.builds.orphaned j hy).1
  content_eq j hj := by
    rw [hg.content_eq j (Nat.lt_of_lt_of_le hj hf.builds.size_le), hf.content_eq j hj]

end Built

theorem fieldsOf_names (h : Heap) (fields : List (String × Json)) :
    (h.fieldsOf fields).1.map Prod.fst = fields.map Prod.fst := by
  induction fields generalizing h with
  | nil => rfl
  | cons field rest ih => exact congrArg (field.1 :: ·) (ih _)

theorem tidy_fieldsOf (h : Heap) {fields : List (String × Json)} (hasc : Fields.Ascending fields) :
    (Content.mapping (h.fieldsOf fields).1).Tidy := by
  have hnames : ((h.fieldsOf fields).1.map Prod.fst).Pairwise (· < ·) := by
    rw [fieldsOf_names]
    exact List.pairwise_map.mpr hasc
  exact List.pairwise_map.mp hnames

mutual

theorem contentOf_built {h : Heap} (hh : h.Consistent gone) : (v : Json) → v.WellFormed →
    Built gone h (h.contentOf v).2 (h.contentOf v).1.children ∧ (h.contentOf v).1.Tidy
  | .obj fields, hv => by
    have hfields := fieldsOf_built hh fields hv.2
    rw [← Content.children_mapping] at hfields
    exact ⟨hfields, h.tidy_fieldsOf hv.1⟩
  | .arr items, hv => by
    have hitems := itemsOf_built hh items hv
    rw [← Content.children_sequence (h.itemsOf items).1] at hitems
    exact ⟨hitems, trivial⟩
  | .null, _ | .bool _, _ | .num _, _ | .str _, _ => ⟨.refl hh, trivial⟩

theorem itemsOf_built {h : Heap} (hh : h.Consistent gone) : (items : List Json) →
    Json.WellFormedItems items →
    Built gone h (h.itemsOf items).2 (h.itemsOf items).1
  | [], _ => .refl hh
  | v :: rest, hv =>
    have hfirst := (contentOf_built hh v hv.1).1.alloc hh (contentOf_built hh v hv.1).2
    hfirst.append (itemsOf_built hfirst.consistent rest hv.2)

theorem fieldsOf_built {h : Heap} (hh : h.Consistent gone) : (fields : List (String × Json)) →
    Json.WellFormedFields fields →
    Built gone h (h.fieldsOf fields).2 ((h.fieldsOf fields).1.map (·.2))
  | [], _ => .refl hh
  | (_, v) :: rest, hv =>
    have hfirst := (contentOf_built hh v hv.1).1.alloc hh (contentOf_built hh v hv.1).2
    hfirst.append (fieldsOf_built hfirst.consistent rest hv.2)

end

theorem ofJson_built (hh : h.Consistent gone) {v : Json} (hv : v.WellFormed) :
    Built gone h (h.ofJson v).2 [(h.ofJson v).1] :=
  (contentOf_built hh v hv).1.alloc hh (contentOf_built hh v hv).2

theorem leaf_built (hh : h.Consistent gone) {v : Json} (hv : v.WellFormed) :
    Built gone h (h.alloc (.leaf v)).2 [(h.alloc (.leaf v)).1] := (Built.refl hh).alloc hh hv

theorem Built.kept {cs : List Nat} (hb : Built gone h h' cs) : Kept gone h h' :=
  ⟨hb.builds.size_le, hb.consistent⟩

theorem Built.insertable {cs : List Nat} (hb : Built gone h h' cs) (hh : h.Consistent gone)
    (hi : h.Live gone i) : ∀ c ∈ cs, h'.Insertable gone i c :=
  hb.builds.insertable hh hb.consistent hi.1

end Building

end Heap

end TreePath

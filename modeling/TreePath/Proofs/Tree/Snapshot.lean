import Mathlib.Data.List.Forall2
import TreePath.Proofs.Tree.Children
import TreePath.Proofs.Tree.Location
import TreePath.Proofs.Tree.Mutation
import TreePath.Proofs.Walk.Matching

namespace TreePath

open TreeAccess

/-- The value of a node, from the values of its children. -/
def Content.valueWith (value : Nat → Json) : Content → Json
  | mapping fields => .obj (fields.map fun field => (field.1, value field.2))
  | sequence items => .arr (items.map value)
  | leaf v => v
  | function _ => .null

theorem Content.valueWith_congr {value value' : Nat → Json} {content : Content}
    (h : ∀ c ∈ content.children, value c = value' c) :
    content.valueWith value = content.valueWith value' := by
  cases content with
  | leaf | function => rfl
  | sequence items =>
    rw [children_sequence] at h
    exact congrArg Json.arr (List.map_congr_left h)
  | mapping fields =>
    rw [children_mapping] at h
    refine congrArg Json.obj (List.map_congr_left fun field hfield => ?_)
    rw [h field.2 (List.mem_map_of_mem hfield)]

namespace Heap

variable {h : Heap} {gone : Finset Nat} {i c p : Nat}

section Depth

theorem toJsonWithin_succ (h : Heap) (depth i : Nat) :
    h.toJsonWithin (depth + 1) i = (h.content i).valueWith (h.toJsonWithin depth) := by
  rw [toJsonWithin]
  cases h.content i <;> rfl

namespace Consistent

variable (hh : h.Consistent gone)

include hh

theorem parentOf_of_mem_children (hi : h.Live gone i) (hc : c ∈ (h.content i).children) :
    h.ParentOf gone i c := by
  have hlive := hh.closed hi hc
  exact ⟨hlive, liveParent?_eq_some.mpr ⟨(hh.linked hi hlive).mp hc, hi.2⟩⟩

theorem lt_size_of_above (ha : h.Above gone p c) : p < h.cells.size := by
  induction ha using Relation.TransGen.head_induction_on with
  | single hp => exact (hh.parent_live hp.parent?_eq).1
  | head hp _ _ => exact (hh.parent_live hp.parent?_eq).1

theorem not_above_self (c : Nat) : ¬ h.Above gone c c := fun ha =>
  hh.grounded.transGen.asymmetric _ _ ha ha

/-- On the way down to a node there are no more nodes than there are cells. -/
theorem length_lt_size (hi : h.Live gone i) {above : List Nat} (hnodup : above.Nodup)
    (habove : ∀ a ∈ above, h.Above gone a i) : above.length < h.cells.size := by
  have hcons : (i :: above).Nodup :=
    List.nodup_cons.mpr ⟨fun hmem => hh.not_above_self i (habove i hmem), hnodup⟩
  have hsub : i :: above ⊆ List.range h.cells.size := by
    intro a ha
    rcases List.mem_cons.mp ha with rfl | ha
    · exact List.mem_range.mpr hi.1
    · exact List.mem_range.mpr (hh.lt_size_of_above (habove a ha))
  have hle := (List.subperm_of_subset hcons hsub).length_le
  simp only [List.length_cons, List.length_range] at hle
  omega

/-- With the nodes above a node and the depth that is left there is room for all cells, so more depth
makes no difference. -/
theorem toJsonWithin_add (extra depth : Nat) {above : List Nat} (hi : h.Live gone i)
    (hnodup : above.Nodup) (habove : ∀ a ∈ above, h.Above gone a i)
    (hroom : h.cells.size ≤ depth + above.length) :
    h.toJsonWithin (depth + extra) i = h.toJsonWithin depth i := by
  induction depth generalizing i above with
  | zero =>
    have hlt := hh.length_lt_size hi hnodup habove
    omega
  | succ depth ih =>
    have hnot : i ∉ above := fun hmem => hh.not_above_self i (habove i hmem)
    have hchild : ∀ c ∈ (h.content i).children,
        h.toJsonWithin (depth + extra) c = h.toJsonWithin depth c := by
      intro c hc
      have hparent := hh.parentOf_of_mem_children hi hc
      have hbelow : ∀ a ∈ i :: above, h.Above gone a c := by
        intro a ha
        rcases List.mem_cons.mp ha with rfl | ha
        · exact .single hparent
        · exact (habove a ha).tail hparent
      refine ih (hh.closed hi hc) (List.nodup_cons.mpr ⟨hnot, hnodup⟩) hbelow ?_
      rw [List.length_cons]
      omega
    rw [Nat.succ_add_eq_add_succ, Nat.add_succ, toJsonWithin_succ, toJsonWithin_succ]
    exact Content.valueWith_congr hchild

/-- The value of a node is made of the values of its children. -/
theorem toJson_eq (hi : h.Live gone i) : h.toJson i = (h.content i).valueWith h.toJson := by
  obtain ⟨depth, hdepth⟩ : ∃ depth, h.cells.size = depth + 1 :=
    ⟨h.cells.size - 1, by have := hi.1; omega⟩
  have hchild : ∀ c ∈ (h.content i).children, h.toJsonWithin depth c = h.toJson c := by
    intro c hc
    have habove : ∀ a ∈ [i], h.Above gone a c := by
      intro a ha
      obtain rfl := List.mem_singleton.mp ha
      exact .single (hh.parentOf_of_mem_children hi hc)
    have hmore := hh.toJsonWithin_add 1 depth (hh.closed hi hc) (List.nodup_singleton i) habove
      (by simp [hdepth])
    rw [toJson, hdepth, hmore]
  rw [toJson, hdepth, toJsonWithin_succ]
  exact Content.valueWith_congr hchild

end Consistent

end Depth

/-- No leaf in or below the node holds a container. -/
def Plain (h : Heap) (i : Nat) : Prop :=
  ∀ j, Relation.ReflTransGen (fun n c => c ∈ (h.content n).children) i j →
    ∀ v, h.content j = .leaf v → v.kind = .leaf

theorem Plain.of_mem_children (hp : h.Plain i) (hc : c ∈ (h.content i).children) : h.Plain c :=
  fun j hj => hp j (.head hc hj)

end Heap

/-- A tree that is made for a value has no containers in its leaves. -/
theorem Holds.plain {h : Heap} {v : Json} {i : Nat} {S : Finset Nat} (hh : Holds h v i S) :
    h.Plain i := by
  intro j hj
  induction hj using Relation.ReflTransGen.head_induction_on generalizing v S with
  | refl =>
    intro w hw
    obtain ⟨T, -, -, -, hbelow⟩ := hh.content_below
    rw [hw] at hbelow
    cases hbelow with
    | leaf hv => exact hv
  | head hc _ ih =>
    obtain ⟨T, -, -, -, hbelow⟩ := hh.content_below
    obtain ⟨entry, hentry, rfl⟩ := List.mem_map.mp hc
    obtain ⟨hlength, hget⟩ := List.forall₂_iff_get.mp hbelow.cells.1
    obtain ⟨k, hk, rfl⟩ := List.mem_iff_getElem.mp hentry
    obtain ⟨-, U, hchild⟩ := hget k (hlength ▸ hk) hk
    exact ih hchild

/-- Each key stands for what is listed with it. -/
theorem Content.child?_of_mem_entries {content : Content} (ht : content.Tidy) {key : ChildKey}
    {c : Nat} (hmem : (key, c) ∈ content.entries) : content.child? key = some c := by
  cases content with
  | leaf | function => cases hmem
  | mapping fields =>
    simp only [entries, List.mem_map, Prod.mk.injEq, Prod.exists] at hmem
    obtain ⟨name, i, hfield, rfl, rfl⟩ := hmem
    exact Fields.find?_of_mem ht hfield
  | sequence items =>
    simp only [entries, List.mem_map, Prod.mk.injEq, Prod.exists] at hmem
    obtain ⟨i, position, hitem, rfl, rfl⟩ := hmem
    exact List.mem_zipIdx_iff_getElem?.mp hitem

section Values

variable {h : Heap} {gone : Finset Nat}

/-- The value is that of the live node, in and below which no leaf holds a container. -/
structure SnapshotOf (h : Heap) (gone : Finset Nat) (n : HeapNode) (v : Json) : Prop where
  heap_eq : n.heap = h
  live : h.Live gone n.cell
  plain : h.Plain n.cell
  value_eq : v = h.toJson n.cell

namespace SnapshotOf

variable (hh : h.Consistent gone) {n : HeapNode} {v : Json}

include hh

theorem eq_valueWith (hs : SnapshotOf h gone n v) : v = (h.content n.cell).valueWith h.toJson := by
  rw [hs.value_eq, hh.toJson_eq hs.live]

theorem child (hs : SnapshotOf h gone n v) {c : Nat} (hc : c ∈ (h.content n.cell).children) :
    SnapshotOf h gone (n.goto c) (h.toJson c) :=
  ⟨hs.heap_eq, hh.closed hs.live hc, hs.plain.of_mem_children hc, rfl⟩

theorem kind_eq (hs : SnapshotOf h gone n v) : (h.content n.cell).kind = v.kind := by
  have hv := hs.eq_valueWith hh
  cases hcontent : h.content n.cell with
  | leaf w =>
    have hw := hs.plain _ .refl w hcontent
    rw [hv, hcontent]
    exact hw.symm
  | mapping | sequence | function => rw [hv, hcontent]; rfl

theorem size_eq (hs : SnapshotOf h gone n v) : (h.content n.cell).size = v.size := by
  have hv := hs.eq_valueWith hh
  cases hcontent : h.content n.cell with
  | leaf w =>
    rw [hv, hcontent]
    exact (Json.of_kind_leaf (hs.plain _ .refl w hcontent)).1.symm
  | mapping | sequence => rw [hv, hcontent]; simp [Content.size, Content.valueWith, Json.size]
  | function => rw [hv, hcontent]; rfl

theorem child?_eq (hs : SnapshotOf h gone n v) (key : ChildKey) :
    v.child? key = ((h.content n.cell).child? key).map h.toJson := by
  have hv := hs.eq_valueWith hh
  cases hcontent : h.content n.cell with
  | leaf w =>
    rw [hv, hcontent]
    exact (Json.of_kind_leaf (hs.plain _ .refl w hcontent)).2.2 key
  | mapping fields =>
    rw [hv, hcontent]
    cases key <;> exact Fields.find?_map h.toJson fields _
  | sequence items =>
    rw [hv, hcontent]
    cases key with
    | name => rfl
    | index k => exact List.getElem?_map
  | function => rw [hv, hcontent]; rfl

theorem children_eq (hs : SnapshotOf h gone n v) :
    v.children = (h.content n.cell).entries.map fun entry => (entry.1, h.toJson entry.2) := by
  have hv := hs.eq_valueWith hh
  cases hcontent : h.content n.cell with
  | leaf w =>
    rw [hv, hcontent]
    exact (Json.of_kind_leaf (hs.plain _ .refl w hcontent)).2.1
  | mapping fields =>
    rw [hv, hcontent]
    simp [Content.valueWith, Json.children, Content.entries]
  | sequence items =>
    rw [hv, hcontent]
    simp [Content.valueWith, Json.children, Content.entries, List.zipIdx_map]
  | function => rw [hv, hcontent]; rfl

end SnapshotOf

/-- A live node looks like its value. -/
theorem snapshot_likeness (hh : h.Consistent gone) : Likeness (SnapshotOf h gone) where
  kind_eq := by
    intro n v hs
    obtain ⟨_, i⟩ := n
    obtain rfl := hs.heap_eq
    exact hs.kind_eq hh
  size_eq := by
    intro n v hs
    obtain ⟨_, i⟩ := n
    obtain rfl := hs.heap_eq
    exact hs.size_eq hh
  toJson_eq := by
    intro n v hs
    obtain ⟨_, i⟩ := n
    obtain rfl := hs.heap_eq
    exact hs.value_eq.symm
  child? := by
    intro n v hs key
    obtain ⟨_, i⟩ := n
    obtain rfl := hs.heap_eq
    change Option.Rel _ (Option.map _ (Heap.child? _ i key)) (v.child? key)
    rw [hs.child?_eq hh]
    change Option.Rel _ (Option.map _ (Heap.child? _ i key)) (Option.map _ (Heap.child? _ i key))
    cases hc : Heap.child? _ i key with
    | none => exact .none
    | some c => exact .some (hs.child hh (Heap.mem_children_of_child? hc))
  entries := by
    intro n v hs
    obtain ⟨_, i⟩ := n
    obtain rfl := hs.heap_eq
    change List.Forall₂ _ (List.map _ _) v.children
    rw [hs.children_eq hh, List.forall₂_map_left_iff, List.forall₂_map_right_iff]
    refine List.forall₂_same.mpr fun entry hentry => ⟨rfl, ?_⟩
    exact hs.child hh (List.mem_map_of_mem hentry)

end Values

end TreePath

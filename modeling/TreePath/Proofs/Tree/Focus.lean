import Mathlib.Data.Finset.Card
import TreePath.Proofs.Tree.Holds
import TreePath.Tree.Update

namespace TreePath

/-- A step from one heap to another that only touches the cells in `S`, among the old ones, and
leaves a part with cells `S'`, which are from `S` or new. -/
structure Frame (h : Heap) (S : Finset Nat) (h' : Heap) (S' : Finset Nat) : Prop where
  size_le : h.cells.size ≤ h'.cells.size
  content_eq : ∀ j < h.cells.size, j ∉ S → h'.content j = h.content j
  fresh : ∀ j ∈ S', j ∈ S ∨ h.cells.size ≤ j

namespace Frame

variable {h h' h'' : Heap} {S S' S'' T : Finset Nat}

theorem refl (h : Heap) (S : Finset Nat) : Frame h S h S :=
  ⟨Nat.le_refl _, fun _ _ _ => rfl, fun _ => .inl⟩

theorem trans (hf : Frame h S h' S') (hg : Frame h' S' h'' S'') : Frame h S h'' S'' := by
  refine ⟨Nat.le_trans hf.size_le hg.size_le, fun j hj hS => ?_, fun j hj => ?_⟩
  · have hS' : j ∉ S' := fun hj' => (hf.fresh j hj').elim hS (by omega)
    rw [hg.content_eq j (Nat.lt_of_lt_of_le hj hf.size_le) hS', hf.content_eq j hj hS]
  · rcases hg.fresh j hj with hj | hj
    · exact hf.fresh j hj
    · exact .inr (Nat.le_trans hf.size_le hj)

theorem shrink (hf : Frame h S h' S') (hsub : T ⊆ S') : Frame h S h' T :=
  ⟨hf.size_le, hf.content_eq, fun j hj => hf.fresh j (hsub hj)⟩

/-- Cells outside of the part hold what they held. -/
theorem agrees (hf : Frame h S h' S') (hT : ∀ j ∈ T, j < h.cells.size) (hdisj : Disjoint S T) :
    Agrees h h' T :=
  ⟨hf.size_le, fun j hj => hf.content_eq j (hT j hj) (Finset.disjoint_right.mp hdisj hj)⟩

/-- What was apart from a part stays apart from it. -/
theorem disjoint (hf : Frame h S h' S') (hT : ∀ j ∈ T, j < h.cells.size) (hdisj : Disjoint S T) :
    Disjoint S' T := by
  rw [Finset.disjoint_left]
  intro j hj hjT
  rcases hf.fresh j hj with hS | hsize
  · exact Finset.disjoint_left.mp hdisj hS hjT
  · have := hT j hjT
    omega

/-- The whole around a part after a step within the part. -/
theorem union (hf : Frame h S h' S') (T : Finset Nat) : Frame h (S ∪ T) h' (S' ∪ T) := by
  refine ⟨hf.size_le, fun j hj hS => ?_, fun j hj => ?_⟩
  · exact hf.content_eq j hj fun hj' => hS (Finset.mem_union_left _ hj')
  · rcases Finset.mem_union.mp hj with hj | hj
    · exact (hf.fresh j hj).imp_left (Finset.mem_union_left _)
    · exact .inl (Finset.mem_union_right _ hj)

theorem insert (hf : Frame h S h' S') (i : Nat) :
    Frame h (Insert.insert i S) h' (Insert.insert i S') := by
  have hunion := hf.union {i}
  rwa [Finset.union_comm S, Finset.union_comm S', ← Finset.insert_eq, ← Finset.insert_eq] at hunion

end Frame

/-- A part of a whole: `v` in cell `c`. After any step within the part, the whole is there again,
with what is now in the cell. -/
def Focused (h : Heap) (S : Finset Nat) (v : Json) (c : Nat)
    (whole : Heap → Json → Finset Nat → Prop) : Prop :=
  ∃ T ⊆ S, Holds h v c T ∧ ∀ h' v' T', Frame h T h' T' → Holds h' v' c T' →
    ∃ S', whole h' v' S' ∧ Frame h S h' S'

section Focus

variable {h : Heap} {S : Finset Nat}

theorem HoldsItems.focus {items : List Json} {cells : List Nat} (hh : HoldsItems h items cells S)
    {k : Nat} {v : Json} (hk : items[k]? = some v) :
    ∃ c, cells[k]? = some c ∧
      Focused h S v c fun h' v' => HoldsItems h' (items.set k v') cells := by
  induction items generalizing cells S k with
  | nil => simp at hk
  | cons w items ih =>
    cases hh with
    | @cons _ i _ cells S T hw hrest hdisj =>
    cases k with
    | zero =>
      obtain rfl : w = v := by simpa using hk
      refine ⟨i, rfl, S, Finset.subset_union_left, hw, fun h' v' T' hf hv' => ?_⟩
      have hrest' := hrest.transport (hf.agrees hrest.lt_size hdisj)
      exact ⟨_, .cons hv' hrest' (hf.disjoint hrest.lt_size hdisj), hf.union T⟩
    | succ k =>
      obtain ⟨c, hc, P, hP, hv, hwhole⟩ := ih hrest (by simpa using hk)
      refine ⟨c, by simpa using hc, P, hP.trans Finset.subset_union_right, hv,
        fun h' v' T' hf hv' => ?_⟩
      obtain ⟨S', hitems, hframe⟩ := hwhole h' v' T' hf hv'
      have hw' := hw.transport (hframe.agrees hw.lt_size hdisj.symm)
      have hdisj' := (hframe.disjoint hw.lt_size hdisj.symm).symm
      refine ⟨_, .cons hw' hitems hdisj', ?_⟩
      rw [Finset.union_comm S T, Finset.union_comm S S']
      exact hframe.union S

theorem HoldsFields.focus {fields : List (String × Json)} {cells : List (String × Nat)}
    (hh : HoldsFields h fields cells S) (hasc : Fields.Ascending fields) {name : String} {v : Json}
    (hname : Fields.find? fields name = some v) :
    ∃ c, Fields.find? cells name = some c ∧
      Focused h S v c fun h' v' => HoldsFields h' (Fields.insert fields name v') cells := by
  induction fields generalizing cells S with
  | nil => simp [Fields.find?] at hname
  | cons field fields ih =>
    cases hh with
    | @cons n w i _ cells S T hw hrest hdisj =>
    by_cases hn : n = name
    · obtain rfl : w = v := by simpa [Fields.find?, hn] using hname
      refine ⟨i, by simp [Fields.find?, hn], S, Finset.subset_union_left, hw,
        fun h' v' T' hf hv' => ?_⟩
      have hrest' := hrest.transport (hf.agrees hrest.lt_size hdisj)
      refine ⟨_, ?_, hf.union T⟩
      change HoldsFields h' (Fields.insert ((n, w) :: fields) name v') ((n, i) :: cells) (T' ∪ T)
      rw [Fields.insert, if_pos hn, hn]
      exact .cons hv' hrest' (hf.disjoint hrest.lt_size hdisj)
    · have hfind : Fields.find? fields name = some v := by simpa [Fields.find?, hn] using hname
      have hlt : ¬name < n := String.lt_asymm (Fields.lt_of_find? hasc hfind)
      obtain ⟨c, hc, P, hP, hv, hwhole⟩ := ih hrest (Fields.ascending_cons.mp hasc).2 hfind
      refine ⟨c, by simp [Fields.find?, hn, hc], P, hP.trans Finset.subset_union_right, hv,
        fun h' v' T' hf hv' => ?_⟩
      obtain ⟨S', hfields, hframe⟩ := hwhole h' v' T' hf hv'
      have hw' := hw.transport (hframe.agrees hw.lt_size hdisj.symm)
      have hdisj' := (hframe.disjoint hw.lt_size hdisj.symm).symm
      refine ⟨S ∪ S', ?_, ?_⟩
      · change HoldsFields h' (Fields.insert ((n, w) :: fields) name v') ((n, i) :: cells) (S ∪ S')
        rw [Fields.insert, if_neg hn, if_neg hlt]
        exact .cons hw' hfields hdisj'
      · rw [Finset.union_comm S T, Finset.union_comm S S']
        exact hframe.union S

theorem Below.focus {t : Json} {c : Content} (hh : Below h t c S) {key : ChildKey} {v : Json}
    (hkey : t.child? key = some v) :
    ∃ i, c.child? key = some i ∧
      Focused h S v i fun h' v' => Below h' (t.replaceChild key v') c := by
  cases hh with
  | leaf hv =>
    cases t with
    | arr | obj => simp [Json.kind] at hv
    | null | bool | num | str => simp [Json.child?] at hkey
  | sequence hitems =>
    cases key with
    | name n => simp [Json.child?] at hkey
    | index k =>
      obtain ⟨i, hi, T, hT, hv, hwhole⟩ := hitems.focus hkey
      refine ⟨i, hi, T, hT, hv, fun h' v' T' hf hv' => ?_⟩
      obtain ⟨S', hitems', hframe⟩ := hwhole h' v' T' hf hv'
      exact ⟨S', .sequence hitems', hframe⟩
  | @mapping fields _ _ hasc hfields =>
    have hkey' : Fields.find? fields key.asName = some v := by
      cases key <;> exact hkey
    obtain ⟨i, hi, T, hT, hv, hwhole⟩ := hfields.focus hasc hkey'
    refine ⟨i, by cases key <;> exact hi, T, hT, hv, fun h' v' T' hf hv' => ?_⟩
    obtain ⟨S', hfields', hframe⟩ := hwhole h' v' T' hf hv'
    exact ⟨S', .mapping (Fields.ascending_insert hasc _ _) hfields', hframe⟩

/-- The child of a value at a key, in its cell. -/
theorem Holds.focus {t : Json} {i : Nat} (hh : Holds h t i S) {key : ChildKey} {v : Json}
    (hkey : t.child? key = some v) :
    ∃ c, h.child? i key = some c ∧
      Focused h S v c fun h' v' => Holds h' (t.replaceChild key v') i := by
  cases hh with
  | @node _ _ c S hi hc hout hbelow =>
    obtain ⟨child, hchild, T, hT, hv, hwhole⟩ := hbelow.focus hkey
    refine ⟨child, by rw [Heap.child?, hc, hchild], T, hT.trans (Finset.subset_insert i S), hv,
      fun h' v' T' hf hv' => ?_⟩
    obtain ⟨S', hbelow', hframe⟩ := hwhole h' v' T' hf hv'
    have hout' : i ∉ S' := fun hmem => (hframe.fresh i hmem).elim hout (by omega)
    have hcontent : h'.content i = c := (hframe.content_eq i hi hout).trans hc
    exact ⟨insert i S', .node (Nat.lt_of_lt_of_le hi hframe.size_le) hcontent hout' hbelow',
      hframe.insert i⟩

end Focus

section Views

variable {h : Heap} {S : Finset Nat}

theorem HoldsItems.length_eq {items : List Json} {cells : List Nat}
    (hh : HoldsItems h items cells S) : cells.length = items.length := by
  induction items generalizing cells S with
  | nil => cases hh; rfl
  | cons v items ih =>
    cases hh with
    | cons _ hrest _ => rw [List.length_cons, List.length_cons, ih hrest]

theorem HoldsFields.names_eq {fields : List (String × Json)} {cells : List (String × Nat)}
    (hh : HoldsFields h fields cells S) : cells.map Prod.fst = fields.map Prod.fst := by
  induction fields generalizing cells S with
  | nil => cases hh; rfl
  | cons field fields ih =>
    cases hh with
    | cons _ hrest _ => rw [List.map_cons, List.map_cons, ih hrest]

theorem HoldsFields.find?_eq_none {fields : List (String × Json)} {cells : List (String × Nat)}
    (hh : HoldsFields h fields cells S) {name : String} (hnone : Fields.find? fields name = none) :
    Fields.find? cells name = none := by
  induction fields generalizing cells S with
  | nil => cases hh; rfl
  | cons field fields ih =>
    cases hh with
    | @cons n _ _ _ _ _ _ _ hrest _ =>
      by_cases hn : n = name
      · simp [Fields.find?, hn] at hnone
      · simp only [Fields.find?, hn, if_false] at hnone ⊢
        exact ih hrest hnone

variable {t : Json} {c : Content} {i : Nat}

theorem Below.child?_eq_none (hh : Below h t c S) {key : ChildKey} (hnone : t.child? key = none) :
    c.child? key = none := by
  cases hh with
  | leaf hv => cases key <;> rfl
  | sequence hitems =>
    cases key with
    | name n => rfl
    | index k =>
      have hlength := hitems.length_eq
      simp only [Json.child?, Content.child?, List.getElem?_eq_none_iff] at hnone ⊢
      omega
  | @mapping fields _ _ _ hfields =>
    have hvalue : Fields.find? fields key.asName = none := by cases key <;> exact hnone
    have hname := hfields.find?_eq_none hvalue
    cases key <;> exact hname

theorem Below.kind_eq (hh : Below h t c S) : c.kind = t.kind := by
  cases hh with
  | leaf hv => exact hv.symm
  | sequence | mapping => rfl

theorem Below.size_eq (hh : Below h t c S) : c.size = t.size := by
  cases hh with
  | leaf hv =>
    cases t with
    | arr | obj => simp [Json.kind] at hv
    | null | bool | num | str => rfl
  | sequence hitems => exact hitems.length_eq
  | mapping _ hfields =>
    have hnames := congrArg List.length hfields.names_eq
    rw [List.length_map, List.length_map] at hnames
    exact hnames

theorem zipIdx_keys {α : Type} (l : List α) :
    (l.zipIdx.map fun (x, k) => (ChildKey.index k, x)).map Prod.fst =
      (List.range' 0 l.length).map ChildKey.index := by
  rw [List.map_map, ← List.zipIdx_map_snd, List.map_map]
  rfl

theorem fields_keys {α : Type} (l : List (String × α)) :
    (l.map fun (name, x) => (ChildKey.name name, x)).map Prod.fst =
      (l.map Prod.fst).map ChildKey.name := by
  rw [List.map_map, List.map_map]
  rfl

theorem Below.childKeys_eq (hh : Below h t c S) : c.entries.map Prod.fst = t.childKeys := by
  cases hh with
  | leaf hv =>
    cases t with
    | arr | obj => simp [Json.kind] at hv
    | null | bool | num | str => rfl
  | sequence hitems =>
    rw [Content.entries, Json.childKeys, Json.children, zipIdx_keys, zipIdx_keys,
      hitems.length_eq]
  | mapping _ hfields =>
    rw [Content.entries, Json.childKeys, Json.children, fields_keys, fields_keys,
      hfields.names_eq]

namespace Holds

theorem content_below (hh : Holds h t i S) : ∃ T, S = insert i T ∧ i ∉ T ∧ i < h.cells.size ∧
    Below h t (h.content i) T := by
  cases hh with
  | node hi hc hout hbelow => exact ⟨_, rfl, hout, hi, hc ▸ hbelow⟩

/-- The cell of an object. -/
theorem of_obj {fields : List (String × Json)} (hh : Holds h (.obj fields) i S) :
    ∃ cells T, S = insert i T ∧ i ∉ T ∧ i < h.cells.size ∧ h.content i = .mapping cells ∧
      Fields.Ascending fields ∧ HoldsFields h fields cells T := by
  obtain ⟨T, hS, hout, hi, hbelow⟩ := hh.content_below
  generalize h.content i = c at hbelow
  cases hbelow with
  | leaf hv => simp [Json.kind] at hv
  | mapping hasc hfields => exact ⟨_, T, hS, hout, hi, rfl, hasc, hfields⟩

/-- The cell of an array. -/
theorem of_arr {items : List Json} (hh : Holds h (.arr items) i S) :
    ∃ cells T, S = insert i T ∧ i ∉ T ∧ i < h.cells.size ∧ h.content i = .sequence cells ∧
      HoldsItems h items cells T := by
  obtain ⟨T, hS, hout, hi, hbelow⟩ := hh.content_below
  generalize h.content i = c at hbelow
  cases hbelow with
  | leaf hv => simp [Json.kind] at hv
  | sequence hitems => exact ⟨_, T, hS, hout, hi, rfl, hitems⟩

theorem kind_eq (hh : Holds h t i S) : h.kind i = t.kind := by
  obtain ⟨T, -, -, -, hbelow⟩ := hh.content_below
  exact hbelow.kind_eq

theorem size_eq (hh : Holds h t i S) : (h.content i).size = t.size := by
  obtain ⟨T, -, -, -, hbelow⟩ := hh.content_below
  exact hbelow.size_eq

theorem childKeys_eq (hh : Holds h t i S) : h.childKeys i = t.childKeys := by
  obtain ⟨T, -, -, -, hbelow⟩ := hh.content_below
  exact hbelow.childKeys_eq

theorem child?_eq_none (hh : Holds h t i S) {key : ChildKey} (hnone : t.child? key = none) :
    h.child? i key = none := by
  obtain ⟨T, -, -, -, hbelow⟩ := hh.content_below
  exact hbelow.child?_eq_none hnone

theorem isVacant_eq (hh : Holds h t i S) : h.isVacant i = t.isNull := by
  obtain ⟨T, -, -, -, hbelow⟩ := hh.content_below
  unfold Heap.isVacant
  generalize h.content i = c at hbelow
  cases hbelow with
  | leaf | sequence | mapping => rfl

end Holds

end Views

end TreePath

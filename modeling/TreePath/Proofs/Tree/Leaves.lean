import TreePath.Proofs.Tree.Location

namespace TreePath.Json

mutual

/-- The leaves in a value, from the front to the back, nulls among them. A leaf is its own one. -/
def leaves : Json → List Json
  | .arr items => leavesOfItems items
  | .obj fields => leavesOfFields fields
  | v => [v]

def leavesOfItems : List Json → List Json
  | [] => []
  | v :: rest => v.leaves ++ leavesOfItems rest

def leavesOfFields : List (String × Json) → List Json
  | [] => []
  | (_, v) :: rest => v.leaves ++ leavesOfFields rest

end

mutual

/-- The value with `f` of each of its leaves in the place of the leaf. Where `f` gives nothing, the
leaf is left out, and the elements of a sequence close up. -/
def editLeaves (f : Json → Option Json) : Json → Option Json
  | .arr items => some (.arr (editLeavesOfItems f items))
  | .obj fields => some (.obj (editLeavesOfFields f fields))
  | v => f v

def editLeavesOfItems (f : Json → Option Json) : List Json → List Json
  | [] => []
  | v :: rest =>
    match v.editLeaves f with
    | some w => w :: editLeavesOfItems f rest
    | none => editLeavesOfItems f rest

def editLeavesOfFields (f : Json → Option Json) : List (String × Json) → List (String × Json)
  | [] => []
  | (name, v) :: rest =>
    match v.editLeaves f with
    | some w => (name, w) :: editLeavesOfFields f rest
    | none => editLeavesOfFields f rest

end

section Nesting

theorem nesting_le_nestingItems {v : Json} {items : List Json} (h : v ∈ items) :
    v.nesting ≤ nestingItems items := by
  induction items with
  | nil => exact absurd h List.not_mem_nil
  | cons w rest ih =>
    rw [nestingItems]
    rcases List.mem_cons.mp h with rfl | h
    · exact Nat.le_max_left _ _
    · exact Nat.le_trans (ih h) (Nat.le_max_right _ _)

theorem nesting_le_nestingFields {name : String} {v : Json} {fields : List (String × Json)}
    (h : (name, v) ∈ fields) : v.nesting ≤ nestingFields fields := by
  induction fields with
  | nil => exact absurd h List.not_mem_nil
  | cons field rest ih =>
    rw [nestingFields]
    rcases List.mem_cons.mp h with rfl | h
    · exact Nat.le_max_left _ _
    · exact Nat.le_trans (ih h) (Nat.le_max_right _ _)

theorem nesting_lt_of_mem_children {t v : Json} {key : ChildKey} (h : (key, v) ∈ t.children) :
    v.nesting < t.nesting := by
  cases t with
  | arr items =>
    obtain ⟨i, -, hget⟩ := mem_children_arr.mp h
    exact Nat.lt_succ_of_le (nesting_le_nestingItems (List.mem_of_getElem? hget))
  | obj fields =>
    obtain ⟨name, -, hmem⟩ := mem_children_obj.mp h
    exact Nat.lt_succ_of_le (nesting_le_nestingFields hmem)
  | null | bool | num | str => exact absurd h List.not_mem_nil

/-- What holds of every leaf, and of a container when it holds of its children, holds of all
values. -/
@[elab_as_elim]
theorem induction_children {motive : Json → Prop} (leaf : ∀ t : Json, t.kind = .leaf → motive t)
    (container : ∀ t : Json, t.kind ≠ .leaf → (∀ key v, (key, v) ∈ t.children → motive v) →
      motive t) (t : Json) : motive t := by
  by_cases ht : t.kind = .leaf
  · exact leaf t ht
  · refine container t ht fun key v hv => ?_
    have hless := nesting_lt_of_mem_children hv
    exact induction_children leaf container v
termination_by t.nesting

end Nesting

section Children

variable {t : Json} (f : Json → Option Json)

theorem leaves_leaf (ht : t.kind = .leaf) : t.leaves = [t] := by
  cases t with
  | arr | obj => cases ht
  | null | bool | num | str => rfl

theorem editLeaves_leaf (ht : t.kind = .leaf) : t.editLeaves f = f t := by
  cases t with
  | arr | obj => cases ht
  | null | bool | num | str => rfl

/-- The leaves of a container are those of its children. -/
theorem leaves_eq (ht : t.kind ≠ .leaf) : t.leaves = t.children.flatMap fun e => e.2.leaves := by
  cases t with
  | arr items =>
    have hitems : leavesOfItems items = items.flatMap leaves := by
      clear ht
      induction items with
      | nil => rfl
      | cons v rest ih => rw [leavesOfItems, ih, List.flatMap_cons]
    have hfirst : items.flatMap leaves = (items.zipIdx.map Prod.fst).flatMap leaves := by
      rw [List.zipIdx_map_fst]
    rw [leaves, hitems, hfirst, List.flatMap_map, children, List.flatMap_map]
  | obj fields =>
    rw [leaves, children, List.flatMap_map]
    clear ht
    induction fields with
    | nil => rfl
    | cons field rest ih => rw [leavesOfFields, ih, List.flatMap_cons]
  | null | bool | num | str => exact absurd rfl ht

theorem editLeavesOfItems_eq (items : List Json) :
    editLeavesOfItems f items = items.filterMap (editLeaves f) := by
  induction items with
  | nil => rfl
  | cons v rest ih =>
    rw [editLeavesOfItems, ih, List.filterMap_cons]
    cases v.editLeaves f <;> rfl

theorem editLeavesOfFields_eq (fields : List (String × Json)) :
    editLeavesOfFields f fields =
      fields.filterMap fun (name, v) => (v.editLeaves f).map fun w => (name, w) := by
  induction fields with
  | nil => rfl
  | cons field rest ih =>
    obtain ⟨name, v⟩ := field
    rw [editLeavesOfFields, ih, List.filterMap_cons]
    cases hv : v.editLeaves f <;> simp [hv]

/-- The leaves of a container are edited in each of its children. -/
theorem editLeaves_eq (ht : t.kind ≠ .leaf) :
    t.editLeaves f = some (t.editChildren fun _ v => v.editLeaves f) := by
  cases t with
  | arr items =>
    have hfirst : items.filterMap (editLeaves f) =
        (items.zipIdx.map Prod.fst).filterMap (editLeaves f) := by
      rw [List.zipIdx_map_fst]
    rw [editLeaves, editLeavesOfItems_eq, hfirst, List.filterMap_map]
    rfl
  | obj fields =>
    rw [editLeaves, editLeavesOfFields_eq]
    rfl
  | null | bool | num | str => exact absurd rfl ht

/-- To leave each leaf as it is changes nothing. -/
theorem editLeaves_some (t : Json) : t.editLeaves some = some t := by
  induction t using induction_children with
  | leaf t ht => exact editLeaves_leaf some ht
  | container t ht ih => rw [editLeaves_eq some ht, editChildren_keep ih]

theorem editLeaves_congr {f g : Json → Option Json} (h : ∀ x ∈ t.leaves, f x = g x) :
    t.editLeaves f = t.editLeaves g := by
  induction t using induction_children with
  | leaf t ht =>
    rw [leaves_leaf ht] at h
    rw [editLeaves_leaf f ht, editLeaves_leaf g ht, h t List.mem_cons_self]
  | container t ht ih =>
    rw [leaves_eq ht] at h
    rw [editLeaves_eq f ht, editLeaves_eq g ht]
    refine congrArg some (editChildren_congr fun key v hv => ?_)
    exact ih key v hv fun x hx => h x (List.mem_flatMap.mpr ⟨(key, v), hv, hx⟩)

end Children

section Shape

variable {t u c : Json} {f : Json → Option Json} {l : Location}

theorem kind_editChildren (f : ChildKey → Json → Option Json) (t : Json) :
    (t.editChildren f).kind = t.kind := by
  cases t <;> rfl

theorem mem_children_editChildren {f : ChildKey → Json → Option Json} {key : ChildKey} {w : Json}
    (h : (key, w) ∈ (t.editChildren f).children) :
    ∃ k v, (k, v) ∈ t.children ∧ f k v = some w := by
  cases t with
  | arr items =>
    obtain ⟨i, -, hget⟩ := mem_children_arr.mp h
    obtain ⟨⟨v, j⟩, hmem, hsome⟩ := List.mem_filterMap.mp (List.mem_of_getElem? hget)
    exact ⟨.index j, v, mem_children_arr.mpr ⟨j, rfl, List.mem_zipIdx_iff_getElem?.mp hmem⟩, hsome⟩
  | obj fields =>
    obtain ⟨name, -, hmem⟩ := mem_children_obj.mp h
    obtain ⟨⟨n, v⟩, hv, hsome⟩ := List.mem_filterMap.mp hmem
    obtain ⟨w', hw, heq⟩ := Option.map_eq_some_iff.mp hsome
    obtain ⟨-, rfl⟩ := Prod.mk.inj heq
    exact ⟨.name n, v, mem_children_obj.mpr ⟨n, rfl, hv⟩, hw⟩
  | null | bool | num | str => exact absurd h List.not_mem_nil

/-- Where nothing is put in the place of a leaf, no leaf is left. -/
theorem leaves_editLeaves_none (ht : t.kind ≠ .leaf) (h : t.editLeaves (fun _ => none) = some u) :
    u.leaves = [] := by
  induction t using induction_children generalizing u with
  | leaf t hleaf => exact absurd hleaf ht
  | container t ht ih =>
    rw [editLeaves_eq _ ht] at h
    obtain rfl := Option.some.inj h
    rw [leaves_eq (by rwa [kind_editChildren])]
    refine List.flatMap_eq_nil_iff.mpr fun ⟨key, w⟩ hw => ?_
    obtain ⟨k, v, hv, hsome⟩ := mem_children_editChildren hw
    refine ih k v hv (fun hleaf => ?_) hsome
    rw [editLeaves_leaf _ hleaf] at hsome
    cases hsome

theorem editChildren_arr_some (g : Json → Json) (items : List Json) :
    (Json.arr items).editChildren (fun _ v => some (g v)) = .arr (items.map g) := by
  have hmap : items.zipIdx.filterMap (some ∘ g ∘ Prod.fst) = items.map g := by
    rw [List.filterMap_eq_map, ← List.map_map, List.zipIdx_map_fst]
  exact congrArg Json.arr hmap

theorem editChildren_obj_some (g : Json → Json) (fields : List (String × Json)) :
    (Json.obj fields).editChildren (fun _ v => some (g v)) =
      .obj (fields.map fun field => (field.1, g field.2)) := by
  have hmap : fields.filterMap (some ∘ fun field => (field.1, g field.2)) =
      fields.map fun field => (field.1, g field.2) := by
    rw [List.filterMap_eq_map]
  exact congrArg Json.obj hmap

theorem child?_editChildren (g : Json → Json) (t : Json) (key : ChildKey) :
    (t.editChildren fun _ v => some (g v)).child? key = (t.child? key).map g := by
  cases t with
  | arr items =>
    rw [editChildren_arr_some]
    cases key with
    | name n => rfl
    | index i => exact List.getElem?_map
  | obj fields =>
    rw [editChildren_obj_some]
    cases key <;> exact Fields.find?_map g fields _
  | null | bool | num | str => cases key <;> rfl

/-- A container in which something stands for each child keeps its keys. -/
theorem childKeys_editChildren (g : Json → Json) (t : Json) :
    (t.editChildren fun _ v => some (g v)).childKeys = t.childKeys := by
  cases t with
  | arr items =>
    rw [editChildren_arr_some]
    simp [childKeys, children, List.zipIdx_map, Function.comp_def]
  | obj fields =>
    rw [editChildren_obj_some]
    simp [childKeys, children]
  | null | bool | num | str => rfl

theorem isSome_editLeaves (hf : ∀ x, (f x).isSome = true) (t : Json) :
    (t.editLeaves f).isSome = true := by
  by_cases ht : t.kind = .leaf
  · rw [editLeaves_leaf f ht, hf]
  · rw [editLeaves_eq f ht]
    rfl

/-- Where something is put in the place of each leaf, every child has something in its place. -/
theorem editLeaves_eq_some (hf : ∀ x, (f x).isSome = true) (ht : t.kind ≠ .leaf) :
    t.editLeaves f = some (t.editChildren fun _ v => some ((v.editLeaves f).getD .null)) := by
  rw [editLeaves_eq f ht]
  refine congrArg some (editChildren_congr fun key v _ => ?_)
  obtain ⟨w, hw⟩ := Option.isSome_iff_exists.mp (isSome_editLeaves hf v)
  rw [hw, Option.getD_some]

/-- What stands at a location is edited there. -/
theorem locate?_editLeaves (hf : ∀ x, (f x).isSome = true) (h : t.editLeaves f = some u)
    (hc : t.locate? l = some c) : u.locate? l = c.editLeaves f := by
  induction l generalizing t u with
  | nil =>
    obtain rfl := Option.some.inj hc
    exact h.symm
  | cons key rest ih =>
    obtain ⟨v, hv, hrest⟩ := Option.bind_eq_some_iff.mp hc
    have ht : t.kind ≠ .leaf := by
      intro hleaf
      rw [(of_kind_leaf hleaf).2.2 key] at hv
      cases hv
    obtain ⟨w, hw⟩ := Option.isSome_iff_exists.mp (isSome_editLeaves hf v)
    rw [editLeaves_eq_some hf ht] at h
    obtain rfl := Option.some.inj h
    rw [locate?, child?_editChildren, hv, Option.map_some, hw, Option.bind_some]
    exact ih hw hrest

/-- A container stays a container of its kind with its keys. -/
theorem shape_editLeaves (hf : ∀ x, (f x).isSome = true) (ht : t.kind ≠ .leaf)
    (h : t.editLeaves f = some u) : u.kind = t.kind ∧ u.childKeys = t.childKeys := by
  rw [editLeaves_eq_some hf ht] at h
  obtain rfl := Option.some.inj h
  exact ⟨kind_editChildren _ t, childKeys_editChildren _ t⟩

/-- Where a container of `t` stands, there is one of its kind with its keys in `u`, and where a leaf
of `t` stands, there is what `f` makes of it. -/
def Mirrors (t u : Json) (f : Json → Option Json) : Prop :=
  ∀ l c, t.locate? l = some c → ∃ d, u.locate? l = some d ∧
    if c.kind = .leaf then f c = some d else d.kind = c.kind ∧ d.childKeys = c.childKeys

theorem mirrors_editLeaves (hf : ∀ x, (f x).isSome = true) (h : t.editLeaves f = some u) :
    t.Mirrors u f := by
  intro l c hc
  obtain ⟨d, hd⟩ := Option.isSome_iff_exists.mp (isSome_editLeaves hf c)
  refine ⟨d, (locate?_editLeaves hf h hc).trans hd, ?_⟩
  split
  · next hleaf => rw [← editLeaves_leaf f hleaf, hd]
  · next hinner => exact shape_editLeaves hf hinner hd

end Shape

section WellFormed

theorem wellFormedItems_of_forall {items : List Json} (h : ∀ v ∈ items, v.WellFormed) :
    WellFormedItems items := by
  induction items with
  | nil => trivial
  | cons v rest ih =>
    exact ⟨h v List.mem_cons_self, ih fun w hw => h w (List.mem_cons_of_mem _ hw)⟩

theorem wellFormedFields_of_forall {fields : List (String × Json)}
    (h : ∀ field ∈ fields, field.2.WellFormed) : WellFormedFields fields := by
  induction fields with
  | nil => trivial
  | cons field rest ih =>
    exact ⟨h field List.mem_cons_self, ih fun f hf => h f (List.mem_cons_of_mem _ hf)⟩

/-- The names that are left stand in their order. -/
theorem wellFormed_editChildren {t : Json} (ht : t.WellFormed)
    {f : ChildKey → Json → Option Json}
    (hf : ∀ key v w, (key, v) ∈ t.children → f key v = some w → w.WellFormed) :
    (t.editChildren f).WellFormed := by
  cases t with
  | arr items =>
    refine wellFormedItems_of_forall fun w hw => ?_
    obtain ⟨⟨v, i⟩, hv, hsome⟩ := List.mem_filterMap.mp hw
    exact hf _ v w (mem_children_arr.mpr ⟨i, rfl, List.mem_zipIdx_iff_getElem?.mp hv⟩) hsome
  | obj fields =>
    refine ⟨?_, wellFormedFields_of_forall fun field hfield => ?_⟩
    · refine List.Pairwise.filterMap _ ?_ ht.1
      rintro a b hlt c hc d hd
      obtain ⟨v, -, rfl⟩ := Option.map_eq_some_iff.mp hc
      obtain ⟨w, -, rfl⟩ := Option.map_eq_some_iff.mp hd
      exact hlt
    · obtain ⟨⟨name, v⟩, hv, hsome⟩ := List.mem_filterMap.mp hfield
      obtain ⟨w, hw, rfl⟩ := Option.map_eq_some_iff.mp hsome
      exact hf _ v w (mem_children_obj.mpr ⟨name, rfl, hv⟩) hw
  | null | bool | num | str => trivial

theorem wellFormed_editLeaves {t u : Json} (ht : t.WellFormed) {f : Json → Option Json}
    (hf : ∀ x w, x.WellFormed → f x = some w → w.WellFormed) (h : t.editLeaves f = some u) :
    u.WellFormed := by
  induction t using induction_children generalizing u with
  | leaf t hleaf =>
    rw [editLeaves_leaf f hleaf] at h
    exact hf t u ht h
  | container t hkind ih =>
    rw [editLeaves_eq f hkind] at h
    obtain rfl := Option.some.inj h
    exact wellFormed_editChildren ht fun key v w hv hw =>
      ih key v hv (wellFormed_of_mem_children ht hv) hw

end WellFormed

end TreePath.Json

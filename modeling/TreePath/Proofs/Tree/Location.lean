import Mathlib.Data.List.Nodup
import TreePath.Proofs.Patch
import TreePath.Tree.Access

namespace TreePath

/-- The keys that lead to a value, from the outside in. -/
abbrev Location := List ChildKey

namespace Json

/-- What stands at a location. -/
def locate? (t : Json) (l : Location) : Option Json :=
  match l with
  | [] => some t
  | key :: rest => (t.child? key).bind fun child => child.locate? rest

/-- The container with `f` applied to each of its children. Those for which `f` gives nothing are
left out, and the elements of a sequence close up. -/
def editChildren (f : ChildKey → Json → Option Json) (t : Json) : Json :=
  match t with
  | .arr items => .arr (items.zipIdx.filterMap fun (v, i) => f (.index i) v)
  | .obj fields =>
    .obj (fields.filterMap fun (name, v) => (f (.name name) v).map fun w => (name, w))
  | t => t

/-- The container without the children at some of its keys. -/
def dropChildren (keys : List ChildKey) (t : Json) : Json :=
  t.editChildren fun key v => if key ∈ keys then none else some v

mutual

/-- The value without what stands at the locations that are gone. The elements of a sequence close
up, and everything else stays as it is; so does the value as a whole. -/
def without (gone : Location → Bool) : Json → Json
  | .arr items => .arr (withoutItems gone 0 items)
  | .obj fields => .obj (withoutFields gone fields)
  | v => v

/-- The elements from position `i` on. -/
def withoutItems (gone : Location → Bool) (i : Nat) : List Json → List Json
  | [] => []
  | v :: rest =>
    if gone [.index i] then withoutItems gone (i + 1) rest
    else v.without (fun l => gone (.index i :: l)) :: withoutItems gone (i + 1) rest

def withoutFields (gone : Location → Bool) : List (String × Json) → List (String × Json)
  | [] => []
  | (name, v) :: rest =>
    if gone [.name name] then withoutFields gone rest
    else (name, v.without fun l => gone (.name name :: l)) :: withoutFields gone rest

end

section Children

variable {t v : Json} {key : ChildKey}

theorem mem_children_arr {items : List Json} :
    (key, v) ∈ (Json.arr items).children ↔ ∃ i, key = .index i ∧ items[i]? = some v := by
  simp only [children, List.mem_map, Prod.exists, List.mem_zipIdx_iff_getElem?, Prod.mk.injEq]
  constructor
  · rintro ⟨w, i, hget, rfl, rfl⟩
    exact ⟨i, rfl, hget⟩
  · rintro ⟨i, rfl, hget⟩
    exact ⟨v, i, hget, rfl, rfl⟩

theorem mem_children_obj {fields : List (String × Json)} :
    (key, v) ∈ (Json.obj fields).children ↔ ∃ name, key = .name name ∧ (name, v) ∈ fields := by
  simp only [children, List.mem_map, Prod.exists, Prod.mk.injEq]
  constructor
  · rintro ⟨name, w, hmem, rfl, rfl⟩
    exact ⟨name, rfl, hmem⟩
  · rintro ⟨name, rfl, hmem⟩
    exact ⟨name, v, hmem, rfl, rfl⟩

theorem of_kind_leaf (h : v.kind = .leaf) :
    v.size = 0 ∧ v.children = [] ∧ ∀ key, v.child? key = none := by
  cases v with
  | arr | obj => cases h
  | null | bool | num | str => exact ⟨rfl, rfl, fun key => by cases key <;> rfl⟩

/-- A child that is listed is found under its key. -/
theorem child?_of_mem (ht : t.WellFormed) (h : (key, v) ∈ t.children) : t.child? key = some v := by
  cases t with
  | arr items =>
    obtain ⟨i, rfl, hget⟩ := mem_children_arr.mp h
    exact hget
  | obj fields =>
    obtain ⟨name, rfl, hmem⟩ := mem_children_obj.mp h
    exact Fields.find?_of_mem ht.1 hmem
  | null | bool | num | str => simp [children] at h

theorem wellFormed_of_mem_children (ht : t.WellFormed) (h : (key, v) ∈ t.children) :
    v.WellFormed := by
  cases t with
  | arr items =>
    obtain ⟨i, -, hget⟩ := mem_children_arr.mp h
    exact wellFormed_of_mem ht (List.mem_of_getElem? hget)
  | obj fields =>
    obtain ⟨name, -, hmem⟩ := mem_children_obj.mp h
    exact wellFormed_of_find? ht.2 (Fields.find?_of_mem ht.1 hmem)
  | null | bool | num | str => simp [children] at h

/-- No key stands twice among the children. -/
theorem nodup_childKeys (ht : t.WellFormed) : t.childKeys.Nodup := by
  unfold childKeys
  cases t with
  | arr items =>
    have hpositions : (items.zipIdx.map Prod.snd).Nodup := by
      rw [List.zipIdx_map_snd]
      exact List.nodup_range'
    have hkeys := hpositions.map fun i j (hij : ChildKey.index i = .index j) =>
      ChildKey.index.inj hij
    rw [List.map_map] at hkeys
    rw [children, List.map_map]
    exact hkeys
  | obj fields =>
    have hkeys := (Fields.nodup_names ht.1).map fun m n (hmn : ChildKey.name m = .name n) =>
      ChildKey.name.inj hmn
    rw [List.map_map] at hkeys
    rw [children, List.map_map]
    exact hkeys
  | null | bool | num | str => exact List.nodup_nil

/-- What is listed under one key is one value. -/
theorem children_unique (ht : t.WellFormed) {w : Json} (hv : (key, v) ∈ t.children)
    (hw : (key, w) ∈ t.children) : v = w :=
  Option.some.inj ((child?_of_mem ht hv).symm.trans (child?_of_mem ht hw))

end Children

section Edits

variable {t : Json} {f g : ChildKey → Json → Option Json}

theorem editChildren_congr (h : ∀ key v, (key, v) ∈ t.children → f key v = g key v) :
    t.editChildren f = t.editChildren g := by
  cases t with
  | arr items =>
    refine congrArg Json.arr (List.filterMap_congr ?_)
    rintro ⟨v, i⟩ hmem
    exact h _ v (mem_children_arr.mpr ⟨i, rfl, List.mem_zipIdx_iff_getElem?.mp hmem⟩)
  | obj fields =>
    refine congrArg Json.obj (List.filterMap_congr ?_)
    rintro ⟨name, v⟩ hmem
    have hsame := h _ v (mem_children_obj.mpr ⟨name, rfl, hmem⟩)
    simp only [hsame]
  | null | bool | num | str => rfl

theorem editChildren_some (t : Json) : t.editChildren (fun _ v => some v) = t := by
  cases t with
  | arr items =>
    have hfirst : items.zipIdx.filterMap (some ∘ Prod.fst) = items := by
      rw [List.filterMap_eq_map, List.zipIdx_map_fst]
    exact congrArg Json.arr hfirst
  | obj fields => exact congrArg Json.obj List.filterMap_some
  | null | bool | num | str => rfl

theorem editChildren_keep (h : ∀ key v, (key, v) ∈ t.children → f key v = some v) :
    t.editChildren f = t :=
  (editChildren_congr h).trans (editChildren_some t)

/-- It does not matter in which order the keys are given. -/
theorem dropChildren_congr {keys others : List ChildKey} (h : ∀ key, key ∈ keys ↔ key ∈ others) :
    t.dropChildren keys = t.dropChildren others := by
  refine editChildren_congr fun key v _ => ?_
  simp only [h key]

theorem dropChildren_arr (items : List Json) (keys : List ChildKey) :
    (Json.arr items).dropChildren keys =
      .arr (items.zipIdx.filterMap fun (v, i) => if .index i ∈ keys then none else some v) := rfl

theorem dropChildren_obj (fields : List (String × Json)) (keys : List ChildKey) :
    (Json.obj fields).dropChildren keys = .obj (fields.filter fun f => .name f.1 ∉ keys) := by
  apply congrArg Json.obj
  induction fields with
  | nil => rfl
  | cons field fields ih =>
    obtain ⟨name, v⟩ := field
    rw [List.filterMap_cons, List.filter_cons, ih]
    by_cases hkey : .name name ∈ keys <;> simp [hkey]

end Edits

section Deletions

variable (gone : Location → Bool)

theorem withoutItems_eq (i : Nat) (items : List Json) :
    withoutItems gone i items = (items.zipIdx i).filterMap fun (v, i) =>
      if gone [.index i] then none else some (v.without fun l => gone (.index i :: l)) := by
  induction items generalizing i with
  | nil => rfl
  | cons v items ih =>
    rw [withoutItems, ih, List.zipIdx_cons, List.filterMap_cons]
    by_cases hgone : gone [.index i] <;> simp [hgone]

theorem withoutFields_eq (fields : List (String × Json)) :
    withoutFields gone fields = fields.filterMap fun (name, v) =>
      (if gone [.name name] then none else some (v.without fun l => gone (.name name :: l))).map
        fun w => (name, w) := by
  induction fields with
  | nil => rfl
  | cons field fields ih =>
    obtain ⟨name, v⟩ := field
    rw [withoutFields, ih, List.filterMap_cons]
    by_cases hgone : gone [.name name] <;> simp [hgone]

/-- A deletion drops the children that are gone, and deletes in the others what is gone there. -/
theorem without_eq (t : Json) : t.without gone = t.editChildren fun key v =>
    if gone [key] then none else some (v.without fun l => gone (key :: l)) := by
  cases t with
  | arr items => exact congrArg Json.arr (withoutItems_eq gone 0 items)
  | obj fields => exact congrArg Json.obj (withoutFields_eq gone fields)
  | null | bool | num | str => simp [without, editChildren]

mutual

/-- Where nothing is gone, nothing changes. -/
theorem without_nothing (gone : Location → Bool) (t : Json)
    (h : ∀ key l, gone (key :: l) = false) : t.without gone = t := by
  match t with
  | .arr items => rw [without, withoutItems_nothing gone 0 items h]
  | .obj fields => rw [without, withoutFields_nothing gone fields h]
  | .null | .bool _ | .num _ | .str _ => simp [without]

theorem withoutItems_nothing (gone : Location → Bool) (i : Nat) (items : List Json)
    (h : ∀ key l, gone (key :: l) = false) : withoutItems gone i items = items := by
  match items with
  | [] => rfl
  | v :: rest =>
    have hv := without_nothing (fun l => gone (.index i :: l)) v fun key l => h _ (key :: l)
    rw [withoutItems, h, hv, withoutItems_nothing gone (i + 1) rest h]
    rfl

theorem withoutFields_nothing (gone : Location → Bool) (fields : List (String × Json))
    (h : ∀ key l, gone (key :: l) = false) : withoutFields gone fields = fields := by
  match fields with
  | [] => rfl
  | (name, v) :: rest =>
    have hv := without_nothing (fun l => gone (.name name :: l)) v fun key l => h _ (key :: l)
    rw [withoutFields, h, hv, withoutFields_nothing gone rest h]
    rfl

end

/-- To drop children is to delete what stands right below the value at their keys. -/
theorem dropChildren_eq_without (keys : List ChildKey) (t : Json) :
    t.dropChildren keys = t.without fun l => decide (l ∈ keys.map fun key => [key]) := by
  rw [without_eq]
  refine editChildren_congr fun key v _ => ?_
  have hinside : v.without (fun l => decide (key :: l ∈ keys.map fun key => [key])) = v :=
    without_nothing _ v fun k l => by simp
  rw [hinside]
  simp

section WellFormed

theorem mem_withoutFields {gone : Location → Bool} {fields : List (String × Json)}
    {f : String × Json} (h : f ∈ withoutFields gone fields) : ∃ v, (f.1, v) ∈ fields := by
  rw [withoutFields_eq, List.mem_filterMap] at h
  obtain ⟨⟨name, v⟩, hmem, hsome⟩ := h
  obtain ⟨w, -, rfl⟩ := Option.map_eq_some_iff.mp hsome
  exact ⟨v, hmem⟩

mutual

theorem wellFormed_without (gone : Location → Bool) (t : Json) (ht : t.WellFormed) :
    (t.without gone).WellFormed := by
  match t with
  | .arr items => exact wellFormed_withoutItems gone 0 items ht
  | .obj fields => exact wellFormed_withoutFields gone fields ht
  | .null | .bool _ | .num _ | .str _ => trivial

theorem wellFormed_withoutItems (gone : Location → Bool) (i : Nat) (items : List Json)
    (ht : WellFormedItems items) : WellFormedItems (withoutItems gone i items) := by
  match items with
  | [] => trivial
  | v :: rest =>
    have hrest := wellFormed_withoutItems gone (i + 1) rest ht.2
    rw [withoutItems]
    split
    · exact hrest
    · exact ⟨wellFormed_without _ v ht.1, hrest⟩

theorem wellFormed_withoutFields (gone : Location → Bool) (fields : List (String × Json))
    (ht : (Json.obj fields).WellFormed) : (Json.obj (withoutFields gone fields)).WellFormed := by
  match fields with
  | [] => exact ht
  | (name, v) :: rest =>
    obtain ⟨hname, hascending⟩ := Fields.ascending_cons.mp ht.1
    have hrest := wellFormed_withoutFields gone rest ⟨hascending, ht.2.2⟩
    rw [withoutFields]
    split
    · exact hrest
    · refine ⟨Fields.ascending_cons.mpr ⟨fun f hf => ?_, hrest.1⟩, ?_, hrest.2⟩
      · obtain ⟨w, hmem⟩ := mem_withoutFields hf
        exact hname (f.1, w) hmem
      · exact wellFormed_without _ v ht.2.1

end

theorem wellFormed_dropChildren {t : Json} (ht : t.WellFormed) (keys : List ChildKey) :
    (t.dropChildren keys).WellFormed := by
  rw [dropChildren_eq_without]
  exact wellFormed_without _ t ht

end WellFormed

end Deletions

end Json

end TreePath

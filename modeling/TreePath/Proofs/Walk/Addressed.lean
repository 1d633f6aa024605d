import TreePath.Proofs.Tree.Location
import TreePath.Proofs.Walk.Concrete
import TreePath.Walk.Basic

namespace TreePath

section Slices

namespace Slice

theorem bounds_of_mem_ascending {stop step i j : Nat} (h : j ∈ ascending stop step i) :
    i ≤ j ∧ j < stop := by
  induction i using ascending.induct stop step with
  | case1 i hi ih =>
    rw [ascending, if_pos hi] at h
    rcases List.mem_cons.mp h with rfl | h
    · exact ⟨Nat.le_refl _, hi.1⟩
    · have := ih h
      omega
  | case2 i hi =>
    rw [ascending, if_neg hi] at h
    simp at h

theorem ascending_nodup (stop step i : Nat) : (ascending stop step i).Nodup := by
  induction i using ascending.induct stop step with
  | case1 i hi ih =>
    rw [ascending, if_pos hi]
    refine List.nodup_cons.mpr ⟨fun h => ?_, ih⟩
    have := bounds_of_mem_ascending h
    omega
  | case2 i hi =>
    rw [ascending, if_neg hi]
    exact List.nodup_nil

/-- Above a stop that is not below -1 there are positions only. -/
theorem bounds_of_mem_descending {stop i : Int} {step j : Nat} (hstop : -1 ≤ stop)
    (h : j ∈ descending stop step i) : stop < j ∧ j ≤ i := by
  induction i using descending.induct stop step with
  | case1 i hi ih =>
    rw [descending, if_pos hi] at h
    rcases List.mem_cons.mp h with rfl | h
    · omega
    · have := ih h
      omega
  | case2 i hi =>
    rw [descending, if_neg hi] at h
    simp at h

theorem descending_nodup {stop : Int} (hstop : -1 ≤ stop) (step : Nat) (i : Int) :
    (descending stop step i).Nodup := by
  induction i using descending.induct stop step with
  | case1 i hi ih =>
    rw [descending, if_pos hi]
    refine List.nodup_cons.mpr ⟨fun h => ?_, ih⟩
    have := bounds_of_mem_descending hstop h
    omega
  | case2 i hi =>
    rw [descending, if_neg hi]
    exact List.nodup_nil

theorem bounds_place (bound : Int64) (len : Int) {low high : Int} (h : low ≤ high) :
    low ≤ place bound len low high ∧ place bound len low high ≤ high :=
  ⟨Int.le_max_left _ _, Int.max_le.mpr ⟨h, Int.min_le_left _ _⟩⟩

/-- A bound that may be left open stands in its range. -/
theorem bounds_getD (bound : Option Int64) (len low high default : Int)
    (hdefault : low ≤ default ∧ default ≤ high) :
    low ≤ (bound.map (place · len low high)).getD default ∧
      (bound.map (place · len low high)).getD default ≤ high := by
  cases bound with
  | none => exact hdefault
  | some bound => exact bounds_place bound len (Int.le_trans hdefault.1 hdefault.2)

/-- A slice selects positions of the sequence. -/
theorem lt_of_mem_indices {s : Slice} {len i : Nat} (h : i ∈ s.indices len) : i < len := by
  unfold indices at h
  dsimp only at h
  obtain ⟨cap, hcap⟩ : ∃ cap : Int, cap = min (len : Int) Int64.maxValue.toInt := ⟨_, rfl⟩
  rw [← hcap] at h
  rw [Int64.toInt_maxValue] at hcap
  split at h
  · have hstop := bounds_getD s.stop cap 0 cap cap (by omega)
    have hbelow := bounds_of_mem_ascending h
    omega
  · split at h
    · have hstart := bounds_getD s.start cap (-1) (cap - 1) (cap - 1) (by omega)
      have hstop := bounds_getD s.stop cap (-1) (cap - 1) (-1) (by omega)
      have hbelow := bounds_of_mem_descending hstop.1 h
      omega
    · simp at h

theorem indices_nodup (s : Slice) (len : Nat) : (s.indices len).Nodup := by
  unfold indices
  dsimp only
  obtain ⟨cap, hcap⟩ : ∃ cap : Int, cap = min (len : Int) Int64.maxValue.toInt := ⟨_, rfl⟩
  rw [← hcap]
  rw [Int64.toInt_maxValue] at hcap
  split
  · exact ascending_nodup _ _ _
  · split
    · have hstop := bounds_getD s.stop cap (-1) (cap - 1) (-1) (by omega)
      exact descending_nodup hstop.1 _ _
    · exact List.nodup_nil

end Slice

end Slices

open TreeAccess

/-- The child at a key, beside the key. -/
def Json.entryAt? (t : Json) (key : ChildKey) : Option (ChildKey × Json) :=
  (t.child? key).map fun v => (key, v)

/-- Names, positions, slices, predicates and the children tag lead to children of a node. -/
def Segment.selectsChildren : Segment → Bool
  | .key _ | .index _ | .slice _ | .predicate _ | .tag .children => true
  | _ => false

/-- Only segments that lead to children. -/
def Path.SelectsChildren (p : Path) : Prop := ∀ s ∈ p, s.selectsChildren = true

instance (p : Path) : Decidable p.SelectsChildren :=
  inferInstanceAs (Decidable (∀ s ∈ p, s.selectsChildren = true))

theorem Path.SelectsChildren.head {s : Segment} {p : Path} (h : SelectsChildren (s :: p)) :
    s.selectsChildren = true := h s (by simp)

theorem Path.SelectsChildren.tail {s : Segment} {p : Path} (h : SelectsChildren (s :: p)) :
    SelectsChildren p := fun t ht => h t (List.mem_cons_of_mem _ ht)

/-- The children that a segment leads to, with their keys, in the order of a read. A name leads to
its field, or else to the first element that is identified by it; a position to the element there,
counted from the end below zero, or to the field that is named like it; a predicate to the children
that match it. -/
def picked (config : Config) (s : Segment) (t : Json) : List (ChildKey × Json) :=
  match s with
  | .key name =>
    match t.entryAt? (.name name) with
    | some e => [e]
    | none =>
      if t.kind = .sequence then
        (t.children.find? fun e => hasIdentity config.idField name e.2).toList
      else []
  | .index i =>
    if t.kind = .sequence then ((place? i t.size).bind fun k => t.entryAt? (.index k)).toList
    else (t.entryAt? (.name (toString i.toInt))).toList
  | .slice s =>
    if t.kind = .sequence then (s.indices t.size).filterMap fun i => t.entryAt? (.index i) else []
  | .predicate query => t.children.filter fun e => (meets config query e.2).value
  | .tag .children => t.children
  | _ => []

/-- The locations to which a path leads from a value, in the order of a read. -/
def addressed (config : Config) (p : Path) (t : Json) : List Location :=
  match p with
  | [] => [[]]
  | s :: rest =>
    (picked config s t).flatMap fun e => (addressed config rest e.2).map fun l => e.1 :: l

section Picking

variable {config : Config} {s : Segment} {t : Json} {key : ChildKey} {e : ChildKey × Json}

/-- What is found under a key is listed under it, if the key is one of its container. -/
theorem mem_of_entryAt? (h : t.entryAt? key = some e)
    (hkey : t.kind = .sequence ∨ ∃ n, key = .name n) : e.1 = key ∧ e ∈ t.children := by
  obtain ⟨v, hv, rfl⟩ := Option.map_eq_some_iff.mp h
  refine ⟨rfl, ?_⟩
  cases t with
  | arr items =>
    cases key with
    | name n => simp [Json.child?] at hv
    | index i => exact Json.mem_children_arr.mpr ⟨i, rfl, hv⟩
  | obj fields =>
    obtain ⟨n, rfl⟩ : ∃ n, key = .name n := by simpa [Json.kind] using hkey
    exact Json.mem_children_obj.mpr ⟨n, rfl, Fields.mem_of_find? hv⟩
  | null | bool | num | str => cases key <;> simp [Json.child?] at hv

/-- What a segment leads to are children. -/
theorem mem_children_of_picked (h : e ∈ picked config s t) : e ∈ t.children := by
  unfold picked at h
  split at h
  · next name =>
    split at h
    · next found hfound =>
      obtain rfl := List.mem_singleton.mp h
      exact (mem_of_entryAt? hfound (.inr ⟨name, rfl⟩)).2
    · split at h
      · exact List.mem_of_find?_eq_some (Option.mem_toList.mp h)
      · simp at h
  · next i =>
    split at h
    · next hkind =>
      obtain ⟨k, -, hk⟩ := Option.bind_eq_some_iff.mp (Option.mem_toList.mp h)
      exact (mem_of_entryAt? hk (.inl hkind)).2
    · exact (mem_of_entryAt? (Option.mem_toList.mp h) (.inr ⟨_, rfl⟩)).2
  · split at h
    · next hkind =>
      obtain ⟨i, -, hi⟩ := List.mem_filterMap.mp h
      exact (mem_of_entryAt? hi (.inl hkind)).2
    · simp at h
  · exact (List.mem_filter.mp h).1
  · exact h
  · simp at h

theorem nodup_toList_keys (found : Option (ChildKey × Json)) :
    (found.toList.map Prod.fst).Nodup := by
  cases found with
  | none => exact List.nodup_nil
  | some e => exact List.nodup_singleton _

/-- In a sequence, what positions lead to stands under these positions. -/
theorem filterMap_entryAt? {t : Json} (hkind : t.kind = .sequence) {positions : List Nat}
    (hlt : ∀ i ∈ positions, i < t.size) :
    (positions.filterMap fun i => t.entryAt? (.index i)).map Prod.fst = positions.map .index := by
  induction positions with
  | nil => rfl
  | cons i rest ih =>
    have hrest := ih fun j hj => hlt j (List.mem_cons_of_mem _ hj)
    have hi := hlt i List.mem_cons_self
    cases t with
    | arr items =>
      have hentry : (Json.arr items).entryAt? (.index i) = some (.index i, items[i]) := by
        rw [Json.entryAt?, Json.child?, List.getElem?_eq_getElem hi, Option.map_some]
      rw [List.filterMap_cons, hentry, List.map_cons, hrest, List.map_cons]
    | null | bool | num | str | obj => simp [Json.kind] at hkind

theorem picked_nodup (ht : t.WellFormed) : ((picked config s t).map Prod.fst).Nodup := by
  have hall : (t.children.map Prod.fst).Nodup := Json.nodup_childKeys ht
  unfold picked
  split
  · split
    · exact List.nodup_singleton _
    · split
      · exact nodup_toList_keys _
      · exact List.nodup_nil
  · split <;> exact nodup_toList_keys _
  · next s =>
    split
    · next hkind =>
      rw [filterMap_entryAt? hkind fun i hi => Slice.lt_of_mem_indices hi]
      exact (Slice.indices_nodup s _).map fun i j hij => ChildKey.index.inj hij
    · exact List.nodup_nil
  · exact hall.sublist (List.filter_sublist.map _)
  · exact hall
  · exact List.nodup_nil

theorem picked_null : picked config s .null = [] :=
  List.eq_nil_iff_forall_not_mem.mpr fun _ he =>
    absurd (mem_children_of_picked he) List.not_mem_nil

end Picking

section Reading

variable (config : Config) (rest : Path) (depth : Nat) {t : Json}

theorem follow_slice (s : Slice) (hkind : t.kind = .sequence) :
    follow config (.slice s :: rest) depth t =
      spread t.kind (picked config (.slice s) t) fun child => walk config rest depth child := by
  rw [follow, picked, if_pos hkind, hkind]
  exact if_pos hkind

theorem follow_predicate (query : Query) (hkind : t.kind ≠ .leaf) :
    (follow config (.predicate query :: rest) depth t).value =
      (spread t.kind (picked config (.predicate query) t)
        fun child => walk config rest depth child).value := by
  have hleaf : ¬kind t = .leaf := hkind
  rw [follow, if_neg hleaf, picked, Guarded.value_bind, Guarded.value_mapM]
  have hmarked : ((entries t).map fun e => (e, (meets config query e.2).value)).filter (·.2) =
      (t.children.filter fun e => (meets config query e.2).value).map fun e =>
        (e, (meets config query e.2).value) := List.filter_map
  simp only [Guarded.value_bind, Guarded.value_pure, hmarked, List.map_map, Function.comp_def,
    List.map_id_fun']
  rfl

theorem follow_children (hkind : t.kind ≠ .leaf) :
    follow config (.tag .children :: rest) depth t =
      spread t.kind (picked config (.tag .children) t)
        fun child => walk config rest depth child := by
  rw [follow, picked]
  exact if_neg hkind

end Reading

section Addressing

variable {config : Config} {p rest : Path} {s : Segment} {t : Json} {l : Location}

theorem addressed_single (s : Segment) (t : Json) :
    addressed config [s] t = ((picked config s t).map Prod.fst).map fun key => [key] := by
  rw [List.map_map, List.map_eq_flatMap]
  rfl

theorem locate?_of_mem_addressed (ht : t.WellFormed) (h : l ∈ addressed config p t) :
    ∃ v, t.locate? l = some v := by
  induction p generalizing t l with
  | nil =>
    obtain rfl : l = [] := by simpa [addressed] using h
    exact ⟨t, rfl⟩
  | cons s rest ih =>
    obtain ⟨⟨key, child⟩, he, hl⟩ := List.mem_flatMap.mp h
    obtain ⟨m, hm, rfl⟩ := List.mem_map.mp hl
    have hchild := mem_children_of_picked he
    obtain ⟨v, hv⟩ := ih (Json.wellFormed_of_mem_children ht hchild) hm
    refine ⟨v, ?_⟩
    rw [Json.locate?, Json.child?_of_mem ht hchild]
    exact hv

theorem addressed_nodup (p : Path) (ht : t.WellFormed) : (addressed config p t).Nodup := by
  induction p generalizing t with
  | nil => exact List.nodup_singleton _
  | cons s rest ih =>
    refine List.nodup_flatMap.mpr ⟨fun e he => ?_, ?_⟩
    · have hinside := ih (Json.wellFormed_of_mem_children ht (mem_children_of_picked he))
      exact hinside.map fun a b hab => (List.cons.inj hab).2
    · refine (List.pairwise_map.mp (picked_nodup ht)).imp fun hne l hl hl' => ?_
      obtain ⟨m, -, rfl⟩ := List.mem_map.mp hl
      obtain ⟨m', -, heq⟩ := List.mem_map.mp hl'
      exact hne (List.cons.inj heq).1.symm

/-- A location that begins with a key is addressed where the key has been picked. -/
theorem cons_mem_addressed (ht : t.WellFormed) {key : ChildKey} {v : Json}
    (hv : (key, v) ∈ t.children) :
    key :: l ∈ addressed config (s :: rest) t ↔
      key ∈ (picked config s t).map Prod.fst ∧ l ∈ addressed config rest v := by
  constructor
  · intro h
    obtain ⟨⟨k, w⟩, he, hl⟩ := List.mem_flatMap.mp h
    obtain ⟨m, hm, heq⟩ := List.mem_map.mp hl
    obtain ⟨rfl, rfl⟩ := List.cons.inj heq
    obtain rfl := Json.children_unique ht hv (mem_children_of_picked he)
    exact ⟨List.mem_map_of_mem he, hm⟩
  · rintro ⟨hkey, hl⟩
    obtain ⟨⟨k, w⟩, he, rfl⟩ := List.mem_map.mp hkey
    obtain rfl := Json.children_unique ht hv (mem_children_of_picked he)
    exact List.mem_flatMap.mpr ⟨_, he, List.mem_map_of_mem hl⟩

/-- From null a path leads nowhere, unless it stays there. -/
theorem addressed_null : addressed config (s :: rest) .null = [] := by
  rw [addressed, picked_null]
  rfl

theorem nil_not_mem_addressed : [] ∉ addressed config (s :: rest) t := by
  intro h
  obtain ⟨e, -, hl⟩ := List.mem_flatMap.mp h
  simp at hl

/-- To delete what a path addresses is to do so in each of the children picked by its first
segment. -/
theorem without_addressed (ht : t.WellFormed) {after : Segment} :
    t.without (fun l => decide (l ∈ addressed config (s :: after :: rest) t)) =
      t.editChildren fun key v =>
        some (if key ∈ (picked config s t).map Prod.fst then
          v.without fun l => decide (l ∈ addressed config (after :: rest) v) else v) := by
  rw [Json.without_eq]
  refine Json.editChildren_congr fun key v hv => ?_
  have hsingle : [key] ∉ addressed config (s :: after :: rest) t := fun h =>
    nil_not_mem_addressed ((cons_mem_addressed ht hv).mp h).2
  rw [decide_eq_false hsingle]
  simp only [cons_mem_addressed ht hv, Bool.false_eq_true, if_false]
  split
  · next hkey => simp only [hkey, true_and]
  · next hkey => rw [Json.without_nothing _ v fun k l => by simp [hkey]]

end Addressing

end TreePath

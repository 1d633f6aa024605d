import Mathlib.Algebra.Group.Nat.Defs
import TreePath.Proofs.Patch
import TreePath.Proofs.Tree.Growth
import TreePath.Tree.HeapUpdate

namespace TreePath

/-- The key can stand for a child: a position behind the end fits in 63 bits. -/
def KeyFits (key : ChildKey) (t : Json) : Prop :=
  ∀ k, key = .index k → k < t.size ∨ k < 2 ^ 63

/-- A sequence can be padded up to a position that fits. -/
theorem KeyFits.room {items : List Json} {k : Nat} (h : KeyFits (.index k) (.arr items)) :
    k < items.length ∨ k + 1 < UInt64.size := by
  rcases h k rfl with hlt | hlt
  · exact .inl hlt
  · rw [UInt64.size]
    omega

section Slots

variable {h : Heap} {S : Finset Nat} {i : Nat} {items : List Json}

theorem Holds.pad (hh : Holds h (.arr items) i S) (n : Nat) :
    Rewrites h S (h.pad i n) (.arr (items ++ List.replicate n .null)) i := by
  induction n generalizing h S items with
  | zero =>
    rw [List.replicate_zero, List.append_nil]
    exact .refl hh
  | succ n ih =>
    have hnull : Below h .null (.leaf .null) ∅ := .leaf rfl
    obtain ⟨hv, hframe⟩ := hnull.alloc
    have hpush := hh.push hv hframe
    rw [List.replicate_succ, ← List.singleton_append, ← List.append_assoc]
    exact hpush.trans fun S' hh' => ih hh'

/-- The place at a position, up to which the sequence is filled. -/
theorem Holds.slot (hh : Holds h (.arr items) i S) (k : Nat) :
    Rewrites h S (h.slot i k).2 (.arr (Json.padded items (k + 1))) i ∧
      (h.slot i k).1 = (h.slot i k).2.child? i (.index k) := by
  obtain ⟨cells, T, -, -, -, hcontent, hitems⟩ := hh.of_arr
  have hslot : h.slot i k =
      ((h.pad i (k + 1 - cells.length)).child? i (.index k), h.pad i (k + 1 - cells.length)) := by
    unfold Heap.slot
    rw [hcontent]
  rw [hslot, hitems.length_eq]
  exact ⟨hh.pad _, rfl⟩

theorem getElem?_padded (k : Nat) :
    (Json.padded items (k + 1))[k]? = some (items[k]?.getD .null) := by
  unfold Json.padded
  rw [List.getElem?_append]
  split
  · next hlt => simp [hlt]
  · next hge =>
    rw [List.getElem?_replicate, if_pos (by omega), List.getElem?_eq_none (by omega)]
    rfl

theorem child?_padded (k : Nat) : (Json.arr (Json.padded items (k + 1))).child? (.index k) =
    some (items[k]?.getD .null) := getElem?_padded k

theorem set_padded {k : Nat} (hk : items.length ≤ k) (v : Json) :
    (Json.padded items (k + 1)).set k v = Json.padded items k ++ [v] := by
  have hlen : k + 1 - items.length = (k - items.length) + 1 := by omega
  unfold Json.padded
  rw [hlen, List.replicate_succ', ← List.append_assoc, List.set_append_right _ _ (by simp; omega)]
  have hzero : k - (items ++ List.replicate (k - items.length) Json.null).length = 0 := by
    simp
    omega
  rw [hzero]
  rfl

end Slots

section Steps

variable {h : Heap} {S : Finset Nat} {t : Json} {i : Nat}

theorem wellFormed_emptyValue (kind : NodeKind) : kind.emptyValue.WellFormed := by
  cases kind with
  | mapping => exact ⟨.nil, trivial⟩
  | sequence | leaf => trivial

theorem Holds.ensureContainer (hh : Holds h t i S) (kind : NodeKind) :
    (Heap.ensureContainer kind h i).1 = (t.ensureContainer kind).1 ∧
      Rewrites h S (Heap.ensureContainer kind h i).2 (t.ensureContainer kind).2 i := by
  unfold Heap.ensureContainer Json.ensureContainer
  rw [hh.isVacant_eq]
  cases t.isNull with
  | true =>
    obtain ⟨S', hh', hframe⟩ := hh.set (wellFormed_emptyValue kind)
    exact ⟨congrArg NodeKind.isContainer hh'.kind_eq, S', hh', hframe⟩
  | false => exact ⟨congrArg NodeKind.isContainer hh.kind_eq, .refl hh⟩

/-- A child that is null becomes an empty container, any other one stays. -/
theorem Holds.fill {v : Json} {T : Finset Nat} {c : Nat} (hv : Holds h v c T) (kind : NodeKind) :
    Rewrites h T (if h.isVacant c then h.set c kind.emptyValue else h)
      (Json.orEmpty kind (some v)) c := by
  rw [hv.isVacant_eq]
  cases v with
  | null => exact hv.set (wellFormed_emptyValue kind)
  | bool | num | str | arr | obj => exact .refl hv

theorem Heap.child?_insert {h : Heap} {cells : List (String × Nat)} (hi : i < h.cells.size)
    (hcontent : h.content i = .mapping cells) (name : String) (c : Nat) {key : ChildKey}
    (hkey : key.asName = name) : (h.insert i name c).2.child? i key = some c := by
  have hcontent' : (h.insert i name c).2.content i = .mapping (Fields.insert cells name c) := by
    rw [Heap.insert_mapping hcontent, Heap.content_detach,
      Heap.content_setContent_self _ _ (by simpa using hi)]
  rw [Heap.child?_mapping hcontent', hkey, Fields.find?_insert_self]

/-- The value with null in the place of a child that is missing. -/
def Json.slotted (t : Json) (key : ChildKey) : Json :=
  match t, key with
  | .obj fields, key =>
    if (Fields.find? fields key.asName).isSome then .obj fields
    else .obj (Fields.insert fields key.asName .null)
  | .arr items, .index k => .arr (Json.padded items (k + 1))
  | t, _ => t

theorem Heap.ensureSlot_mapping {cells : List (String × Nat)}
    (hcontent : h.content i = .mapping cells) (key : ChildKey) :
    Heap.ensureSlot key h i =
      match Fields.find? cells key.asName with
      | some child => (some child, h)
      | none =>
        (some (h.alloc (.leaf .null)).1,
          ((h.alloc (.leaf .null)).2.insert i key.asName (h.alloc (.leaf .null)).1).2) := by
  unfold Heap.ensureSlot
  rewrite [hcontent]
  rfl

theorem Holds.ensureSlot_obj {fields : List (String × Json)} (hh : Holds h (.obj fields) i S)
    (key : ChildKey) :
    Rewrites h S (Heap.ensureSlot key h i).2 (Json.slotted (.obj fields) key) i ∧
      ∃ c, (Heap.ensureSlot key h i).1 = some c ∧
        (Heap.ensureSlot key h i).2.child? i key = some c := by
  obtain ⟨cells, T, -, -, hi, hcontent, hasc, hfields⟩ := hh.of_obj
  have hchild := Heap.child?_mapping hcontent key
  have hslotted : Json.slotted (.obj fields) key =
      if (Fields.find? fields key.asName).isSome then .obj fields
      else .obj (Fields.insert fields key.asName .null) := by cases key <;> rfl
  rw [h.ensureSlot_mapping hcontent, hslotted]
  cases hname : Fields.find? fields key.asName with
  | some v =>
    obtain ⟨c, hc, -⟩ := hfields.focus hasc hname
    rw [hc] at hchild ⊢
    exact ⟨.refl hh, c, rfl, hchild⟩
  | none =>
    rw [hfields.find?_eq_none hname]
    have hnull : Below h .null (.leaf .null) ∅ := .leaf rfl
    obtain ⟨hv, hframe⟩ := hnull.alloc
    refine ⟨hh.insert hname hv hframe, _, rfl, ?_⟩
    have hcontent' : (h.alloc (.leaf .null)).2.content i = .mapping cells := by
      rw [h.content_alloc_of_lt _ hi, hcontent]
    exact Heap.child?_insert (by simp; omega) hcontent' _ _ rfl

theorem Holds.ensureSlot_arr {items : List Json} (hh : Holds h (.arr items) i S) (k : Nat) :
    Rewrites h S (Heap.ensureSlot (.index k) h i).2 (Json.slotted (.arr items) (.index k)) i ∧
      ∃ c, (Heap.ensureSlot (.index k) h i).1 = some c ∧
        (Heap.ensureSlot (.index k) h i).2.child? i (.index k) = some c := by
  obtain ⟨cells, T, -, -, -, hcontent, -⟩ := hh.of_arr
  have hslot : Heap.ensureSlot (.index k) h i = h.slot i k := by
    unfold Heap.ensureSlot
    rw [hcontent]
  obtain ⟨hrewrites, hfirst⟩ := hh.slot k
  rw [hslot]
  refine ⟨hrewrites, ?_⟩
  obtain ⟨S', hh', -⟩ := hrewrites
  obtain ⟨c, -, hc, -⟩ := hh'.at_child (child?_padded k)
  exact ⟨c, hfirst.trans hc, hc⟩

/-- With a child at the key there, only this child is left to be filled. -/
theorem Holds.fill_slot (hh : Holds h t i S) {key : ChildKey} {v : Json}
    (hkey : t.child? key = some v)
    {c : Nat} (hc : h.child? i key = some c) (kind : NodeKind) :
    Rewrites h S (if h.isVacant c then h.set c kind.emptyValue else h)
      (t.replaceChild key (Json.orEmpty kind (some v))) i := by
  obtain ⟨c', T, hc', hv, hwhole⟩ := hh.at_child hkey
  obtain rfl : c = c' := Option.some.inj (hc.symm.trans hc')
  exact hwhole (hv.fill kind)

theorem Holds.ensureChild_of_slot {u : Json} {key : ChildKey} {kind : NodeKind} {v : Json}
    (hslot : Rewrites h S (Heap.ensureSlot key h i).2 (t.slotted key) i ∧
      ∃ c, (Heap.ensureSlot key h i).1 = some c ∧
        (Heap.ensureSlot key h i).2.child? i key = some c)
    (hkey : (t.slotted key).child? key = some v)
    (hu : (t.slotted key).replaceChild key (Json.orEmpty kind (some v)) = u) :
    (Heap.ensureChild key kind h i).1 = true ∧
      Rewrites h S (Heap.ensureChild key kind h i).2 u i := by
  obtain ⟨hrewrites, c, hfirst, hc⟩ := hslot
  have hheap : Heap.ensureChild key kind h i =
      (true, if (Heap.ensureSlot key h i).2.isVacant c then
        (Heap.ensureSlot key h i).2.set c kind.emptyValue else (Heap.ensureSlot key h i).2) := by
    unfold Heap.ensureChild
    split
    · next child h' heq =>
      rw [heq] at hfirst ⊢
      obtain rfl := Option.some.inj hfirst
      rfl
    · next h' heq => simp [heq] at hfirst
  rw [hheap, ← hu]
  exact ⟨rfl, hrewrites.trans fun S' hh' => hh'.fill_slot hkey hc kind⟩

theorem Holds.ensureChild_none (hh : Holds h t i S) {key : ChildKey} {kind : NodeKind}
    (hslot : Heap.ensureSlot key h i = (none, h)) (hstep : t.ensureChild key kind = (false, t)) :
    (Heap.ensureChild key kind h i).1 = (t.ensureChild key kind).1 ∧
      Rewrites h S (Heap.ensureChild key kind h i).2 (t.ensureChild key kind).2 i := by
  unfold Heap.ensureChild
  rw [hslot, hstep]
  exact ⟨rfl, .refl hh⟩

/-- Where there is nothing below a value, there is nothing below its cell. -/
theorem Holds.content_leaf (hh : Holds h t i S) (ht : t.kind = .leaf) : h.content i = .leaf t := by
  obtain ⟨T, -, -, -, hbelow⟩ := hh.content_below
  generalize h.content i = c at hbelow
  cases hbelow with
  | leaf => rfl
  | sequence | mapping => simp [Json.kind] at ht

theorem Holds.ensureChild (hh : Holds h t i S) {key : ChildKey} (hfits : KeyFits key t)
    (kind : NodeKind) :
    (Heap.ensureChild key kind h i).1 = (t.ensureChild key kind).1 ∧
      Rewrites h S (Heap.ensureChild key kind h i).2 (t.ensureChild key kind).2 i := by
  cases t with
  | obj fields =>
    have hslot := hh.ensureSlot_obj key
    have hstep : Json.ensureChild key kind (.obj fields) = (true, .obj (Fields.insert fields
        key.asName (Json.orEmpty kind (Fields.find? fields key.asName)))) := by cases key <;> rfl
    have hslotted : Json.slotted (.obj fields) key =
        if (Fields.find? fields key.asName).isSome then .obj fields
        else .obj (Fields.insert fields key.asName .null) := by cases key <;> rfl
    rw [hstep]
    cases hname : Fields.find? fields key.asName with
    | some v =>
      simp only [hname, Option.isSome_some, if_true] at hslotted
      refine Holds.ensureChild_of_slot hslot (v := v) ?_ ?_
      · rw [hslotted]
        cases key <;> exact hname
      · rw [hslotted]
        cases key <;> rfl
    | none =>
      simp only [hname, Option.isSome_none, Bool.false_eq_true, if_false] at hslotted
      refine Holds.ensureChild_of_slot hslot (v := .null) ?_ ?_
      · rw [hslotted]
        cases key <;> exact Fields.find?_insert_self _ _ _
      · rw [hslotted]
        cases key <;> exact congrArg Json.obj (Fields.insert_insert _ _ _ _)
  | arr items =>
    cases key with
    | name n =>
      obtain ⟨cells, T, -, -, -, hcontent, -⟩ := hh.of_arr
      have hslot : Heap.ensureSlot (.name n) h i = (none, h) := by
        unfold Heap.ensureSlot
        rw [hcontent]
      exact hh.ensureChild_none hslot rfl
    | index k =>
      have hstep : Json.ensureChild (.index k) kind (.arr items) = (true, .arr
          ((Json.padded items (k + 1)).set k (Json.orEmpty kind items[k]?))) := if_pos hfits.room
      rw [hstep]
      refine Holds.ensureChild_of_slot (hh.ensureSlot_arr k) (getElem?_padded k) ?_
      cases items[k]? <;> rfl
  | null | bool | num | str =>
    have hcontent := hh.content_leaf rfl
    have hslot : Heap.ensureSlot key h i = (none, h) := by
      unfold Heap.ensureSlot
      rw [hcontent]
    exact hh.ensureChild_none hslot (by cases key <;> rfl)

end Steps

section Patches

variable {h : Heap} {S : Finset Nat} {t : Json} {i : Nat} {patch : Patch}

theorem Holds.present?_eq (hh : Holds h t i S) : h.present? i = t.present? := by
  unfold Heap.present? Json.present?
  rw [hh.isVacant_eq, hh.toJson]

theorem wellFormed_present {v : Json} (hv : v.WellFormed) :
    ∀ w, v.present? = some w → w.WellFormed := by
  intro w hw
  unfold Json.present? at hw
  split at hw
  · simp at hw
  · exact Option.some.inj hw ▸ hv

/-- For a patch, null and nothing are the same. -/
theorem resolve_present (patch : Patch) (v : Json) :
    patch.resolve v.present? = patch.resolve (some v) := by
  cases v with
  | null => exact patch.resolve_null.symm
  | bool | num | str | arr | obj => rfl

theorem Holds.patched (hh : Holds h t i S) (hp : patch.WellFormed) :
    (Heap.patched patch h i).1 = (t.patched patch).1 ∧
      Rewrites h S (Heap.patched patch h i).2 (t.patched patch).2 i := by
  unfold Heap.patched Json.patched
  rw [hh.present?_eq, hh.isVacant_eq]
  cases hresolve : patch.resolve t.present? with
  | some v =>
    have hw := patch.wellFormed_resolve hp (wellFormed_present hh.wellFormed) hresolve
    exact ⟨rfl, hh.set hw⟩
  | none => exact ⟨rfl, hh.set (v := .null) trivial⟩

/-- A patch on a child that is there, when it leaves a value. -/
theorem Holds.patchedChild_some (hh : Holds h t i S) (hp : patch.WellFormed) {key : ChildKey}
    {v w : Json} (hkey : t.child? key = some v) (hw : patch.resolve (some v) = some w) :
    (Heap.patchedChild key patch h i).1 = 1 ∧
      Rewrites h S (Heap.patchedChild key patch h i).2 (t.replaceChild key w) i := by
  obtain ⟨c, T, hc, hv, hwhole⟩ := hh.at_child hkey
  have hresolve : patch.resolve (h.present? c) = some w := by
    rw [hv.present?_eq, resolve_present, hw]
  have hheap : Heap.patchedChild key patch h i = (1, h.set c w) := by
    unfold Heap.patchedChild
    simp only [hc, Option.bind_some, hresolve]
  have hwf := patch.wellFormed_resolve hp (by rintro _ ⟨⟩; exact hv.wellFormed) hw
  rw [hheap]
  exact ⟨rfl, hwhole (hv.set hwf)⟩

/-- A patch for a child that is not there, when it leaves a value. -/
theorem Holds.patchedChild_new (hh : Holds h t i S) {key : ChildKey} {w : Json}
    (hkey : t.child? key = none) (hw : patch.resolve none = some w) :
    Heap.patchedChild key patch h i = h.putNew key w i := by
  have hc := hh.child?_eq_none hkey
  unfold Heap.patchedChild
  simp only [hc, Option.bind_none, hw]

/-- A patch that leaves nothing takes the child out. -/
theorem Holds.patchedChild_none (hh : Holds h t i S) {key : ChildKey}
    (hw : ∀ old, t.child? key = old → patch.resolve old = none) :
    Heap.patchedChild key patch h i =
      (if (h.remove i key).1.isSome then 1 else 0, (h.remove i key).2) := by
  have hresolve : patch.resolve ((h.child? i key).bind h.present?) = none := by
    cases hkey : t.child? key with
    | none =>
      rw [hh.child?_eq_none hkey]
      exact hw none hkey
    | some v =>
      obtain ⟨c, T, hc, hv, -⟩ := hh.at_child hkey
      rw [hc, Option.bind_some, hv.present?_eq, resolve_present]
      exact hw (some v) hkey
  unfold Heap.patchedChild
  simp only [hresolve]

theorem Json.patchedChild_obj (key : ChildKey) (patch : Patch) (fields : List (String × Json)) :
    Json.patchedChild key patch (.obj fields) =
      match patch.resolve (Fields.find? fields key.asName) with
      | some v => (1, .obj (Fields.insert fields key.asName v))
      | none => (if (Fields.find? fields key.asName).isSome then 1 else 0,
          .obj (Fields.erase fields key.asName)) := by
  cases key <;> rfl

theorem Holds.patchedChild_obj {fields : List (String × Json)} (hh : Holds h (.obj fields) i S)
    (hp : patch.WellFormed) (key : ChildKey) :
    (Heap.patchedChild key patch h i).1 = (Json.patchedChild key patch (.obj fields)).1 ∧
      Rewrites h S (Heap.patchedChild key patch h i).2
        (Json.patchedChild key patch (.obj fields)).2 i := by
  have hchild : (Json.obj fields).child? key = Fields.find? fields key.asName := by
    cases key <;> rfl
  have hreplace (w : Json) : (Json.obj fields).replaceChild key w =
      .obj (Fields.insert fields key.asName w) := by cases key <;> rfl
  rw [Json.patchedChild_obj]
  cases hresolve : patch.resolve (Fields.find? fields key.asName) with
  | none =>
    obtain ⟨hcount, hrewrites⟩ := hh.remove_name key
    rw [hh.patchedChild_none (by rintro _ rfl; rw [hchild, hresolve]), hcount]
    exact ⟨rfl, hrewrites⟩
  | some w =>
    cases hname : Fields.find? fields key.asName with
    | some v =>
      rw [hname] at hchild hresolve
      have hsome := hh.patchedChild_some hp hchild hresolve
      rw [hreplace] at hsome
      exact hsome
    | none =>
      rw [hname] at hchild hresolve
      obtain ⟨cells, T, -, -, -, hcontent, -⟩ := hh.of_obj
      have hwf := patch.wellFormed_resolve hp (by simp) hresolve
      obtain ⟨T, hv, hframe⟩ := h.ofJson_holds hwf
      have hput : h.putNew key w i =
          (1, ((h.ofJson w).2.insert i key.asName (h.ofJson w).1).2) := by
        unfold Heap.putNew
        rw [hcontent]
      rw [hh.patchedChild_new hchild hresolve, hput]
      exact ⟨rfl, hh.insert hname hv hframe⟩

theorem Holds.patchedChild_arr {items : List Json} (hh : Holds h (.arr items) i S)
    (hp : patch.WellFormed) (k : Nat) :
    (Heap.patchedChild (.index k) patch h i).1 =
        (Json.patchedChild (.index k) patch (.arr items)).1 ∧
      Rewrites h S (Heap.patchedChild (.index k) patch h i).2
        (Json.patchedChild (.index k) patch (.arr items)).2 i := by
  have hchild : (Json.arr items).child? (.index k) = items[k]? := rfl
  obtain ⟨hcount, hrewrites⟩ := hh.remove_index k
  unfold Json.patchedChild
  simp only
  cases hk : items[k]? with
  | some v =>
    rw [hk] at hchild hcount
    simp only [resolve_present]
    cases hresolve : patch.resolve (some v) with
    | some w => exact hh.patchedChild_some hp hchild hresolve
    | none =>
      rw [hh.patchedChild_none (by rintro _ rfl; rw [hchild, hresolve]), hcount]
      exact ⟨rfl, hrewrites⟩
  | none =>
    rw [hk] at hchild hcount
    have hge : items.length ≤ k := List.getElem?_eq_none_iff.mp hk
    cases hresolve : patch.resolve none with
    | none =>
      rw [List.eraseIdx_of_length_le hge] at hrewrites
      rw [hh.patchedChild_none (by rintro _ rfl; rw [hchild, hresolve]), hcount]
      exact ⟨rfl, hrewrites⟩
    | some w =>
      obtain ⟨hfilled, c, hfirst, hc⟩ := hh.ensureSlot_arr k
      have hwf := patch.wellFormed_resolve hp (by simp) hresolve
      obtain ⟨cells, T, -, -, -, hcontent, -⟩ := hh.of_arr
      have hslot : Heap.ensureSlot (.index k) h i = h.slot i k := by
        unfold Heap.ensureSlot
        rw [hcontent]
      rw [hslot] at hfilled hfirst hc
      have hput : h.putNew (.index k) w i = (1, (h.slot i k).2.set c w) := by
        unfold Heap.putNew
        rw [hcontent]
        simp only
        split
        · next child h' heq =>
          rw [heq] at hfirst ⊢
          obtain rfl := Option.some.inj hfirst
          rfl
        · next h' heq => simp [heq] at hfirst
      rw [hh.patchedChild_new hchild hresolve, hput]
      refine ⟨rfl, hfilled.trans fun S' hh' => ?_⟩
      obtain ⟨c', T', hc', hv, hwhole⟩ := hh'.at_child (child?_padded k)
      obtain rfl : c = c' := Option.some.inj (hc.symm.trans hc')
      have hset := hwhole (hv.set hwf)
      change Rewrites _ S' _ (.arr ((Json.padded items (k + 1)).set k w)) i at hset
      rw [set_padded hge] at hset
      exact hset

/-- Without a place for a child nothing happens. -/
theorem Holds.patchedChild_leaf (hh : Holds h t i S) {key : ChildKey}
    (hput : ∀ w, h.putNew key w i = (0, h)) (hremove : h.remove i key = (none, h))
    (hchild : t.child? key = none) (hstep : Json.patchedChild key patch t = (0, t)) :
    (Heap.patchedChild key patch h i).1 = (Json.patchedChild key patch t).1 ∧
      Rewrites h S (Heap.patchedChild key patch h i).2 (Json.patchedChild key patch t).2 i := by
  rw [hstep]
  cases hresolve : patch.resolve none with
  | some w =>
    rw [hh.patchedChild_new hchild hresolve, hput]
    exact ⟨rfl, .refl hh⟩
  | none =>
    rw [hh.patchedChild_none (by rintro _ rfl; rw [hchild, hresolve]), hremove]
    exact ⟨rfl, .refl hh⟩

theorem Holds.patchedChild (hh : Holds h t i S) (hp : patch.WellFormed) (key : ChildKey) :
    (Heap.patchedChild key patch h i).1 = (Json.patchedChild key patch t).1 ∧
      Rewrites h S (Heap.patchedChild key patch h i).2 (Json.patchedChild key patch t).2 i := by
  cases t with
  | obj fields => exact hh.patchedChild_obj hp key
  | arr items =>
    cases key with
    | index k => exact hh.patchedChild_arr hp k
    | name n =>
      obtain ⟨cells, T, -, -, -, hcontent, -⟩ := hh.of_arr
      refine hh.patchedChild_leaf (fun w => ?_) ?_ rfl rfl
      · unfold Heap.putNew
        rw [hcontent]
      · unfold Heap.remove
        rw [hcontent]
  | null | bool | num | str =>
    have hcontent := hh.content_leaf rfl
    refine hh.patchedChild_leaf (fun w => ?_) ?_ (by cases key <;> rfl) (by cases key <;> rfl)
    · unfold Heap.putNew
      rw [hcontent]
    · unfold Heap.remove
      rw [hcontent]

end Patches

end TreePath

import TreePath.Proofs.Tree.Standing
import TreePath.Proofs.Write.Failure
import TreePath.Proofs.Write.Spreading

namespace TreePath

open TreeUpdate Json

/-- The element that is added to a sequence for a name that identifies none of its elements. -/
def Json.identityElement (idField name : String) : Json := .obj [(idField, .str name)]

/-- The key of the child that a name or a position means in a container, beside the container: a name
that identifies no element of a sequence has been given one behind the others. Nothing, if that is
no container, or there is no such place in it. -/
def slotIn? (config : Config) (s : Segment) (container : Json) : Option (ChildKey × Json) :=
  match s, container with
  | .key name, .obj fields => some (.name name, .obj fields)
  | .key name, .arr items =>
    match (Json.arr items).children.find? fun e => hasIdentity config.idField name e.2 with
    | some e => some (e.1, .arr items)
    | none => some (.index items.length, .arr (items ++ [identityElement config.idField name]))
  | .index i, .obj fields => some (.name (toString i.toInt), .obj fields)
  | .index i, .arr items =>
    (place? i items.length).bind fun k =>
      if config.maxIndexGap < k - items.length then none else some (.index k, .arr items)
  | _, _ => none

/-- The child that a name or a position means to a write: null has become an empty container. -/
def slot? (config : Config) (s : Segment) (t : Json) : Option (ChildKey × Json) :=
  slotIn? config s (orEmpty s.container (some t))

section Containers

theorem orEmpty_orEmpty (container : NodeKind) (child : Option Json) :
    orEmpty container (some (orEmpty container child)) = orEmpty container child := by
  cases child with
  | none => cases container <;> rfl
  | some v =>
    cases v with
    | null => cases container <;> rfl
    | bool | num | str | arr | obj => rfl

theorem orEmpty_getD (container : NodeKind) (child : Option Json) :
    orEmpty container (some (child.getD .null)) = orEmpty container child := by
  cases child <;> rfl

theorem orEmpty_ne_null {container : NodeKind} (hcontainer : container ≠ .leaf)
    (child : Option Json) : orEmpty container child ≠ .null := by
  have hempty : container.emptyValue ≠ .null := by
    cases container with
    | leaf => exact absurd rfl hcontainer
    | mapping | sequence => exact Json.noConfusion
  cases child with
  | none => exact hempty
  | some c =>
    cases c with
    | null => exact hempty
    | bool | num | str | arr | obj => exact Json.noConfusion

/-- What is made for a segment can have children. -/
theorem Segment.container_ne_leaf (s : Segment) : s.container ≠ .leaf := by
  fun_induction Segment.container s with
  | case1 | case3 => exact NodeKind.noConfusion
  | case2 first _ ih => exact ih

/-- A missing value means the same to a segment as the container that is made of it. -/
theorem slot?_filled (config : Config) (s : Segment) (child : Option Json) :
    slot? config s (orEmpty s.container child) = slot? config s (child.getD .null) := by
  unfold slot?
  rw [orEmpty_orEmpty, orEmpty_getD]

theorem putChild_concat (items : List Json) (v : Json) :
    (Json.arr items).putChild (.index items.length) v = .arr (items ++ [v]) := by
  have hone : items.length + 1 - items.length = 1 := by omega
  rw [putChild, padded, hone, List.replicate_one, List.set_append_right _ _ (Nat.le_refl _)]
  simp

theorem wellFormed_identityElement (idField name : String) :
    (identityElement idField name).WellFormed :=
  ⟨Fields.ascending_single _ _, trivial, trivial⟩

/-- In an element that is added for a name stands its identifying field, and nothing else. -/
theorem has_identityElement {idField name : String} {l : Location} {v : Json}
    (h : (identityElement idField name).Has l v) :
    l = [] ∧ v = identityElement idField name ∨ l = [.name idField] ∧ v = .str name := by
  cases l with
  | nil => exact .inl ⟨rfl, h⟩
  | cons k l =>
    obtain ⟨c, hc, hcv⟩ := h
    obtain ⟨n, rfl, hmem⟩ := mem_children_obj.mp hc
    obtain ⟨rfl, rfl⟩ := Prod.mk.inj (List.mem_singleton.mp hmem)
    obtain ⟨rfl, rfl⟩ := hcv.of_childless rfl
    exact .inr ⟨rfl, rfl⟩

end Containers

section Slots

variable {config : Config} {s : Segment} {t u c : Json} {key k : ChildKey}

/-- A position that is not too far behind the end has its slot. -/
theorem slotIn?_index {i : Int64} {items : List Json} {k : Nat}
    (hplace : place? i items.length = some k) (hgap : k - items.length ≤ config.maxIndexGap) :
    slotIn? config (.index i) (.arr items) = some (.index k, .arr items) := by
  rw [slotIn?, hplace, Option.bind_some, if_neg (Nat.not_lt.mpr hgap)]

/-- What is known of the container `u` in which a segment means the child at `key`. -/
structure Slot (config : Config) (s : Segment) (t : Json) (key : ChildKey) (u : Json) : Prop where
  lists : u.Lists key
  fits : KeyFits key u
  wellFormed : u.WellFormed
  /-- The container is the one that was there, or was missing, unless an element is added to it. -/
  origin : u = orEmpty s.container (some t) ∨ ∃ name items, s = .key name ∧ t = .arr items ∧
    key = .index items.length ∧ u = .arr (items ++ [identityElement config.idField name])

theorem slot_of_slot? (ht : t.WellFormed) (h : slot? config s t = some (key, u)) :
    Slot config s t key u := by
  have hfilled : (orEmpty s.container (some t)).WellFormed :=
    wellFormed_filled_self s.container ht
  obtain ⟨container, hcontainer⟩ : ∃ container, container = orEmpty s.container (some t) := ⟨_, rfl⟩
  rw [slot?, ← hcontainer] at h
  rw [← hcontainer] at hfilled
  unfold slotIn? at h
  split at h
  · next name fields =>
    obtain ⟨rfl, rfl⟩ := Prod.mk.inj (Option.some.inj h)
    exact ⟨trivial, keyFits_name _ _, hfilled, .inl hcontainer⟩
  · next name items =>
    split at h
    · next e he =>
      obtain ⟨rfl, rfl⟩ := Prod.mk.inj (Option.some.inj h)
      have hmem := List.mem_of_find?_eq_some he
      have hfits := keyFits_childKeys (List.mem_map_of_mem (f := Prod.fst) hmem)
      exact ⟨lists_of_mem hmem, hfits, hfilled, .inl hcontainer⟩
    · obtain ⟨rfl, rfl⟩ := Prod.mk.inj (Option.some.inj h)
      have hsequence : t = .arr items := by
        cases t with
        | null => cases hcontainer
        | bool | num | str | arr | obj => exact hcontainer.symm
      refine ⟨trivial, ?_, ?_, .inr ⟨name, items, rfl, hsequence, rfl, rfl⟩⟩
      · rintro k ⟨⟩
        left
        show items.length < (items ++ [identityElement config.idField name]).length
        simp
      · rw [← putChild_concat]
        exact wellFormed_putChild hfilled (wellFormed_identityElement _ _) _
  · next i fields =>
    obtain ⟨rfl, rfl⟩ := Prod.mk.inj (Option.some.inj h)
    exact ⟨trivial, keyFits_name _ _, hfilled, .inl hcontainer⟩
  · next i items =>
    obtain ⟨k, hplace, hk⟩ := Option.bind_eq_some_iff.mp h
    split at hk
    · cases hk
    · obtain ⟨rfl, rfl⟩ := Prod.mk.inj (Option.some.inj hk)
      refine ⟨trivial, ?_, hfilled, .inl hcontainer⟩
      rintro j ⟨⟩
      exact place?_lt hplace
  · cases h

/-- The children stay when a segment is entered. -/
theorem Slot.mem (h : Slot config s t key u) (hc : (k, c) ∈ t.children) : (k, c) ∈ u.children := by
  rcases h.origin with hsame | ⟨name, items, -, rfl, -, rfl⟩
  · have hnull : t ≠ .null := by
      rintro rfl
      exact absurd hc List.not_mem_nil
    rw [hsame, orEmpty_of_ne s.container hnull]
    exact hc
  · obtain ⟨i, rfl, hget⟩ := mem_children_arr.mp hc
    obtain ⟨hi, -⟩ := List.getElem?_eq_some_iff.mp hget
    exact mem_children_arr.mpr ⟨i, rfl, (List.getElem?_append_left hi).trans hget⟩

/-- The only child that may be new when a segment is entered is the one that it means. -/
theorem Slot.mem_or (h : Slot config s t key u) (hc : (k, c) ∈ u.children) :
    (k, c) ∈ t.children ∨ ∃ name items, s = .key name ∧ t = .arr items ∧ k = key ∧
      key = .index items.length ∧ c = identityElement config.idField name := by
  rcases h.origin with hsame | ⟨name, items, hs, rfl, hkey, rfl⟩
  · left
    have hnull : t ≠ .null := by
      rintro rfl
      have hnone := children_emptyValue s.container
      rw [hsame] at hc
      change (k, c) ∈ s.container.emptyValue.children at hc
      rw [hnone] at hc
      exact absurd hc List.not_mem_nil
    rwa [hsame, orEmpty_of_ne s.container hnull] at hc
  · obtain ⟨i, rfl, hget⟩ := mem_children_arr.mp hc
    by_cases hi : i < items.length
    · left
      exact mem_children_arr.mpr ⟨i, rfl, (List.getElem?_append_left hi).symm.trans hget⟩
    · right
      rw [List.getElem?_append_right (Nat.le_of_not_lt hi), List.getElem?_singleton] at hget
      split at hget
      · next hlast =>
        have hlength : i = items.length := by omega
        refine ⟨name, items, hs, rfl, ?_, hkey, (Option.some.inj hget).symm⟩
        rw [hlength, hkey]
      · cases hget

/-- What is put in the slot does not move it, unless an element is identified by a name. -/
theorem slot?_put (havoid : s.isKey = true → t.kind ≠ .sequence)
    (h : slot? config s t = some (key, u)) (d : Json) :
    slot? config s (u.putChild key d) = some (key, u.putChild key d) := by
  obtain ⟨container, hcontainer⟩ : ∃ container, container = orEmpty s.container (some t) := ⟨_, rfl⟩
  rw [slot?, ← hcontainer] at h
  unfold slotIn? at h
  split at h
  · next name fields =>
    obtain ⟨rfl, rfl⟩ := Prod.mk.inj (Option.some.inj h)
    rfl
  · next name items =>
    have hsequence : t.kind = .sequence := by
      cases t with
      | arr items => rfl
      | null | bool | num | str | obj => cases hcontainer
    exact absurd hsequence (havoid rfl)
  · next i fields =>
    obtain ⟨rfl, rfl⟩ := Prod.mk.inj (Option.some.inj h)
    rfl
  · next i items =>
    obtain ⟨k, hplace, hk⟩ := Option.bind_eq_some_iff.mp h
    split at hk
    · cases hk
    · obtain ⟨rfl, rfl⟩ := Prod.mk.inj (Option.some.inj hk)
      have hlength : ((padded items (k + 1)).set k d).length = max items.length (k + 1) := by
        simp [padded]
        omega
      refine slotIn?_index ?_ ?_
      · rw [hlength]
        exact place?_grow hplace
      · omega
  · cases h

/-- A child that is there, and is meant by a segment, is the one that a read is led to. -/
theorem mem_picked_of_slot? (ht : t.WellFormed) (h : slot? config s t = some (key, u))
    (hc : (key, c) ∈ t.children) : (key, c) ∈ picked config s t := by
  have hentry : t.entryAt? key = some (key, c) := by
    rw [entryAt?, child?_of_mem ht hc]
    rfl
  have hnull : t ≠ .null := by
    intro hnull
    subst hnull
    exact absurd hc List.not_mem_nil
  rw [slot?, orEmpty_of_ne s.container hnull] at h
  unfold slotIn? at h
  split at h
  · next name fields =>
    obtain ⟨rfl, rfl⟩ := Prod.mk.inj (Option.some.inj h)
    rw [picked, hentry]
    exact List.mem_cons_self
  · next name items =>
    have hnone : (Json.arr items).entryAt? (.name name) = none := rfl
    have hkind : (Json.arr items).kind = .sequence := rfl
    split at h
    · next e he =>
      obtain ⟨rfl, rfl⟩ := Prod.mk.inj (Option.some.inj h)
      obtain rfl := children_unique ht hc (List.mem_of_find?_eq_some he)
      rw [picked, hnone, if_pos hkind, he]
      exact List.mem_cons_self
    · obtain ⟨rfl, rfl⟩ := Prod.mk.inj (Option.some.inj h)
      obtain ⟨_, ⟨⟩, hget⟩ := mem_children_arr.mp hc
      obtain ⟨hlt, -⟩ := List.getElem?_eq_some_iff.mp hget
      exact absurd hlt (Nat.lt_irrefl _)
  · next i fields =>
    obtain ⟨rfl, rfl⟩ := Prod.mk.inj (Option.some.inj h)
    have hmapping : (Json.obj fields).kind ≠ .sequence := NodeKind.noConfusion
    rw [picked, if_neg hmapping, hentry]
    exact List.mem_cons_self
  · next i items =>
    obtain ⟨k, hplace, hk⟩ := Option.bind_eq_some_iff.mp h
    split at hk
    · cases hk
    · obtain ⟨rfl, rfl⟩ := Prod.mk.inj (Option.some.inj hk)
      have hsize : (Json.arr items).size = items.length := rfl
      have hkind : (Json.arr items).kind = .sequence := rfl
      rw [picked, if_pos hkind, hsize, hplace, Option.bind_some, hentry]
      exact List.mem_cons_self
  · cases h

/-- Where a read of a name or a position is led to, a write finds its slot as it is. -/
theorem slot?_of_mem_picked (hs : s.isConcrete = true) {e : ChildKey × Json}
    (he : e ∈ picked config s t) : slot? config s t = some (e.1, t) := by
  have hleaf : t.kind ≠ .leaf := by
    intro hleaf
    rw [picked_leaf config hleaf] at he
    exact absurd he List.not_mem_nil
  rcases s.eq_of_isConcrete hs with ⟨name, rfl⟩ | ⟨i, rfl⟩
  · cases t with
    | obj fields =>
      have hmapping : (Json.obj fields).kind ≠ .sequence := NodeKind.noConfusion
      rw [picked] at he
      split at he
      · next found hfound =>
        obtain rfl := List.mem_singleton.mp he
        rw [(mem_of_entryAt? hfound (.inr ⟨name, rfl⟩)).1]
        rfl
      · rw [if_neg hmapping] at he
        exact absurd he List.not_mem_nil
    | arr items =>
      have hnone : (Json.arr items).entryAt? (.name name) = none := rfl
      have hkind : (Json.arr items).kind = .sequence := rfl
      rw [picked, hnone] at he
      simp only [if_pos hkind] at he
      have hfound := Option.mem_toList.mp he
      show slotIn? config (.key name) (.arr items) = some (e.1, .arr items)
      rw [slotIn?, hfound]
    | null | bool | num | str => exact absurd rfl hleaf
  · cases t with
    | obj fields =>
      have hmapping : (Json.obj fields).kind ≠ .sequence := NodeKind.noConfusion
      rw [picked, if_neg hmapping] at he
      rw [(mem_of_entryAt? (Option.mem_toList.mp he) (.inr ⟨_, rfl⟩)).1]
      rfl
    | arr items =>
      have hkind : (Json.arr items).kind = .sequence := rfl
      rw [picked, if_pos hkind] at he
      obtain ⟨k, hplace, hentry⟩ := Option.bind_eq_some_iff.mp (Option.mem_toList.mp he)
      obtain ⟨v, hv, -⟩ := Option.map_eq_some_iff.mp hentry
      obtain ⟨hlt, -⟩ := List.getElem?_eq_some_iff.mp (show items[k]? = some v from hv)
      rw [(mem_of_entryAt? hentry (.inl hkind)).1]
      exact slotIn?_index hplace (by omega)
    | null | bool | num | str => exact absurd rfl hleaf

end Slots

section Entering

variable (config : Config) (done : Path) {s : Segment} {t : Json}

/-- How a segment is entered in a container. -/
inductive Enters (s : Segment) (container : Json) : Except PathError (Option ChildKey) → Json → Prop
  | found {key : ChildKey} {u : Json} (h : slotIn? config s container = some (key, u)) :
    Enters s container (.ok (some key)) u
  | refused {e : PathError} (h : slotIn? config s container = none)
    (hat : e.refusedAt? = some done) : Enters s container (.error e) container

theorem identifiedKey_enters (name : String) {items : List Json}
    (hitems : (Json.arr items).WellFormed) :
    (identifiedKey config name false : Write Json (Option ChildKey)).Leaves (.arr items)
      (Enters config done (.key name) (.arr items)) := by
  unfold identifiedKey
  apply Write.Leaves.view_bind
  rw [identified?_eq _ _ hitems]
  cases hfind : (Json.arr items).children.find? fun e => hasIdentity config.idField name e.2 with
  | some e =>
    apply Write.Leaves.pure
    apply Enters.found
    rw [slotIn?, hfind]
  | none =>
    have hslot : slotIn? config (.key name) (.arr items) =
        some (.index items.length, .arr (items ++ [identityElement config.idField name])) := by
      rw [slotIn?, hfind]
    have hadd : (apply (some (.index items.length))
        (Patch.overwrite (identityElement config.idField name)) : Write Json Nat) (.arr items) =
        ⟨.ok 1, .arr (items ++ [identityElement config.idField name]), 0⟩ := by
      rw [← putChild_concat]
      exact apply_value rfl (by rintro _ ⟨⟩; trivial)
    apply Write.Leaves.view_bind
    refine .bind (fun r u => r = .ok 1 ∧
      u = .arr (items ++ [identityElement config.idField name])) (.of_eq hadd ⟨rfl, rfl⟩) ?_ ?_
    · rintro _ _ ⟨-, rfl⟩
      exact .pure (.found hslot)
    · rintro e _ ⟨he, -⟩
      cases he

theorem positionKey_enters (i : Int64) (items : List Json) :
    (positionKey config done i false : Write Json (Option ChildKey)).Leaves (.arr items)
      (Enters config done (.index i) (.arr items)) := by
  have hfront : (done.append (.index i)).dropLast = done := by simp [Path.append]
  have hsize : childCount (Json.arr items) = items.length := rfl
  unfold positionKey
  apply Write.Leaves.view_bind
  rw [hsize]
  cases hplace : place? i items.length with
  | none =>
    apply Write.Leaves.fail
    refine .refused ?_ (congrArg some hfront)
    rw [slotIn?, hplace, Option.bind_none]
  | some k =>
    simp only [Bool.not_false, Bool.true_and, decide_eq_true_eq]
    split
    · next hgap =>
      apply Write.Leaves.fail
      refine .refused ?_ (congrArg some hfront)
      rw [slotIn?, hplace, Option.bind_some, if_pos hgap]
    · next hgap =>
      apply Write.Leaves.pure
      exact .found (slotIn?_index hplace (Nat.le_of_not_lt hgap))

/-- A write enters a name or a position at the child that it means. -/
theorem enter_leaves (hs : s.isConcrete = true) (ht : t.WellFormed) :
    (enter config done s false : Write Json (Option ChildKey)).Leaves t
      (Enters config done s (orEmpty s.container (some t))) := by
  have hfilled : (orEmpty s.container (some t)).WellFormed :=
    wellFormed_filled_self s.container ht
  rw [Write.Leaves, enter_eq]
  generalize orEmpty s.container (some t) = container at hfilled
  rcases s.eq_of_isConcrete hs with ⟨name, rfl⟩ | ⟨i, rfl⟩
  · cases container with
    | obj fields => exact .found rfl
    | arr items => exact identifiedKey_enters config done name hfilled
    | null | bool | num | str => exact .refused rfl rfl
  · cases container with
    | obj fields => exact .found rfl
    | arr items => exact positionKey_enters config done i items
    | null | bool | num | str => exact .refused rfl rfl

end Entering

section Writing

variable (config : Config) {patch : Patch} (done : Path) {s : Segment} {t : Json}

/-- At the end of a path a value is put in its place; this never fails, and counts something unless
that value was there already. -/
theorem finish_leaves (hpatch : patch.WellFormed) (hremoval : patch.isRemoval = false)
    (key : Option ChildKey) (depth : Nat) (ht : t.WellFormed) (hkey : t.AcceptsAt key) :
    (finish config patch key depth : Write Json Nat).Leaves t fun r u =>
      ∃ n w, w.WellFormed ∧ r = .ok n ∧ u = t.putAt key w ∧ (n = 0 → t.at? key = some w) := by
  cases hvalue : patch.value with
  | none => simp [Patch.isRemoval, hvalue] at hremoval
  | some v =>
    have hw := wellFormed_combinedTo patch.policy patch.idempotent (config.maxDepth - depth)
      (fun w (hw : t.at? key = some w) => wellFormed_at? ht hw) v (hpatch v hvalue)
    obtain ⟨n, trips, hrun, hzero⟩ := finish_eq config hvalue (hpatch v hvalue) key depth ht hkey rfl
    exact .of_eq hrun ⟨n, _, hw, rfl, rfl, hzero⟩

/-- What a refusal leaves, what the end of a path leaves in the slot and what the rest of a path
leaves there is what a write along a name or a position leaves. -/
theorem writeOn_slot (hs : s.isConcrete = true) (hremoval : patch.isRemoval = false) (rest : Path)
    (depth : Nat) (ht : t.WellFormed) {post : Except PathError Nat → Json → Prop}
    (hrefused : slot? config s t = none → ∀ e : PathError, e.refusedAt? = some done →
      post (.error e) (orEmpty s.container (some t)))
    (hend : rest = [] → ∀ key u, slot? config s t = some (key, u) →
      (finish config patch (some key) depth : Write Json Nat).Leaves u post)
    (hbelow : ∀ after more, rest = after :: more → ∀ key u, slot? config s t = some (key, u) →
      (writeAt config patch (done.append s) (after :: more) (depth + 1) : Write Json Nat).Leaves
        (orEmpty after.container (u.child? key)) fun r d => post r (u.putChild key d)) :
    (writeOn config patch done (s :: rest) depth : Write Json Nat).Leaves t post := by
  rw [writeOn_concrete config patch done hs, hremoval]
  refine .bind _ (enter_leaves config done hs ht) ?_ ?_
  · rintro _ u (@⟨key, _, hslot⟩)
    have hin := slot_of_slot? ht hslot
    match rest with
    | [] =>
      simp only
      rw [writeBelow]
      exact hend rfl key u hslot
    | after :: more =>
      simp only
      rw [Write.Leaves, writeBelow_eq config hremoval done s after more depth hin.wellFormed
        hin.lists.accepts hin.fits]
      exact hbelow after more rfl key u hslot
  · rintro e _ (_ | ⟨hslot, hat⟩)
    exact hrefused hslot e hat

end Writing

end TreePath

import Mathlib.Algebra.GroupWithZero.Nat
import TreePath.Proofs.Tree.Location
import TreePath.Proofs.Write.Ensures
import TreePath.Proofs.Write.Place
import TreePath.Write.Basic

namespace TreePath

open TreeUpdate Json

section Keys

namespace ChildKey

theorem lt_irrefl (k : ChildKey) : k.lt k = false := by
  cases k with
  | name n => exact decide_eq_false (String.lt_irrefl n)
  | index i => exact decide_eq_false (Nat.lt_irrefl i)

theorem le_name {m n : String} : (name m).le (name n) = true ↔ m ≤ n := by
  rw [le, lt, Bool.not_eq_true', decide_eq_false_iff_not, String.not_lt]

theorem le_index {i j : Nat} : (index i).le (index j) = true ↔ i ≤ j := by
  rw [le, lt, Bool.not_eq_true', decide_eq_false_iff_not, Nat.not_lt]

theorem le_trans {a b c : ChildKey} (hab : a.le b = true) (hbc : b.le c = true) :
    a.le c = true := by
  cases a with
  | name m =>
    cases c with
    | name n =>
      cases b with
      | name k => exact le_name.mpr (String.le_trans (le_name.mp hab) (le_name.mp hbc))
      | index k => exact Bool.noConfusion hbc
    | index j => rfl
  | index i =>
    cases b with
    | name k => exact Bool.noConfusion hab
    | index k =>
      cases c with
      | name n => exact Bool.noConfusion hbc
      | index j => exact le_index.mpr (Nat.le_trans (le_index.mp hab) (le_index.mp hbc))

theorem le_total (a b : ChildKey) : (a.le b || b.le a) = true := by
  rw [Bool.or_eq_true]
  cases a with
  | name m =>
    cases b with
    | name n => exact (String.le_total m n).imp le_name.mpr le_name.mpr
    | index j => exact .inl rfl
  | index i =>
    cases b with
    | name n => exact .inr rfl
    | index j => exact (Nat.le_total i j).imp le_index.mpr le_index.mpr

theorem lt_of_le_of_ne {a b : ChildKey} (hle : a.le b = true) (hne : a ≠ b) : a.lt b = true := by
  cases a with
  | name m =>
    cases b with
    | name n =>
      apply decide_eq_true
      apply Decidable.byContradiction
      intro hnot
      have hsame := String.le_antisymm (le_name.mp hle) (String.not_lt.mp hnot)
      exact hne (congrArg name hsame)
    | index j => rfl
  | index i =>
    cases b with
    | name n => exact Bool.noConfusion hle
    | index j =>
      have hij : i ≠ j := fun he => hne (congrArg index he)
      exact decide_eq_true (Nat.lt_of_le_of_ne (le_index.mp hle) hij)

theorem sort_perm (keys : List ChildKey) : (sort keys).Perm keys := List.mergeSort_perm keys le

theorem sort_pairwise (keys : List ChildKey) :
    (sort keys).Pairwise fun a b => a.le b = true :=
  @List.pairwise_mergeSort _ le (fun _ _ _ => le_trans) le_total keys

/-- Among keys that are all different there is nothing to take out. -/
theorem dedup_eq_self {keys : List ChildKey} (h : keys.Nodup) : dedup keys = keys := by
  induction keys with
  | nil => rfl
  | cons k rest ih =>
    obtain ⟨hk, hrest⟩ := List.nodup_cons.mp h
    cases rest with
    | nil => rfl
    | cons l rest =>
      have hne : k ≠ l := fun he => hk (he ▸ List.mem_cons_self)
      rw [dedup, if_neg hne, ih hrest]

end ChildKey

/-- From the back to the front. -/
def Descending (keys : List ChildKey) : Prop := keys.Pairwise fun a b => b.lt a = true

theorem writeOrder_perm {keys : List ChildKey} (h : keys.Nodup) :
    (writeOrder true keys).Perm keys := by
  have hsorted : (ChildKey.sort keys).Nodup := (ChildKey.sort_perm keys).nodup_iff.mpr h
  rw [writeOrder, if_pos rfl, ChildKey.dedup_eq_self hsorted]
  exact (List.reverse_perm _).trans (ChildKey.sort_perm keys)

/-- What is removed is removed from the back. -/
theorem writeOrder_descending {keys : List ChildKey} (h : keys.Nodup) :
    Descending (writeOrder true keys) := by
  have hsorted : (ChildKey.sort keys).Nodup := (ChildKey.sort_perm keys).nodup_iff.mpr h
  rw [writeOrder, if_pos rfl, ChildKey.dedup_eq_self hsorted]
  apply List.pairwise_reverse.mpr
  have hboth := List.Pairwise.and (ChildKey.sort_pairwise keys) hsorted
  exact hboth.imp fun hab => ChildKey.lt_of_le_of_ne hab.1 hab.2

end Keys

section Dropping

/-- When the element at `k` goes, those behind it move forward by one. -/
theorem filterMap_eraseIdx {α β : Type} {f g : α × Nat → Option β} (items : List α) {k : Nat}
    (s : Nat) (hfront : ∀ a j, j < s + k → f (a, j) = g (a, j)) (hat : ∀ a, g (a, s + k) = none)
    (hback : ∀ a j, s + k ≤ j → f (a, j) = g (a, j + 1)) :
    ((items.eraseIdx k).zipIdx s).filterMap f = (items.zipIdx s).filterMap g := by
  induction items generalizing k s with
  | nil => rfl
  | cons a rest ih =>
    cases k with
    | zero =>
      have hnone : g (a, s) = none := hat a
      rw [List.eraseIdx_cons_zero, List.zipIdx_cons, List.filterMap_cons_none hnone,
        List.zipIdx_succ, List.filterMap_map]
      apply List.filterMap_congr
      rintro ⟨b, j⟩ hmem
      exact hback b j (List.le_snd_of_mem_zipIdx hmem)
    | succ k =>
      have hshift : s + (k + 1) = s + 1 + k := by omega
      rw [hshift] at hfront hat hback
      have hhead : f (a, s) = g (a, s) := hfront a s (by omega)
      rw [List.eraseIdx_cons_succ, List.zipIdx_cons, List.zipIdx_cons, List.filterMap_cons,
        List.filterMap_cons, hhead, ih (s + 1) hfront hat hback]

/-- The element at a position goes, and those behind it move up. -/
theorem eraseIdx_eq_dropChildren (items : List Json) (i : Nat) :
    Json.arr (items.eraseIdx i) = (Json.arr items).dropChildren [.index i] := by
  have herase : (items.eraseIdx i).zipIdx.filterMap (some ∘ Prod.fst) =
      items.zipIdx.filterMap fun e =>
        if ChildKey.index e.2 ∈ [ChildKey.index i] then none else some e.1 := by
    refine filterMap_eraseIdx items 0 (fun a j hj => ?_) (fun a => ?_) fun a j hj => ?_
    · have hne : j ≠ i := by omega
      simp [hne]
    · simp
    · have hne : j + 1 ≠ i := by omega
      simp [hne]
  rw [List.filterMap_eq_map, List.zipIdx_map_fst] at herase
  rw [dropChildren_arr, herase]

variable {t v : Json} {key : ChildKey} {patch : Patch}

/-- To remove a child is to drop it. -/
theorem patchedChild_removal (hvalue : patch.value = none) (ht : t.WellFormed)
    (hv : (key, v) ∈ t.children) : t.patchedChild key patch = (1, t.dropChildren [key]) := by
  have hresolve := Patch.resolve_of_none hvalue
  have hchild := child?_of_mem ht hv
  cases t with
  | arr items =>
    obtain ⟨i, rfl, hget⟩ := mem_children_arr.mp hv
    simp only [Json.patchedChild, hget, hresolve, eraseIdx_eq_dropChildren]
  | obj fields =>
    obtain ⟨name, rfl, hmem⟩ := mem_children_obj.mp hv
    have hfind : Fields.find? fields name = some v := hchild
    have hfilter : fields.filter (fun f => f.1 ≠ name) =
        fields.filter fun f => ChildKey.name f.1 ∉ [ChildKey.name name] := by
      refine List.filter_congr fun f _ => ?_
      simp
    simp only [Json.patchedChild, ChildKey.asName, hfind, hresolve, Option.isSome_some, if_true]
    rw [Fields.erase_eq_filter ht.1, hfilter, dropChildren_obj]
  | null | bool | num | str => simp [children] at hv

/-- Where there is no child, none is removed. -/
theorem patchedChild_missing (hvalue : patch.value = none) (hnone : t.child? key = none) :
    t.patchedChild key patch = (0, t) := by
  have hresolve := Patch.resolve_of_none hvalue
  cases t with
  | arr items =>
    cases key with
    | name n => rfl
    | index i =>
      have hget : items[i]? = none := hnone
      simp only [Json.patchedChild, hget, hresolve]
  | obj fields =>
    have hfind : Fields.find? fields key.asName = none := by simpa using hnone
    cases key <;>
      simp only [Json.patchedChild, hfind, hresolve, Fields.erase_eq_self hfind] <;> rfl
  | null | bool | num | str => cases key <;> rfl

/-- When one child has been dropped, those in front of it are still there. -/
theorem mem_children_dropChildren {k : ChildKey} {w : Json} (hk : (k, w) ∈ t.children)
    (hlt : k.lt key = true) : (k, w) ∈ (t.dropChildren [key]).children := by
  have hne : k ≠ key := by
    rintro rfl
    simp [ChildKey.lt_irrefl] at hlt
  cases t with
  | arr items =>
    obtain ⟨j, rfl, hget⟩ := mem_children_arr.mp hk
    cases key with
    | name n => simp [ChildKey.lt] at hlt
    | index i =>
      have hji : j < i := by simpa [ChildKey.lt] using hlt
      rw [← eraseIdx_eq_dropChildren, mem_children_arr]
      exact ⟨j, rfl, by rw [List.getElem?_eraseIdx_of_lt hji, hget]⟩
  | obj fields =>
    obtain ⟨name, rfl, hmem⟩ := mem_children_obj.mp hk
    rw [dropChildren_obj, mem_children_obj]
    exact ⟨name, rfl, List.mem_filter.mpr ⟨hmem, by simpa using hne⟩⟩
  | null | bool | num | str => simp [children] at hk

/-- To edit children after one behind them has been dropped is to drop it while they are edited. -/
theorem editChildren_dropChildren {keys : List ChildKey} (hmem : (key, v) ∈ t.children)
    (hlt : ∀ k ∈ keys, k.lt key = true) (edit : Json → Option Json) :
    (t.dropChildren [key]).editChildren (fun k u => if k ∈ keys then edit u else some u) =
      t.editChildren fun k u =>
        if k = key then none else if k ∈ keys then edit u else some u := by
  cases t with
  | arr items =>
    obtain ⟨i, rfl, -⟩ := mem_children_arr.mp hmem
    have hbelow : ∀ j, i ≤ j → ChildKey.index j ∉ keys := by
      intro j hj hin
      have hlt := hlt _ hin
      simp only [ChildKey.lt, decide_eq_true_eq] at hlt
      omega
    rw [← eraseIdx_eq_dropChildren]
    apply congrArg Json.arr
    refine filterMap_eraseIdx items 0 (fun a j hj => ?_) (fun a => ?_) fun a j hj => ?_
    · have hne : j ≠ i := by omega
      simp [hne]
    · simp
    · have hne : j + 1 ≠ i := by omega
      simp [hne, hbelow j (by omega), hbelow (j + 1) (by omega)]
  | obj fields =>
    obtain ⟨name, rfl, -⟩ := mem_children_obj.mp hmem
    rw [dropChildren_obj, editChildren, editChildren, List.filterMap_filter]
    refine congrArg Json.obj (List.filterMap_congr fun f _ => ?_)
    by_cases hf : f.1 = name <;> simp [hf]
  | null | bool | num | str => rfl

end Dropping

section Editing

variable {t : Json}

theorem zipIdx_set {α : Type} (items : List α) (i : Nat) (w : α) :
    (items.set i w).zipIdx = items.zipIdx.map fun (v, j) => (if j = i then w else v, j) := by
  refine List.ext_getElem (by simp) fun j hj _ => ?_
  by_cases hji : j = i
  · subst hji
    simp
  · have hij : i ≠ j := fun he => hji he.symm
    simp [hji, hij]

/-- To edit all children after one of them has been exchanged is to edit the new one in the place
of the old one. -/
theorem editChildren_putChild {key : ChildKey} {v : Json} (ht : t.WellFormed)
    (hv : (key, v) ∈ t.children) (w : Json) (f : ChildKey → Json → Option Json) :
    (t.putChild key w).editChildren f =
      t.editChildren fun k u => f k (if k = key then w else u) := by
  cases t with
  | arr items =>
    obtain ⟨i, rfl, hget⟩ := mem_children_arr.mp hv
    obtain ⟨hi, -⟩ := List.getElem?_eq_some_iff.mp hget
    rw [putChild_arr_of_lt hi, editChildren, editChildren, zipIdx_set, List.filterMap_map]
    refine congrArg Json.arr (List.filterMap_congr ?_)
    rintro ⟨u, j⟩ -
    simp
  | obj fields =>
    obtain ⟨name, rfl, hmem⟩ := mem_children_obj.mp hv
    rw [putChild_obj, editChildren, editChildren, ChildKey.asName,
      Fields.insert_eq_map ht.1 hmem, List.filterMap_map]
    refine congrArg Json.obj (List.filterMap_congr ?_)
    rintro ⟨n, u⟩ -
    by_cases hn : n = name <;> simp [hn]
  | null | bool | num | str => simp [children] at hv

theorem mem_children_putChild {key : ChildKey} {v : Json} (ht : t.WellFormed)
    (hv : (key, v) ∈ t.children) (w : Json) {k : ChildKey} {u : Json} (hk : (k, u) ∈ t.children)
    (hne : k ≠ key) : (k, u) ∈ (t.putChild key w).children := by
  cases t with
  | arr items =>
    obtain ⟨i, rfl, hget⟩ := mem_children_arr.mp hv
    obtain ⟨j, rfl, hother⟩ := mem_children_arr.mp hk
    obtain ⟨hi, -⟩ := List.getElem?_eq_some_iff.mp hget
    have hij : i ≠ j := fun he => hne (congrArg ChildKey.index he.symm)
    rw [putChild_arr_of_lt hi, mem_children_arr]
    exact ⟨j, rfl, (List.getElem?_set_ne hij).trans hother⟩
  | obj fields =>
    obtain ⟨name, rfl, hmem⟩ := mem_children_obj.mp hv
    obtain ⟨n, rfl, hother⟩ := mem_children_obj.mp hk
    have hn : n ≠ name := fun he => hne (congrArg ChildKey.name he)
    rw [putChild_obj, mem_children_obj, ChildKey.asName, Fields.insert_eq_map ht.1 hmem]
    exact ⟨n, rfl, List.mem_map.mpr ⟨(n, u), hother, if_neg hn⟩⟩
  | null | bool | num | str => simp [children] at hv

end Editing

section Altering

variable {t v w : Json} {key : ChildKey} {new : Option Json} {patch : Patch}

namespace Json

/-- The value with something else in the place of its child at a key, or without the child. -/
def alterChild (t : Json) (key : ChildKey) : Option Json → Json
  | some w => t.putChild key w
  | none => t.dropChildren [key]

theorem wellFormed_alterChild (ht : t.WellFormed) (hnew : ∀ w, new = some w → w.WellFormed)
    (key : ChildKey) : (t.alterChild key new).WellFormed := by
  cases new with
  | some w => exact wellFormed_putChild ht (hnew w rfl) key
  | none => exact wellFormed_dropChildren ht [key]

/-- The children in front of the one that is altered are still there. -/
theorem mem_children_alterChild (ht : t.WellFormed) (hv : (key, v) ∈ t.children) {k : ChildKey}
    {u : Json} (hu : (k, u) ∈ t.children) (hlt : k.lt key = true) (new : Option Json) :
    (k, u) ∈ (t.alterChild key new).children := by
  cases new with
  | some w =>
    refine mem_children_putChild ht hv w hu ?_
    rintro rfl
    simp [ChildKey.lt_irrefl] at hlt
  | none => exact mem_children_dropChildren hu hlt

theorem editChildren_alterChild {keys : List ChildKey} (ht : t.WellFormed)
    (hv : (key, v) ∈ t.children) (hlt : ∀ k ∈ keys, k.lt key = true) (edit : Json → Option Json) :
    (t.alterChild key (edit v)).editChildren
        (fun k u => if k ∈ keys then edit u else some u) =
      t.editChildren fun k u => if k ∈ key :: keys then edit u else some u := by
  have hkey : key ∉ keys := by
    intro hmem
    have hself := hlt key hmem
    simp [ChildKey.lt_irrefl] at hself
  cases hnew : edit v with
  | some w =>
    rw [alterChild, editChildren_putChild ht hv]
    refine editChildren_congr fun k u hu => ?_
    by_cases hk : k = key
    · subst hk
      obtain rfl := children_unique ht hu hv
      simp [hkey, hnew]
    · simp [hk]
  | none =>
    rw [alterChild, editChildren_dropChildren hv hlt]
    refine editChildren_congr fun k u hu => ?_
    by_cases hk : k = key
    · subst hk
      obtain rfl := children_unique ht hu hv
      simp [hnew]
    · simp [hk]

/-- A patch that is applied to a child alters it. -/
theorem patchedChild_eq (ht : t.WellFormed) (hv : (key, v) ∈ t.children) (patch : Patch) :
    t.patchedChild key patch = (1, t.alterChild key (patch.resolve (some v))) := by
  have hchild := child?_of_mem ht hv
  cases hvalue : patch.value with
  | none => rw [patchedChild_removal hvalue ht hv, Patch.resolve_of_none hvalue, alterChild]
  | some new =>
    rw [patchedChild_value hvalue (accepts_of_child? hchild), hchild, resolve_value hvalue,
      alterChild]

theorem apply_child (ht : t.WellFormed) (hv : (key, v) ∈ t.children) (patch : Patch) :
    (apply (some key) patch : Write Json Nat) t =
      ⟨.ok 1, t.alterChild key (patch.resolve (some v)), 0⟩ := by
  change (⟨.ok (t.patchedChild key patch).1, (t.patchedChild key patch).2, 0⟩ :
    Outcome Json Nat) = _
  rw [patchedChild_eq ht hv]

end Json

/-- Steps at several children, from the back to the front, alter each of them, and the counts are
added up. -/
theorem sum_alters {x : ChildKey → Write Json Nat} (count : Json → Nat)
    (edit : Json → Option Json) {chosen : List (ChildKey × Json)}
    (hkeys : Descending (chosen.map Prod.fst)) (ht : t.WellFormed)
    (hmem : ∀ e ∈ chosen, e ∈ t.children)
    (hedit : ∀ e ∈ chosen, ∀ w, edit e.2 = some w → w.WellFormed)
    (hx : ∀ e ∈ chosen, ∀ u : Json, u.WellFormed → e ∈ u.children →
      x e.1 u = ⟨.ok (count e.2), u.alterChild e.1 (edit e.2), 0⟩) :
    Write.sum x (chosen.map Prod.fst) t =
      ⟨.ok (chosen.map fun e => count e.2).sum,
        t.editChildren fun k u => if k ∈ chosen.map Prod.fst then edit u else some u, 0⟩ := by
  induction chosen generalizing t with
  | nil =>
    exact congrArg (fun u => (⟨.ok 0, u, 0⟩ : Outcome Json Nat))
      (editChildren_keep fun key v _ => by simp).symm
  | cons e rest ih =>
    obtain ⟨key, v⟩ := e
    have hv : (key, v) ∈ t.children := hmem _ List.mem_cons_self
    obtain ⟨hbelow, hrest⟩ := List.pairwise_cons.mp hkeys
    have hfirst := hx _ List.mem_cons_self t ht hv
    have hothers := ih hrest
      (wellFormed_alterChild ht (hedit _ List.mem_cons_self) key)
      (fun e he => mem_children_alterChild ht hv (hmem e (List.mem_cons_of_mem _ he))
        (hbelow _ (List.mem_map_of_mem he)) _)
      (fun e he => hedit e (List.mem_cons_of_mem _ he))
      fun e he => hx e (List.mem_cons_of_mem _ he)
    rw [editChildren_alterChild ht hv hbelow] at hothers
    rw [List.map_cons, Write.sum, Write.bind_ok hfirst, Write.bind_ok hothers]
    rfl

end Altering

section Sums

variable {t : Json} {patch : Patch}

theorem finish_removal (config : Config) (hvalue : patch.value = none) (key : Option ChildKey)
    (depth : Nat) : (finish config patch key depth : Write Json Nat) = apply key patch := by
  unfold finish
  rw [hvalue]

theorem exists_entries {keys : List ChildKey} (h : ∀ k ∈ keys, ∃ v, (k, v) ∈ t.children) :
    ∃ chosen : List (ChildKey × Json),
      keys = chosen.map Prod.fst ∧ ∀ e ∈ chosen, e ∈ t.children := by
  induction keys with
  | nil => exact ⟨[], rfl, fun e he => absurd he List.not_mem_nil⟩
  | cons key rest ih =>
    obtain ⟨v, hv⟩ := h key List.mem_cons_self
    obtain ⟨chosen, rfl, hchosen⟩ := ih fun k hk => h k (List.mem_cons_of_mem _ hk)
    exact ⟨(key, v) :: chosen, rfl, List.forall_mem_cons.mpr ⟨hv, hchosen⟩⟩

/-- Removing children from the back drops all of them. -/
theorem sum_finish_removal (config : Config) (hvalue : patch.value = none) (depth : Nat)
    {keys : List ChildKey} (hkeys : Descending keys) (ht : t.WellFormed)
    (hmem : ∀ k ∈ keys, ∃ v, (k, v) ∈ t.children) :
    Write.sum (fun key => (finish config patch (some key) depth : Write Json Nat)) keys t =
      ⟨.ok keys.length, t.dropChildren keys, 0⟩ := by
  obtain ⟨chosen, rfl, hchosen⟩ := exists_entries hmem
  have hstep : ∀ e ∈ chosen, ∀ u : Json, u.WellFormed → e ∈ u.children →
      (finish config patch (some e.1) depth : Write Json Nat) u =
        ⟨.ok 1, u.alterChild e.1 none, 0⟩ := by
    intro e he u hu hv
    rw [finish_removal config hvalue, apply_child hu hv, Patch.resolve_of_none hvalue]
  rw [sum_alters (fun _ => 1) (fun _ => none) hkeys ht hchosen (by simp) hstep]
  simp [dropChildren]

/-- What is written to all children at once, when something is removed. -/
theorem writeEach_removal (config : Config) (hvalue : patch.value = none) (done : Path)
    (depth : Nat) {keys : List ChildKey} (hkeys : keys.Nodup) (ht : t.WellFormed)
    (hmem : ∀ k ∈ keys, ∃ v, (k, v) ∈ t.children) :
    (writeEach config patch done [] depth keys : Write Json Nat) t =
      ⟨.ok keys.length, t.dropChildren keys, 0⟩ := by
  have hremoval := Patch.isRemoval_of_none hvalue
  have horder := writeOrder_perm hkeys
  have hsum := sum_finish_removal config hvalue depth (writeOrder_descending hkeys) ht
    fun k hk => hmem k (horder.mem_iff.mp hk)
  rw [writeEach, hremoval, hsum, horder.length_eq, dropChildren_congr fun _ => horder.mem_iff]

/-- When one child has been edited, the others may be edited after it. -/
theorem editChildren_cons {key : ChildKey} {v : Json} {keys : List ChildKey} (ht : t.WellFormed)
    (hv : (key, v) ∈ t.children) (hkey : key ∉ keys) (edit : Json → Json) :
    (t.putChild key (edit v)).editChildren (fun k u => some (if k ∈ keys then edit u else u)) =
      t.editChildren fun k u => some (if k ∈ key :: keys then edit u else u) := by
  rw [editChildren_putChild ht hv]
  apply editChildren_congr
  intro k u hu
  by_cases hk : k = key
  · subst hk
    obtain rfl := children_unique ht hu hv
    simp [hkey]
  · simp only [List.mem_cons, hk, false_or, if_false]

/-- Steps inside of several children edit each of them, and the counts are added up. -/
theorem sum_inChild {x : Write Json Nat} (count : Json → Nat) (edit : Json → Json)
    {chosen : List (ChildKey × Json)} (ht : t.WellFormed) (hmem : ∀ e ∈ chosen, e ∈ t.children)
    (hkeys : (chosen.map Prod.fst).Nodup) (hedit : ∀ e ∈ chosen, (edit e.2).WellFormed)
    (hx : ∀ e ∈ chosen, x.Ensures e.2 fun n v => n = count e.2 ∧ v = edit e.2) :
    (Write.sum (fun key => inChild key x) (chosen.map Prod.fst)).Ensures t fun n u =>
      n = (chosen.map fun e => count e.2).sum ∧
        u = t.editChildren fun key v =>
          some (if key ∈ chosen.map Prod.fst then edit v else v) := by
  induction chosen generalizing t with
  | nil =>
    refine .pure ⟨rfl, (editChildren_keep fun key v _ => ?_).symm⟩
    simp
  | cons e rest ih =>
    obtain ⟨key, v⟩ := e
    have hv : (key, v) ∈ t.children := hmem _ List.mem_cons_self
    obtain ⟨hkey, hrest⟩ := List.nodup_cons.mp hkeys
    have hput := wellFormed_putChild ht (hedit _ List.mem_cons_self) key
    rw [List.map_cons, Write.sum]
    refine .bind (fun n u => n = count v ∧ u = t.putChild key (edit v)) ?_ ?_
    · intro n hn
      rw [inChild_eq x (child?_of_mem ht hv)] at hn ⊢
      obtain ⟨hcount, htree⟩ := hx _ List.mem_cons_self n hn
      exact ⟨hcount, congrArg (t.putChild key) htree⟩
    · rintro n _ ⟨rfl, rfl⟩
      have hothers := ih hput (fun e he => ?_) hrest
        (fun e he => hedit e (List.mem_cons_of_mem _ he))
        fun e he => hx e (List.mem_cons_of_mem _ he)
      · refine .bind _ hothers ?_
        rintro m _ ⟨rfl, rfl⟩
        refine .pure ⟨by simp, ?_⟩
        exact editChildren_cons ht hv hkey edit
      · have hne : e.1 ≠ key := by
          rintro rfl
          exact hkey (List.mem_map.mpr ⟨e, he, rfl⟩)
        exact mem_children_putChild ht hv (edit v) (hmem e (List.mem_cons_of_mem _ he)) hne

end Sums

end TreePath

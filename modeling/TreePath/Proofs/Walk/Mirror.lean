import Mathlib
import TreePath.Proofs.Tree.Leaves
import TreePath.Proofs.Walk.Limit

namespace TreePath

open TreeAccess Json

section Mirror

variable {t v : Json} {rest : Path}

/-- What is found at the children of a container is put together to a container like it. -/
theorem assemble_children (ht : t.WellFormed) (hkind : t.kind ≠ .leaf) (g : Json → Json) :
    assemble t.kind (t.children.map fun e => (e.1, g e.2)) =
      t.editChildren fun _ v => some (g v) := by
  cases t with
  | arr items =>
    have hitems : items.zipIdx.map (g ∘ Prod.fst) = items.map g := by
      rw [← List.map_map, List.zipIdx_map_fst]
    rw [editChildren_arr_some, ← hitems]
    simp [assemble, Json.kind, children, Function.comp_def]
  | obj fields =>
    have hascending : Fields.Ascending (fields.map fun field => (field.1, g field.2)) :=
      List.pairwise_map.mpr ht.1
    rw [editChildren_obj_some, ← Fields.ofList_ascending hascending]
    simp [assemble, Json.kind, children, Function.comp_def, ChildKey.asName]
  | null | bool | num | str => exact absurd rfl hkind

theorem value_spread {ν : Type} [TreeAccess ν] (kind : NodeKind) (children : List (ChildKey × ν))
    (visit : ν → Guarded (Resolved ν)) :
    (spread kind children visit).value =
      .value (assemble kind (children.map fun e => (e.1, (visit e.2).value.slot))) := by
  simp only [spread, Guarded.value_bind, Guarded.value_mapM, Guarded.value_pure]

variable {visit : Nat → Json → Guarded (Resolved Json)} {near : Nat → Json → Prop} {g : Json → Json}

/-- Where a visit finds the same at a leaf however deep it stands, the way down to the leaves finds
the value with that in their places. -/
theorem slot_atLeaves (hvisit : ∀ depth x, near depth x → (visit depth x).value.slot = g x)
    {left depth : Nat} (ht : t.WellFormed) (h : LeavesWithin near left depth t) :
    (atLeaves visit left depth t).value.slot =
      (t.editLeaves fun x => some (g x)).getD .null := by
  induction left generalizing depth t with
  | zero => exact h.elim
  | succ left ih =>
    rw [LeavesWithin] at h
    rw [atLeaves]
    by_cases hkind : t.kind = .leaf
    · have hleaf : TreeAccess.kind t = .leaf := hkind
      rw [if_pos hleaf] at h ⊢
      rw [hvisit _ _ h, editLeaves_leaf _ hkind]
      rfl
    · have hinner : ¬TreeAccess.kind t = .leaf := hkind
      rw [if_neg hinner] at h ⊢
      have hmap : (entries t).map (fun e =>
            (e.1, (atLeaves visit left (depth + 1) e.2).value.slot)) =
          t.children.map fun e => (e.1, (e.2.editLeaves fun x => some (g x)).getD .null) := by
        refine List.map_congr_left fun e he => ?_
        rw [ih (wellFormed_of_mem_children ht he) (h e he)]
      have hsome : ∀ x, (some (g x)).isSome = true := fun x => rfl
      rw [value_spread, hmap, editLeaves_eq_some hsome hkind]
      exact assemble_children ht hkind fun v => (v.editLeaves fun x => some (g x)).getD .null

/-- The nesting of a value says how many levels lead to its leaves. -/
theorem leavesWithin_of_nesting {left depth : Nat} (hleft : t.nesting < left)
    (hnear : ∀ depth' x, depth' ≤ depth + t.nesting + 1 → near depth' x) :
    LeavesWithin near left depth t := by
  induction left generalizing depth t with
  | zero => exact absurd hleft (Nat.not_lt_zero _)
  | succ left ih =>
    rw [LeavesWithin]
    split
    · exact hnear _ _ (by omega)
    · intro entry hentry
      have hless := nesting_lt_of_mem_children hentry
      exact ih (by omega) fun depth' x hdepth => hnear depth' x (by omega)

/-- What is found below the leaves of a value mirrors it. -/
theorem found_descendants (hv : v.WellFormed) (hrest : rest.splitOperation.2 = none) {r : Resolver}
    (hlimit : StaysWithin r.config (.tag .descendants :: rest) 0 v) :
    r.found v (.tag .descendants :: rest) =
      if v.kind = .leaf then r.found v rest
      else v.editLeaves fun x => some ((r.found x rest).getD .null) := by
  have hpath : (Path.splitOperation (.tag .descendants :: rest)).2 = none :=
    Path.splitOperation_append (p := [.tag .descendants]) rfl hrest
  rw [StaysWithin, FollowsWithin, Nat.sub_zero] at hlimit
  rw [Resolver.found_eq hpath, walk_zero, follow, Nat.sub_zero]
  obtain ⟨-, hlimit⟩ := hlimit
  split
  · next hkind =>
    have hleaf : TreeAccess.kind v = .leaf := hkind
    rw [LeavesWithin, if_pos hleaf] at hlimit
    rw [atLeaves, if_pos hleaf, Resolver.found_eq hrest, hlimit.walk_eq (Nat.zero_le _)]
  · next hkind =>
    have hinner : ¬TreeAccess.kind v = .leaf := hkind
    have hvisit : ∀ depth (x : Json), StaysWithin r.config rest depth x →
        (walk r.config rest depth x).value.slot = (r.found x rest).getD .null :=
      fun depth x hnear => hnear.slot_eq hrest
    have hslot := slot_atLeaves hvisit hv hlimit
    rw [editLeaves_eq_some (fun x => rfl) hkind] at hslot ⊢
    rw [atLeaves, if_neg hinner, value_spread] at hslot ⊢
    exact congrArg some hslot

/-- The descendants tag mirrors a value: what is found is the value with what the rest of the path
finds at each leaf in the place of the leaf, or null where it finds nothing. A leaf in its own right
hands the path on. With nothing behind the tag, a value that is nested less deep than the limit is
found as it is. -/
theorem find_descendants (r : Resolver) :
    (∀ (v : Json) (rest : Path), v.WellFormed → rest.splitOperation.2 = none →
      StaysWithin r.config (.tag .descendants :: rest) 0 v →
      let atLeaf := fun x : Json => some ((r.found x rest).getD .null)
      let o := (Resolver.find v (.path (.tag .descendants :: rest)) r).1
      (v.kind = .leaf → o = (Resolver.find v (.path rest) r).1) ∧
      (v.kind ≠ .leaf → ∃ u, o = .ok (some u) ∧ v.editLeaves atLeaf = some u ∧
        v.Mirrors u atLeaf)) ∧
    ∀ v : Json, v.WellFormed → v.nesting < r.config.maxDepth →
      (Resolver.find v (.path [.tag .descendants]) r).1 = .ok (some v) := by
  refine ⟨fun v rest hv hrest hlimit => ?_, fun v hv hdepth => ?_⟩
  · intro atLeaf o
    have ho : o = .ok (if v.kind = .leaf then r.found v rest else v.editLeaves atLeaf) :=
      congrArg Except.ok (found_descendants hv hrest hlimit)
    refine ⟨fun hleaf => ?_, fun hinner => ?_⟩
    · rw [ho, if_pos hleaf, Resolver.find_path]
    · have hsome : ∀ x, (atLeaf x).isSome = true := fun x => rfl
      obtain ⟨u, hu⟩ := Option.isSome_iff_exists.mp (isSome_editLeaves hsome v)
      exact ⟨u, by rw [ho, if_neg hinner, hu], hu, mirrors_editLeaves hsome hu⟩
  · have hlimit : StaysWithin r.config [.tag .descendants] 0 v := by
      rw [StaysWithin, FollowsWithin]
      refine ⟨Nat.zero_le _, leavesWithin_of_nesting (by omega) fun depth x hless => ?_⟩
      rw [StaysWithin, FollowsWithin]
      exact ⟨by omega, trivial⟩
    have hself : ∀ x : Json, r.found x [] = some x := by
      intro x
      rw [Resolver.found_eq rfl, walk, if_neg (Nat.not_lt_zero _), follow]
      rfl
    rw [Resolver.find_path, found_descendants hv rfl hlimit]
    simp only [hself, Option.getD_some, editLeaves_some, ite_self]

/-- The leaves that are 1 are kept, the others become null, and the empty sequence stays. A limit of
4 is just enough for a leaf in three containers. -/
theorem find_descendants_nested :
    let v : Json :=
      .obj [("a", .arr [.ofNat 1, .null]), ("b", .obj [("c", .arr []), ("d", .arr [.str "x"])])]
    let ones : Path := [.predicate [([], .value (.ofNat 1))]]
    let r : Resolver := .new { Config.default with depth := 4 }
    v.nesting = 3 ∧
    (Resolver.find v (.path (.tag .descendants :: ones)) r).1 = .ok (some
      (.obj [("a", .arr [.ofNat 1, .null]), ("b", .obj [("c", .arr []), ("d", .arr [.null])])])) ∧
    (Resolver.find v (.path [.tag .descendants]) r).1 = .ok (some v) := by
  intro v ones r
  have hv : v.WellFormed :=
    ⟨Fields.ascending_pair (by decide) _ _, ⟨trivial, trivial, trivial⟩,
      ⟨Fields.ascending_pair (by decide) _ _, trivial, ⟨trivial, trivial⟩, trivial⟩, trivial⟩
  obtain ⟨hmirror, hself⟩ := find_descendants r
  obtain ⟨u, hfind, hu, -⟩ :=
    (hmirror v ones hv rfl (.of_trips (by cbv))).2 (by simp [v, Json.kind])
  refine ⟨rfl, ?_, hself v hv (by decide)⟩
  rw [hfind, ← hu]
  cbv

end Mirror

end TreePath

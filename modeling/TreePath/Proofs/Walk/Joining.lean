import Mathlib
import TreePath.Proofs.Fields
import TreePath.Proofs.Walk.Limit
import TreePath.Tree.Cursor

namespace TreePath

open TreeAccess

variable {ν : Type} [TreeAccess ν] {config : Config} {p q rest : Path} {n m : ν} {depth : Nat}

section Limit

theorem FollowsWithin.move {s : Segment} (hs : s.isMove = true) (hrest : rest.StartsUnshifted)
    (h : FollowsWithin config (s :: rest) depth n) (hm : (move? config s n).value = some m) :
    FollowsWithin config rest depth m := by
  rcases s.eq_of_isMove hs with hconcrete | rfl | rfl | rfl
  · rcases s.eq_of_isConcrete hconcrete with ⟨name, rfl⟩ | ⟨i, rfl⟩
    · rw [FollowsWithin] at h
      exact h m hm
    · rw [followsWithin_index_unshifted hrest] at h
      exact h m hm
  · rw [FollowsWithin] at h
    exact h m hm
  · rw [FollowsWithin] at h
    obtain rfl := Option.some.inj hm
    exact h
  · rw [followsWithin_passed rfl] at h
    obtain rfl := Option.some.inj hm
    exact h

/-- Where the whole walk reaches no limit, neither does what is left of it after the moves. -/
theorem FollowsWithin.moves (hp : p.Moves) (hq : q.StartsUnshifted)
    (h : FollowsWithin config (p ++ q) depth n) (hm : (moved? config p n).value = some m) :
    FollowsWithin config q depth m := by
  induction p generalizing n with
  | nil =>
    obtain rfl := Option.some.inj hm
    exact h
  | cons s p ih =>
    rw [moved?, Guarded.value_bind] at hm
    cases hfirst : (move? config s n).value with
    | none =>
      rw [hfirst] at hm
      cases hm
    | some m' =>
      rw [hfirst] at hm
      exact ih hp.tail (h.move hp.head (hp.tail.unshifted_append hq) hfirst) hm

end Limit

section Reads

theorem Path.Moves.splitOperation (hp : p.Moves) : p.splitOperation.2 = none := by
  unfold Path.splitOperation
  split
  · next t hlast =>
    split
    · next hoperation =>
      have hmove := hp _ (List.mem_of_getLast? hlast)
      cases t <;> first | (cases hmove; done) | cases hoperation
    · rfl
  · rfl

/-- The rest of a path is read from where the moves in front of it lead to. -/
theorem found_join (hp : p.Moves) (hq : q.StartsUnshifted) (hend : q.splitOperation.2 = none)
    (r : Resolver) (n : ν) :
    r.found n (p.join q) = (moved? r.config p n).value.bind fun m => r.found m q := by
  have hjoin : (p.join q).splitOperation.2 = none :=
    Path.splitOperation_append hp.splitOperation hend
  rw [Resolver.found_eq hjoin, walk_zero, Path.join, follow_append r.config hp hq,
    Guarded.value_bind]
  cases (moved? r.config p n).value with
  | none => rfl
  | some m =>
    rw [Option.bind_some, Resolver.found_eq hend, walk_zero]

/-- What is read through a union: what is read along each of the alternatives. -/
theorem found_union {alternatives : List Path} {named : Bool}
    (hends : ∀ a ∈ alternatives, (a.join rest).splitOperation.2 = none) {r : Resolver}
    (hend : (Path.splitOperation (.union alternatives named :: rest)).2 = none)
    (hlimit : FollowsWithin r.config (.union alternatives named :: rest) 0 m) :
    let slots := alternatives.map fun a => (r.found m (a.join rest)).getD .null
    r.found m (.union alternatives named :: rest) =
      some (if named then .obj (Fields.ofList ((alternatives.map Path.toText).zip slots))
        else .arr slots) := by
  intro slots
  rw [FollowsWithin] at hlimit
  have hslots : (alternately r.config alternatives rest (0 + 1) m).value = slots := by
    rw [alternately_eq_mapM, Guarded.value_mapM]
    refine List.map_congr_left fun a ha => ?_
    exact (hlimit a ha).slot_eq (hends a ha)
  rw [Resolver.found_eq hend, walk_zero, follow, Guarded.value_bind, hslots]
  cases named <;> rfl

/-- Reads compose. Behind moves, the rest of a path is read from the node that they lead to, if they
lead to one, and nothing is found otherwise. When the rest begins with a union, and no depth limit
is reached, each alternative is read with what is behind the union: the results make a sequence with
null for what is not found, or a mapping from the texts of the alternatives, of which the last one
of a text counts. -/
theorem find_join (r : Resolver) (n : ν) (hp : p.Moves) (hq : q.StartsUnshifted)
    (hend : q.splitOperation.2 = none) :
    let o := (Resolver.find n (.path (p.join q)) r).1
    ∃ m?, (Resolver.locate n (.path p) r).1 = .ok m? ∧
      (m? = none → o = .ok none) ∧
      ∀ m, m? = some m → o = (Resolver.find m (.path q) r).1 ∧
        ∀ (alternatives : List Path) named rest, q = .union alternatives named :: rest →
          (∀ a ∈ alternatives, (a.join rest).splitOperation.2 = none) →
          StaysWithin r.config (p.join q) 0 n →
          let slot := fun a : Path => (r.found m (a.join rest)).getD .null
          if named then
            ∃ fields, o = .ok (some (.obj fields)) ∧ Fields.Ascending fields ∧
              ∀ text, Fields.find? fields text =
                (alternatives.reverse.find? fun a : Path => a.toText = text).map slot
          else o = .ok (some (.arr (alternatives.map slot))) := by
  intro o
  have ho : o = .ok ((moved? r.config p n).value.bind fun m => r.found m q) :=
    congrArg Except.ok (found_join hp hq hend r n)
  refine ⟨_, locate_moves n hp r, fun hnone => ?_, fun m hm => ?_⟩
  · rw [ho, hnone]
    rfl
  · have hrest : o = .ok (r.found m q) := by
      rw [ho, hm]
      rfl
    refine ⟨hrest, ?_⟩
    rintro alternatives named rest rfl hends hlimit slot
    rw [StaysWithin] at hlimit
    rw [found_union hends hend (hlimit.2.moves hp hq hm)] at hrest
    cases named with
    | false => exact hrest
    | true =>
      refine ⟨_, hrest, Fields.ascending_ofList _, fun text => ?_⟩
      rw [Fields.find?_ofList, List.zip_map', ← List.map_reverse, List.find?_map, Option.map_map]
      rfl

/-- From one element of a list by way of the list to another one, from which a union goes on. -/
theorem find_join_between :
    let second : Json := .obj [("x", .ofNat 2)]
    let list : Json := .arr [.obj [("x", .ofNat 1)], second]
    let n : Cursor := ⟨.obj [("x", .ofNat 1)], [(list, 0)]⟩
    let m : Cursor := ⟨second, [(list, 1)]⟩
    let p : Path := [.tag .parent, .index 1]
    let q : Path := [.union [[.key "x"], [.key "y"], [.tag .parent, .index 0, .key "x"]] false]
    let r : Resolver := .new .default
    (Resolver.locate n (.path p) r).1 = .ok (some m) ∧
    (Resolver.find n (.path (p.join q)) r).1 = (Resolver.find m (.path q) r).1 ∧
    (Resolver.find n (.path (p.join q)) r).1 =
      .ok (some (.arr [.ofNat 2, .null, .ofNat 1])) := by
  intro second list n m p q r
  have hq : q.StartsUnshifted := fun more => by simp [q]
  obtain ⟨m?, hlocate, -, hfind⟩ := find_join r n (by decide : p.Moves) hq rfl
  have hm : (Resolver.locate n (.path p) r).1 = .ok (some m) := by cbv
  obtain ⟨hrest, hunion⟩ := hfind m (Except.ok.inj (hlocate.symm.trans hm))
  refine ⟨hm, hrest, (hunion _ false [] rfl (by decide) (.of_trips (by cbv))).trans ?_⟩
  cbv

end Reads

end TreePath

import TreePath.Proofs.Walk.Limit

namespace TreePath

section Following

variable {ν : Type} [TreeAccess ν] {config : Config} {members rest : Path}

/-- The members of a tuple come to what the tuple comes to, unless they shift a position in front of
it, which the tuple does not. -/
theorem echoes_tuple (hmembers : Path.StartsUnshifted (members ++ rest)) :
    Echoes ν config (.tuple members :: rest) (members ++ rest) where
  unshifted more := by simp
  otherUnshifted := hmembers
  follow h hupper := by
    rw [FollowsWithin, StaysWithin] at h
    rw [follow, walk, if_neg (by omega)]
    exact h.2.follow_eq (by omega)

end Following

section Resolving

variable {ν : Type} [TreeAccess ν] {a members b : Path} {n : ν} {r : Resolver}

/-- The operation at the end of a path is its last segment, if that is the tag of one. -/
theorem Path.splitOperation_snd (p : Path) :
    p.splitOperation.2 = (p.getLast?.bind Segment.tag?).filter Tag.isOperation := by
  unfold splitOperation
  cases p.getLast? with
  | none => rfl
  | some s =>
    cases s with
    | tag t => cases hoperation : t.isOperation <;> simp [Segment.tag?, Option.filter, hoperation]
    | key | index | slice | predicate | union | tuple => rfl

/-- There is no operation at the end of a path with a tuple when there is none once the members
stand in its place. -/
theorem splitOperation_tuple
    (h : Path.splitOperation (a ++ (members ++ b)) = (a ++ (members ++ b), none)) :
    Path.splitOperation (a ++ .tuple members :: b) = (a ++ .tuple members :: b, none) := by
  apply Path.splitOperation_of_none
  have hnone := congrArg Prod.snd h
  rw [Path.splitOperation_snd] at hnone ⊢
  cases b with
  | nil => simp [Segment.tag?]
  | cons s b => simpa [List.getLast?_append, List.getLast?_cons] using hnone

/-- A read through a tuple is the read through its members, as long as it reaches no depth limit. -/
theorem resolve_tuple (hmembers : Path.StartsUnshifted (members ++ b))
    (hend : Path.splitOperation (a ++ (members ++ b)) = (a ++ (members ++ b), none))
    (hlimit : StaysWithin r.config (a ++ .tuple members :: b) 0 n) (operation : Operation)
    (default : Option Json) :
    Resolver.resolve n (a ++ (members ++ b)) operation default r =
      Resolver.resolve n (a ++ .tuple members :: b) operation default r := by
  have hwalk := (echoes_tuple hmembers).walk_append a hlimit (Nat.le_refl 0)
  unfold Resolver.resolve
  rw [hend, splitOperation_tuple hend]
  have hanswer : (do
      let found ← walk r.config (a ++ (members ++ b)) 0 n
      found.answer r.config operation : Guarded (Option Json)) = (do
      let found ← walk r.config (a ++ .tuple members :: b) 0 n
      found.answer r.config operation) := by
    rw [hwalk]
  exact congrArg (fun x : Guarded (Option Json) =>
    (x.value.or default, { r with stats := r.stats.countLookup.countTrips x.trips })) hanswer

end Resolving

end TreePath

import TreePath.Proofs.Walk.Concrete

namespace TreePath

open TreeAccess

/-- Segments that lead to one node at most. -/
def Segment.isMove : Segment → Bool
  | .key _ | .index _ => true
  | .tag .parent | .tag .root | .tag .current => true
  | _ => false

/-- The path only moves from node to node. -/
def Path.Moves (p : Path) : Prop := ∀ s ∈ p, s.isMove = true

instance (p : Path) : Decidable p.Moves := inferInstanceAs (Decidable (∀ s ∈ p, s.isMove = true))

theorem Path.Moves.head {s : Segment} {p : Path} (h : Moves (s :: p)) : s.isMove = true :=
  h s (by simp)

theorem Path.Moves.tail {s : Segment} {p : Path} (h : Moves (s :: p)) : Moves p :=
  fun t ht => h t (List.mem_cons_of_mem _ ht)

/-- A move goes down by a name or a position, goes up to the parent or the root, or stays. -/
theorem Segment.eq_of_isMove {s : Segment} (h : s.isMove = true) :
    s.isConcrete = true ∨ s = .tag .parent ∨ s = .tag .root ∨ s = .tag .current := by
  cases s with
  | key | index => exact .inl rfl
  | tag t =>
    cases t with
    | parent => exact .inr (.inl rfl)
    | root => exact .inr (.inr (.inl rfl))
    | current => exact .inr (.inr (.inr rfl))
    | _ => cases h
  | slice | predicate | union | tuple => cases h

theorem Path.Moves.unshifted_append {p q : Path} (hp : p.Moves) (hq : q.StartsUnshifted) :
    Path.StartsUnshifted (p ++ q) :=
  (startsUnshifted_of_forall hp rfl rfl).append hq

variable {ν : Type} [TreeAccess ν] (config : Config)

/-- The node that a move leads to. -/
def move? (s : Segment) (n : ν) : Guarded (Option ν) :=
  match s with
  | .tag .parent => return parent? n
  | .tag .root => some <$> climb config.maxDepth [] n
  | .tag _ => return some n
  | s => return hop? config.idField s n

/-- The node that a path of moves leads to. -/
def moved? (p : Path) (n : ν) : Guarded (Option ν) :=
  match p with
  | [] => return some n
  | s :: rest => do
    match ← move? config s n with
    | some m => moved? rest m
    | none => return none

/-- A walk takes a move, and goes on from where it leads to. Only a position reads on in the path,
for the tags that shift it. -/
theorem follow_move {s : Segment} (hs : s.isMove = true) {rest : Path}
    (hrest : rest.StartsUnshifted) (depth : Nat) (n : ν) :
    follow config (s :: rest) depth n = do
      match ← move? config s n with
      | some m => follow config rest depth m
      | none => return .absent := by
  rcases s.eq_of_isMove hs with hconcrete | rfl | rfl | rfl
  · rcases s.eq_of_isConcrete hconcrete with ⟨name, rfl⟩ | ⟨i, rfl⟩
    · have hmove : move? config (.key name) n = pure (lookupKey config.idField name n) := rfl
      cases hfound : lookupKey config.idField name n <;> rw [follow, hmove, hfound, pure_bind]
    · have hmove : move? config (.index i) n = pure (lookupIndex i n) := rfl
      cases hfound : lookupIndex i n <;>
        rw [follow_index_unshifted hrest, hmove, hfound, pure_bind]
  · have hmove : move? config (.tag .parent) n = pure (parent? n) := rfl
    cases hfound : parent? n <;> rw [follow, hmove, hfound, pure_bind]
  · rw [follow, move?, bind_map_left]
  · have hmove : move? config (.tag .current) n = pure (some n) := rfl
    rw [follow_passed rfl, hmove, pure_bind]

/-- A walk makes the moves in front, and goes on from where they lead to. -/
theorem follow_append {p q : Path} (hp : p.Moves) (hq : q.StartsUnshifted) (depth : Nat) (n : ν) :
    follow config (p ++ q) depth n = do
      match ← moved? config p n with
      | some m => follow config q depth m
      | none => return .absent := by
  induction p generalizing n with
  | nil => rw [List.nil_append, moved?, pure_bind]
  | cons s p ih =>
    rw [List.cons_append, follow_move config hp.head (hp.tail.unshifted_append hq), moved?,
      bind_assoc]
    congr 1
    funext m?
    cases m? with
    | none => rfl
    | some m => exact ih hp.tail m

theorem follow_moves {p : Path} (hp : p.Moves) (depth : Nat) (n : ν) :
    follow config p depth n = Resolved.ofNode? <$> moved? config p n := by
  have hend : Path.StartsUnshifted [] := fun more => by simp
  have happend := follow_append config hp hend depth n
  rw [List.append_nil] at happend
  rw [happend, map_eq_pure_bind]
  congr 1
  funext m?
  cases m? with
  | none => rfl
  | some m =>
    simp only
    rw [follow]
    rfl

theorem moved?_append (p q : Path) (n : ν) :
    moved? config (p ++ q) n = do
      match ← moved? config p n with
      | some m => moved? config q m
      | none => return none := by
  induction p generalizing n with
  | nil =>
    rw [List.nil_append, moved?, pure_bind]
  | cons s p ih =>
    rw [List.cons_append, moved?, moved?, bind_assoc]
    congr 1
    funext m?
    cases m? with
    | none => rfl
    | some m => exact ih m

/-- What is located at a path of moves is the node that they lead to. -/
theorem locate_moves (n : ν) {p : Path} (hp : p.Moves) (r : Resolver) :
    (Resolver.locate n (.path p) r).1 = .ok (moved? r.config p n).value := by
  have hwalk : (walk r.config p 0 n).value = .ofNode? (moved? r.config p n).value := by
    rw [walk_zero, follow_moves r.config hp, Guarded.value_map]
  have hlocate : (Resolver.locate n (.path p) r).1 = .ok (walk r.config p 0 n).value.node? := rfl
  rw [hlocate, hwalk]
  cases (moved? r.config p n).value <;> rfl

end TreePath

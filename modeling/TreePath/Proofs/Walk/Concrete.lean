import TreePath.Proofs.Walk.Head
import TreePath.Resolver.Basic

namespace TreePath

open TreeAccess

/-- Names and positions only. -/
def Path.IsConcrete (p : Path) : Prop := ∀ s ∈ p, s.isConcrete = true

instance (p : Path) : Decidable p.IsConcrete :=
  inferInstanceAs (Decidable (∀ s ∈ p, s.isConcrete = true))

theorem Path.IsConcrete.head {s : Segment} {p : Path} (h : IsConcrete (s :: p)) :
    s.isConcrete = true := h s (by simp)

theorem Path.IsConcrete.tail {s : Segment} {p : Path} (h : IsConcrete (s :: p)) : IsConcrete p :=
  fun t ht => h t (List.mem_cons_of_mem _ ht)

theorem Path.IsConcrete.append {p q : Path} (hp : p.IsConcrete) (hq : q.IsConcrete) :
    IsConcrete (p ++ q) := fun s hs => (List.mem_append.mp hs).elim (hp s) (hq s)

theorem Path.IsConcrete.startsUnshifted {p : Path} (h : p.IsConcrete) : p.StartsUnshifted :=
  startsUnshifted_of_forall h rfl rfl

/-- A concrete segment is a name or a position. -/
theorem Segment.eq_of_isConcrete {s : Segment} (h : s.isConcrete = true) :
    (∃ name, s = .key name) ∨ ∃ i, s = .index i := by
  cases s with
  | key name => exact .inl ⟨name, rfl⟩
  | index i => exact .inr ⟨i, rfl⟩
  | slice | predicate | tag | union | tuple => simp [isConcrete] at h

variable {ν : Type} [TreeAccess ν]

/-- The node one hop further. -/
def hop? (idField : String) (s : Segment) (n : ν) : Option ν :=
  match s with
  | .key name => lookupKey idField name n
  | .index i => lookupIndex i n
  | _ => none

/-- The node at the end of a path of names and positions. -/
def reached? (idField : String) : Path → ν → Option ν
  | [], n => some n
  | s :: rest, n => (hop? idField s n).bind (reached? idField rest)

/-- Where a walk ends that has led to a node, or to nothing. -/
def Resolved.ofNode? : Option ν → Resolved ν
  | some n => .node n
  | none => .absent

theorem follow_concrete (config : Config) {p : Path} (hp : p.IsConcrete) (depth : Nat) (n : ν) :
    follow config p depth n = pure (.ofNode? (reached? config.idField p n)) := by
  induction p generalizing n with
  | nil => rw [follow]; rfl
  | cons s p ih =>
    have hrest := ih hp.tail
    rcases Segment.eq_of_isConcrete hp.head with ⟨name, rfl⟩ | ⟨i, rfl⟩
    · rw [follow, reached?, hop?]
      cases lookupKey config.idField name n with
      | none => rfl
      | some child => exact hrest child
    · rw [follow_index_unshifted hp.tail.startsUnshifted, reached?, hop?]
      cases lookupIndex i n with
      | none => rfl
      | some child => exact hrest child

theorem splitOperation_concrete {p : Path} (hp : p.IsConcrete) : p.splitOperation = (p, none) := by
  unfold Path.splitOperation
  split
  · next t hlast =>
    have hmem := List.mem_of_getLast? hlast
    have := hp _ hmem
    simp [Segment.isConcrete] at this
  · rfl

/-- No depth limit is passed at the start of a walk. -/
theorem walk_zero (config : Config) (path : Path) (n : ν) :
    walk config path 0 n = follow config path 0 n := by
  rw [walk, if_neg (Nat.not_lt_zero _)]

/-- Reading at a path of names and positions gives the value of the node that it leads to. -/
theorem find_concrete (n : ν) {p : Path} (hp : p.IsConcrete) (r : Resolver) :
    (Resolver.find n (.path p) r).1 = .ok ((reached? r.config.idField p n).map toJson) := by
  have hfollow := follow_concrete r.config hp 0 n
  have hanswer : (Resolver.resolve n p .fetch none r).1 =
      (reached? r.config.idField p n).map toJson := by
    unfold Resolver.resolve
    rw [splitOperation_concrete hp]
    change Option.or ((do
      let found ← walk r.config p 0 n
      found.answer r.config .fetch) : Guarded (Option Json)).value none = _
    rw [walk_zero, hfollow]
    cases reached? r.config.idField p n <;> rfl
  rw [← hanswer]
  rfl

end TreePath

import TreePath.Proofs.Walk.Ascent
import TreePath.Tree.Cursor

namespace TreePath

open TreeAccess

section Results

variable {ν : Type}

/-- The walk has put no value together: it has ended at a node, or nowhere. -/
def Resolved.Unassembled (x : Resolved ν) : Prop := ∀ v, x ≠ .value v

namespace Resolved

theorem unassembled_absent : (absent : Resolved ν).Unassembled := nofun

theorem unassembled_node (n : ν) : (node n).Unassembled := nofun

theorem Unassembled.eq_ofNode? {x : Resolved ν} (h : x.Unassembled) : x = .ofNode? x.node? := by
  cases x with
  | absent | node => rfl
  | value v => exact absurd rfl (h v)

end Resolved

end Results

section Paths

/-- None of the segments fans out. -/
def Path.IsSingle (p : Path) : Prop := ∀ s ∈ p, s.isFanOut = false

theorem Path.isSingle_iff {p : Path} : p.IsSingle ↔ p.isGenerator = false := by
  simp [IsSingle, isGenerator]

theorem Path.IsSingle.head {s : Segment} {p : Path} (h : IsSingle (s :: p)) : s.isFanOut = false :=
  h s List.mem_cons_self

theorem Path.IsSingle.tail {s : Segment} {p : Path} (h : IsSingle (s :: p)) : IsSingle p :=
  fun t ht => h t (List.mem_cons_of_mem s ht)

theorem Path.IsSingle.shifted {i : Int64} {t : Tag} {rest : Path}
    (h : IsSingle (.index i :: .tag t :: rest)) (j : Int64) : IsSingle (.index j :: rest) :=
  List.forall_mem_cons.mpr ⟨rfl, h.tail.tail⟩

theorem Segment.anyFanOut_eq_any (members : List Segment) :
    anyFanOut members = members.any isFanOut := by
  induction members with
  | nil => rfl
  | cons s rest ih => rw [anyFanOut, List.any_cons, ih]

/-- The members of a tuple that does not fan out may stand in its place. -/
theorem Path.IsSingle.inlined {members rest : Path} (h : IsSingle (.tuple members :: rest)) :
    IsSingle (members ++ rest) := by
  have hmembers : members.any Segment.isFanOut = false := by
    rw [← Segment.anyFanOut_eq_any, ← Segment.isFanOut, h.head]
  intro s hs
  rcases List.mem_append.mp hs with hs | hs
  · exact eq_false_of_ne_true fun hfan =>
      absurd (List.any_eq_true.mpr ⟨s, hs, hfan⟩) (ne_true_of_eq_false hmembers)
  · exact h.tail s hs

end Paths

section Walks

variable {ν : Type} [TreeAccess ν]

/-- The walk up to the closest node at which something is found ends as the visit there does. -/
theorem closest_unassembled {visit : ν → Guarded (Resolved ν)}
    (hvisit : ∀ m, (visit m).value.Unassembled) (left : Nat) (seen : List Identity) (n : ν) :
    (closest visit left seen n).value.Unassembled := by
  induction left generalizing seen n with
  | zero =>
    rw [closest_zero]
    exact Resolved.unassembled_absent
  | succ left ih =>
    by_cases hback : Recognized seen n 0
    · rw [closest_recognized hback]
      exact Resolved.unassembled_absent
    by_cases hpassed : PassedOver visit n 0
    · rw [value_closest_passed hback hpassed]
      cases parent? n with
      | none => exact Resolved.unassembled_absent
      | some p => exact ih (see seen n) p
    · obtain ⟨hkind, hfound⟩ : kind n ≠ .sequence ∧ (visit n).value ≠ .absent := by
        simpa [PassedOver, above?] using hpassed
      rw [value_closest_found hback hkind hfound]
      exact hvisit n

variable (config : Config)

mutual

theorem walk_unassembled (path : Path) (hpath : path.IsSingle) (depth : Nat) (n : ν) :
    (walk config path depth n).value.Unassembled := by
  rw [walk]
  split
  · exact Resolved.unassembled_absent
  · exact follow_unassembled path hpath depth n
termination_by (pathWeight path, 1)

/-- One case for each kind of segment at the head of the path. -/
theorem follow_unassembled (path : Path) (hpath : path.IsSingle) (depth : Nat) (n : ν) :
    (follow config path depth n).value.Unassembled := by
  match path with
  | [] =>
    rw [follow]
    exact Resolved.unassembled_node n
  | .key name :: rest =>
    rw [follow]
    cases lookupKey config.idField name n with
    | none => exact Resolved.unassembled_absent
    | some child => exact follow_unassembled rest hpath.tail depth child
  | .index i :: rest =>
    rcases Path.shifted_or rest with ⟨tag, step, more, htag, rfl⟩ | hunshifted
    · rw [follow_index_shifted htag]
      cases shift? i step with
      | none => exact Resolved.unassembled_absent
      | some j => exact follow_unassembled (.index j :: more) (hpath.shifted j) depth n
    · rw [follow_index_unshifted hunshifted]
      cases lookupIndex i n with
      | none => exact Resolved.unassembled_absent
      | some child => exact follow_unassembled rest hpath.tail depth child
  | .tag tag :: rest =>
    cases tag using Tag.walk_cases with
    | parent =>
      rw [follow]
      cases parent? n with
      | none => exact Resolved.unassembled_absent
      | some p => exact follow_unassembled rest hpath.tail depth p
    | root =>
      rw [follow]
      exact follow_unassembled rest hpath.tail depth _
    | ancestors =>
      rw [follow]
      exact closest_unassembled (fun m => walk_unassembled rest hpath.tail (depth + 1) m) _ _ _
    | children | descendants | siblings => cases hpath.head
    | passed tag htag =>
      rw [follow_passed htag]
      exact follow_unassembled rest hpath.tail depth n
  | .tuple members :: rest =>
    rw [follow]
    exact walk_unassembled (members ++ rest) hpath.inlined (depth + 1) n
  | .slice _ :: _ | .predicate _ :: _ | .union _ _ :: _ =>
    exact absurd hpath.head (by simp [Segment.isFanOut])
termination_by (pathWeight path, 0)

end

end Walks

section Reads

variable {ν : Type} [TreeAccess ν]

/-- Along a path that does not fan out, from any node of any kind of tree, a read finds something
exactly where there is a node to be located, and then the value of that node; and no walk that goes
along the path, from whichever node and however deep, puts a value together. -/
theorem find_located (r : Resolver) (n : ν) {path : Path} (hpath : path.isGenerator = false)
    (hend : path.splitOperation.2 = none) :
    (∃ found : Option ν, (Resolver.reach n path r).1 = .ofNode? found ∧
      (Resolver.locate n (.path path) r).1 = .ok found ∧
      (Resolver.find n (.path path) r).1 = .ok (found.map toJson)) ∧
    ∀ (m : ν) (depth : Nat) (v : Json), (walk r.config path depth m).value ≠ .value v := by
  have hsingle := Path.isSingle_iff.mpr hpath
  have hnode := (walk_unassembled r.config path hsingle 0 n).eq_ofNode?
  refine ⟨⟨(walk r.config path 0 n).value.node?, hnode, rfl, ?_⟩,
    fun m depth => walk_unassembled r.config path hsingle depth m⟩
  change Except.ok (Resolver.resolve n path .fetch none r).1 = _
  rw [Resolver.resolve_run hend]
  change Except.ok ((walk r.config path 0 n).value.toJson?.or none) = _
  rw [Option.or_none, hnode]
  cases (walk r.config path 0 n).value.node? <;> rfl

/-- An operation that is passed over, a tuple, a walk up from a sequence to the mapping above it, and
a position that is shifted to and fro. -/
theorem find_located_nested :
    let v : Json := .obj [("a", .obj [("b", .arr [.ofNat 1, .ofNat 2])])]
    let path : Path := [.tag .count, .tuple [.key "a", .key "b"], .tag .ancestors, .key "b",
      .index 0, .tag .prev, .tag .next, .tag .next]
    let r : Resolver := .new .default
    path.isGenerator = false ∧ path.splitOperation.2 = none ∧
      (∃ found, (Resolver.reach (Cursor.top v) path r).1 = .ofNode? (some found) ∧
        (Resolver.locate (Cursor.top v) (.path path) r).1 = .ok (some found) ∧
        (Resolver.find (Cursor.top v) (.path path) r).1 = .ok (some (.ofNat 2))) ∧
      ∀ (m : Cursor) (depth : Nat) (w : Json), (walk r.config path depth m).value ≠ .value w := by
  intro v path r
  obtain ⟨⟨found, hreach, hlocate, hfind⟩, hwalks⟩ :=
    @find_located Cursor _ r (Cursor.top v) path rfl rfl
  have hvalue : (Resolver.find (Cursor.top v) (.path path) r).1 = .ok (some (.ofNat 2)) := by cbv
  obtain ⟨m, rfl, -⟩ := Option.map_eq_some_iff.mp (Except.ok.inj (hfind.symm.trans hvalue))
  exact ⟨rfl, rfl, ⟨m, hreach, hlocate, hvalue⟩, hwalks⟩

end Reads

end TreePath

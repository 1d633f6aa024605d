import TreePath.Proofs.Walk.Tuples
import TreePath.Proofs.Write.Untripped

namespace TreePath

namespace Path

/-- Names and positions, and tuples of them, none of which is empty. -/
inductive IsGrouped : Path → Prop where
  | nil : IsGrouped []
  | concrete {s : Segment} {p : Path} (hs : s.isConcrete = true) (hp : IsGrouped p) :
      IsGrouped (s :: p)
  | tuple {members p : Path} (hnonempty : members ≠ []) (hmembers : IsGrouped members)
      (hp : IsGrouped p) : IsGrouped (.tuple members :: p)

theorem IsGrouped.append {p q : Path} (hp : p.IsGrouped) (hq : q.IsGrouped) :
    IsGrouped (p ++ q) := by
  induction hp with
  | nil => exact hq
  | concrete hs _ ih => exact .concrete hs ih
  | tuple hnonempty hmembers _ _ ih => exact .tuple hnonempty hmembers ih

/-- Nothing in the path is resolved or refused before it is written to. -/
theorem IsGrouped.kept {p : Path} (hp : p.IsGrouped) :
    ∀ s ∈ p, (∀ done, absoluteStep done s = s :: done) ∧ unwritableIn? s = none := by
  induction hp with
  | nil => exact fun s hs => absurd hs List.not_mem_nil
  | concrete hs _ ih =>
    exact List.forall_mem_cons.mpr
      ⟨Segment.kept_of_selectsChildren (Segment.selectsChildren_of_isConcrete hs), ih⟩
  | tuple _ _ _ hmembers ih =>
    refine List.forall_mem_cons.mpr ⟨⟨fun done => rfl, ?_⟩, ih⟩
    rw [unwritableIn?]
    exact unwritable?_eq_none.mpr fun s hs => (hmembers s hs).2

theorem IsGrouped.write_eq {τ : Type} [TreeUpdate τ] {p : Path} (hp : p.IsGrouped)
    (config : Config) (patch : Patch) :
    (write config p patch : Write τ Nat) = writeAt config patch [] p 0 :=
  write_of_kept hp.kept config patch

/-- The second path is the first one with the members of some of its tuples in their places. -/
inductive Inlined : Path → Path → Prop where
  | nil : Inlined [] []
  | keep (s : Segment) {p q : Path} (h : Inlined p q) : Inlined (s :: p) (s :: q)
  | members {members p q : Path} (h : Inlined (members ++ p) q) : Inlined (.tuple members :: p) q

namespace Inlined

variable {p q : Path}

theorem refl (p : Path) : Inlined p p := by
  induction p with
  | nil => exact .nil
  | cons s p ih => exact .keep s ih

theorem append (a : Path) (h : Inlined p q) : Inlined (a ++ p) (a ++ q) := by
  induction a with
  | nil => exact h
  | cons s a ih => exact .keep s ih

/-- What is left of a grouped path is grouped, and a write starts in the same kind of container. -/
theorem grouped (h : Inlined p q) (hp : p.IsGrouped) :
    q.IsGrouped ∧ q.head?.map Segment.container = p.head?.map Segment.container := by
  induction h with
  | nil => exact ⟨.nil, rfl⟩
  | keep s _ ih =>
    cases hp with
    | concrete hs hp => exact ⟨.concrete hs (ih hp).1, rfl⟩
    | tuple hnonempty hmembers hp => exact ⟨.tuple hnonempty hmembers (ih hp).1, rfl⟩
  | members _ ih =>
    cases hp with
    | concrete hs _ => cases hs
    | tuple hnonempty hmembers hp =>
      obtain ⟨hq, hhead⟩ := ih (hmembers.append hp)
      obtain ⟨first, more, rfl⟩ := List.exists_cons_of_ne_nil hnonempty
      exact ⟨hq, hhead⟩

end Inlined

end Path

mutual

/-- The segment, or the members of the tuple, and of the tuples among them. -/
def Segment.flattened : Segment → Path
  | .tuple members => flattenedSegments members
  | s => [s]

def flattenedSegments : List Segment → Path
  | [] => []
  | s :: rest => s.flattened ++ flattenedSegments rest

end

namespace Path

/-- The path without any tuples: their members stand in their places. -/
def flattened (p : Path) : Path := flattenedSegments p

theorem flattened_append (p q : Path) : flattened (p ++ q) = p.flattened ++ q.flattened := by
  induction p with
  | nil => rfl
  | cons s p ih =>
    have hcons : ∀ rest, flattened (s :: rest) = s.flattened ++ flattened rest := fun rest => by
      rw [flattened, flattenedSegments]
      rfl
    rw [List.cons_append, hcons, hcons, ih, List.append_assoc]

theorem inlined_flattened (p : Path) : Inlined p p.flattened := by
  match p with
  | [] =>
    rw [flattened, flattenedSegments]
    exact .nil
  | .tuple members :: rest =>
    refine .members ?_
    have hthere := inlined_flattened (members ++ rest)
    rw [flattened_append] at hthere
    rwa [flattened, flattenedSegments, Segment.flattened]
  | .key _ :: rest | .index _ :: rest | .slice _ :: rest | .predicate _ :: rest | .tag _ :: rest
  | .union _ _ :: rest =>
    rw [flattened, flattenedSegments, Segment.flattened]
    · exact .keep _ (inlined_flattened rest)
    all_goals simp
termination_by pathWeight p

end Path

section Writing

variable {τ : Type} [TreeUpdate τ] [VisitsChildren τ] (config : Config) (patch : Patch)

/-- What is written through tuples without tripping a guard is written alike to their members in
their places, which are less deep. -/
theorem writeAt_inlined {p q : Path} (hp : p.IsGrouped) (h : p.Inlined q) (done other : Path)
    {depth upper : Nat} (hupper : upper ≤ depth) :
    (writeAt config patch done p depth : Write τ Nat).EchoedBy
      (writeAt config patch other q upper) := by
  match p, q, hp, h with
  | _, _, _, .nil => exact writeAt_upward config patch done other [] hupper
  | s :: p, _ :: q, .concrete hs hp, .keep _ h =>
    rw [writeAt, writeAt]
    split
    · exact .trip 0 _
    · rw [if_neg (by omega), writeOn_concrete config patch done hs,
        writeOn_concrete config patch other hs]
      exact writeBelow_echoed config patch done other s (h.grouped hp).2 hupper fun _ =>
        writeAt_inlined hp h _ _ (by omega)
  | .tuple members :: p, _ :: q, .tuple _ hmembers hp, .keep _ h =>
    rw [writeAt, writeAt]
    split
    · exact .trip 0 _
    · rw [if_neg (by omega), writeOn, writeOn]
      exact writeAt_inlined (hmembers.append hp) (h.append members) [] [] (by omega)
  | .tuple members :: p, q, .tuple _ hmembers hp, .members h =>
    rw [writeAt]
    split
    · exact .trip 0 _
    · rw [writeOn]
      exact writeAt_inlined (hmembers.append hp) h [] other (by omega)
termination_by pathWeight p
decreasing_by
  · have hpositive := s.weight_pos
    simp only [pathWeight]
    omega
  all_goals
    simp only [pathWeight, pathWeight_append, Segment.weight]
    omega

end Writing

section Resolving

/-- A write through tuples that reaches no limit leaves a resolver the tree, the answer and the
counters that the write through their members leaves. -/
theorem writePath_inlined {τ : Type} [TreeUpdate τ] [VisitsChildren τ] {p q : Path}
    (hp : p.IsGrouped) (h : p.Inlined q) (t : τ) (patch : Patch) (r : Resolver)
    (hlimit : (write r.config p patch t).trips = 0) :
    let through := Resolver.writePath t p patch r
    let along := Resolver.writePath t q patch r
    along.1.1.toOption = through.1.1.toOption ∧ along.1.2 = through.1.2 ∧ along.2 = through.2 := by
  have hechoed : (write r.config p patch : Write τ Nat).EchoedBy (write r.config q patch) := by
    rw [hp.write_eq, (h.grouped hp).1.write_eq]
    exact writeAt_inlined r.config patch hp h [] [] (Nat.le_refl 0)
  obtain ⟨htrips, htree, hresult⟩ := hechoed t hlimit
  refine ⟨hresult, htree, ?_⟩
  exact congrArg (fun trips => { r with stats := r.stats.countWrite.countTrips trips })
    (htrips.trans hlimit.symm)

/-- A tuple acts as its members do in its place, wherever no depth limit is reached. A read through
it is the read through them, whatever stands in front of it, in it and behind it, unless they shift
a position in front of it or end in an operation. A write through tuples of names and positions is
the write through its members, and the one through the members of all of them: it leaves the same
tree, count and counters, and fails when the other one fails. -/
theorem tuple_acts_as_members (a members b : Path) (r : Resolver) :
    (∀ {ν : Type} [TreeAccess ν] (n : ν), Path.StartsUnshifted (members ++ b) →
      Path.splitOperation (a ++ (members ++ b)) = (a ++ (members ++ b), none) →
      StaysWithin r.config (a ++ .tuple members :: b) 0 n →
      ∀ (operation : Operation) (default : Option Json),
        Resolver.resolve n (a ++ (members ++ b)) operation default r =
          Resolver.resolve n (a ++ .tuple members :: b) operation default r) ∧
    ∀ {τ : Type} [TreeUpdate τ] [VisitsChildren τ] (t : τ) (patch : Patch),
      a.IsGrouped → members ≠ [] → members.IsGrouped → b.IsGrouped →
      (write r.config (a ++ .tuple members :: b) patch t).trips = 0 →
      ∀ q ∈ [a ++ (members ++ b), Path.flattened (a ++ .tuple members :: b)],
        let through := Resolver.writePath t (a ++ .tuple members :: b) patch r
        let along := Resolver.writePath t q patch r
        along.1.1.toOption = through.1.1.toOption ∧ along.1.2 = through.1.2 ∧
          along.2 = through.2 := by
  refine ⟨fun n hmembers hend hlimit => resolve_tuple hmembers hend hlimit, ?_⟩
  intro τ _ _ t patch ha hnonempty hmembers hb hlimit q hq
  have hpath : Path.IsGrouped (a ++ .tuple members :: b) :=
    ha.append (.tuple hnonempty hmembers hb)
  have hinlined : Path.Inlined (a ++ .tuple members :: b) q := by
    rcases List.mem_pair.mp hq with rfl | rfl
    · exact .append a (.members (.refl _))
    · exact Path.inlined_flattened _
  exact writePath_inlined hpath hinlined t patch r hlimit

theorem tuple_acts_as_members_nested :
    let r : Resolver := .new .default
    let n : Json := .obj [("a", .arr [.obj [("b", .bool true)], .null])]
    let a : Path := [.key "a"]
    let fanned : Path := [.tag .children, .key "b"]
    let nested : Path := [.tuple [.index 0], .key "b"]
    let b : Path := [.key "c"]
    let patch : Patch := .overwrite (.bool true)
    let through := Resolver.writePath (Json.obj []) (a ++ .tuple nested :: b) patch r
    (∀ (operation : Operation) (default : Option Json),
      Resolver.resolve n (a ++ (fanned ++ [])) operation default r =
        Resolver.resolve n (a ++ .tuple fanned :: []) operation default r) ∧
    through.1 =
      (.ok 1, .obj [("a", .arr [.obj [("b", .obj [("c", .bool true)])]])]) ∧
    ∀ q ∈ [a ++ (nested ++ b), [.key "a", .index 0, .key "b", .key "c"]],
      let along := Resolver.writePath (Json.obj []) q patch r
      along.1.1.toOption = through.1.1.toOption ∧ along.1.2 = through.1.2 ∧
        along.2 = through.2 := by
  intro r n a fanned nested b patch through
  have hfanned : Path.StartsUnshifted (fanned ++ []) := fun more => by simp [fanned]
  have hlimit : StaysWithin r.config (a ++ .tuple fanned :: []) 0 n := .of_trips (by cbv)
  have ha : a.IsGrouped := .concrete rfl .nil
  have hb : b.IsGrouped := .concrete rfl .nil
  have hnested : nested.IsGrouped :=
    .tuple (List.cons_ne_nil _ _) (.concrete rfl .nil) (.concrete rfl .nil)
  exact ⟨(tuple_acts_as_members a fanned [] r).1 n hfanned rfl hlimit, by cbv,
    (tuple_acts_as_members a nested b r).2 (Json.obj []) patch ha (List.cons_ne_nil _ _) hnested hb
      (by cbv)⟩

end Resolving

end TreePath

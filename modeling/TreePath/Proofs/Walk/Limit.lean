import TreePath.Proofs.Walk.Fuel
import TreePath.Proofs.Walk.Moves

namespace TreePath

open TreeAccess

section Loops

variable {ν : Type} [TreeAccess ν]

/-- All leaves below a node stand within the levels that are left, and `near` holds at each of them,
one level below it. -/
def LeavesWithin (near : (depth : Nat) → ν → Prop) : (left depth : Nat) → ν → Prop
  | 0, _, _ => False
  | left + 1, depth, n =>
    if kind n = .leaf then near (depth + 1) n
    else ∀ entry ∈ entries n, LeavesWithin near left (depth + 1) entry.2

/-- The way up ends within the levels that are left: at a node for which the visit finds something,
at the top, or where it leads in a circle. `near` holds at all nodes that are visited. -/
def ClosestWithin (visit : ν → Guarded (Resolved ν)) (near : ν → Prop) :
    (left : Nat) → (seen : List Identity) → ν → Prop
  | 0, seen, n => isRevisited seen n = true
  | left + 1, seen, n =>
    isRevisited seen n = false →
      (kind n ≠ .sequence → near n) ∧
      ((kind n ≠ .sequence → (visit n).value = .absent) →
        ∀ p, parent? n = some p → ClosestWithin visit near left (see seen n) p)

end Loops

mutual

/-- No walk that is part of following the path is deeper than the limit. Queries are walks of their
own. -/
def StaysWithin {ν : Type} [TreeAccess ν] (config : Config) (path : Path) (depth : Nat) (n : ν) :
    Prop :=
  depth ≤ config.maxDepth ∧ FollowsWithin config path depth n
termination_by (pathWeight path, 1)

/-- No walk that is part of following the path within the limit is deeper. -/
def FollowsWithin {ν : Type} [TreeAccess ν] (config : Config) (path : Path) (depth : Nat) (n : ν) :
    Prop :=
  match path with
  | [] => True
  | .key name :: rest =>
    ∀ child, lookupKey config.idField name n = some child → FollowsWithin config rest depth child
  | .index i :: .tag .next :: rest =>
    ∀ j, shift? i 1 = some j → FollowsWithin config (.index j :: rest) depth n
  | .index i :: .tag .prev :: rest =>
    ∀ j, shift? i (-1) = some j → FollowsWithin config (.index j :: rest) depth n
  | .index i :: rest =>
    ∀ child, lookupIndex i n = some child → FollowsWithin config rest depth child
  | .slice s :: rest =>
    kind n = .sequence → ∀ i ∈ s.indices (size n), ∀ child, child? n (.index i) = some child →
      StaysWithin config rest depth child
  | .predicate query :: rest =>
    if kind n = .leaf then (meets config query n).value = true → StaysWithin config rest depth n
    else ∀ entry ∈ entries n, (meets config query entry.2).value = true →
      StaysWithin config rest depth entry.2
  | .tag .parent :: rest => ∀ p, parent? n = some p → FollowsWithin config rest depth p
  | .tag .root :: rest => FollowsWithin config rest depth (climb config.maxDepth [] n).value
  | .tag .children :: rest =>
    kind n ≠ .leaf → ∀ entry ∈ entries n, StaysWithin config rest depth entry.2
  | .tag .descendants :: rest =>
    LeavesWithin (fun depth leaf => StaysWithin config rest depth leaf)
      (config.maxDepth + 1 - depth) depth n
  | .tag .ancestors :: rest =>
    ClosestWithin (fun above => walk config rest (depth + 1) above)
      (fun above => StaysWithin config rest (depth + 1) above) (config.maxDepth + 1 - depth) [] n
  | .tag .siblings :: rest =>
    ∀ p, parent? n = some p → kind p ≠ .leaf →
      ∀ entry ∈ siblings n p, StaysWithin config rest depth entry.2
  | .tag _ :: rest => FollowsWithin config rest depth n
  | .union alternatives _ :: rest =>
    ∀ path ∈ alternatives, StaysWithin config (path ++ rest) (depth + 1) n
  | .tuple members :: rest => StaysWithin config (members ++ rest) (depth + 1) n
termination_by (pathWeight path, 0)
decreasing_by
  all_goals try decreasing_tactic
  -- one of the alternatives weighs less than all of them
  rename_i path hpath
  have hless : pathWeight path < pathsWeight alternatives := pathWeight_lt_of_mem hpath
  exact Prod.Lex.left _ _ (by simp; omega)

end

section Head

variable {ν : Type} [TreeAccess ν] {config : Config} {i : Int64} {rest : Path} {depth : Nat} {n : ν}

theorem followsWithin_index_shifted {t : Tag} {step : Int} (ht : t.stride? = some step) :
    FollowsWithin config (.index i :: .tag t :: rest) depth n ↔
      ∀ j, shift? i step = some j → FollowsWithin config (.index j :: rest) depth n := by
  rcases t.eq_of_stride? ht with ⟨rfl, rfl⟩ | ⟨rfl, rfl⟩
  all_goals rw [FollowsWithin]

theorem followsWithin_index_unshifted (hrest : rest.StartsUnshifted) :
    FollowsWithin config (.index i :: rest) depth n ↔
      ∀ child, lookupIndex i n = some child → FollowsWithin config rest depth child := by
  rw [FollowsWithin]
  · exact fun more => (hrest more).1
  · exact fun more => (hrest more).2

theorem followsWithin_passed {t : Tag} (ht : t.isPassed = true) :
    FollowsWithin config (.tag t :: rest) depth n ↔ FollowsWithin config rest depth n := by
  rw [FollowsWithin]
  all_goals
    rintro rfl
    cases ht

end Head

section Loops

variable {ν : Type} [TreeAccess ν]

/-- What goes on from a walk only goes on from the value that it has come to. -/
theorem Guarded.bind_congr {α β : Type} {x : Guarded α} {f g : α → Guarded β}
    (h : f x.value = g x.value) : x >>= f = x >>= g :=
  eq_of (by rw [value_bind, value_bind, h]) (by rw [trips_bind, trips_bind, h])

theorem Guarded.mapM_congr {α β : Type} {f g : α → Guarded β} {xs : List α}
    (h : ∀ x ∈ xs, f x = g x) : xs.mapM f = xs.mapM g := by
  induction xs with
  | nil => rfl
  | cons x rest ih =>
    rw [List.mapM_cons, List.mapM_cons, h x List.mem_cons_self,
      ih fun y hy => h y (List.mem_cons_of_mem _ hy)]

/-- The children that a predicate goes on at are those at which its query holds. -/
theorem mem_marked {config : Config} {query : Query} {children : List (ChildKey × ν)}
    {entry : ChildKey × ν} :
    entry ∈ ((children.mapM fun entry => do
        return (entry, ← meets config query entry.2) : Guarded _).value.filter (·.2)).map (·.1) ↔
      entry ∈ children ∧ (meets config query entry.2).value = true := by
  rw [Guarded.value_mapM, List.mem_map]
  constructor
  · rintro ⟨_, hmarked, rfl⟩
    obtain ⟨hmem, hmeets⟩ := List.mem_filter.mp hmarked
    obtain ⟨entry, hentry, rfl⟩ := List.mem_map.mp hmem
    exact ⟨hentry, hmeets⟩
  · rintro ⟨hentry, hmeets⟩
    exact ⟨(entry, true), List.mem_filter.mpr
      ⟨List.mem_map.mpr ⟨entry, hentry, Prod.ext rfl hmeets⟩, rfl⟩, rfl⟩

/-- Visits that come to the same at each of the children are put together alike. -/
theorem spread_congr (kind : NodeKind) {children : List (ChildKey × ν)}
    {visit other : ν → Guarded (Resolved ν)}
    (h : ∀ entry ∈ children, visit entry.2 = other entry.2) :
    spread kind children visit = spread kind children other := by
  have hmap := Guarded.mapM_congr (f := fun entry : ChildKey × ν => do
    return (entry.1, (← visit entry.2).slot)) (g := fun entry => do
    return (entry.1, (← other entry.2).slot)) fun entry hentry => by rw [h entry hentry]
  exact congrArg (fun x => do return Resolved.value (assemble kind (← x))) hmap

theorem atLeaves_eq {visit other : Nat → ν → Guarded (Resolved ν)} {near : Nat → ν → Prop}
    {left more depth upper : Nat} {n : ν} (h : LeavesWithin near left depth n)
    (hvisit : ∀ {depth upper n}, near depth n → upper ≤ depth → visit upper n = other depth n)
    (hleft : left ≤ more) (hupper : upper ≤ depth) :
    atLeaves visit more upper n = atLeaves other left depth n := by
  induction left generalizing more depth upper n with
  | zero => exact h.elim
  | succ left ih =>
    obtain ⟨more, rfl⟩ : ∃ k, more = k + 1 := ⟨more - 1, by omega⟩
    rw [LeavesWithin] at h
    rw [atLeaves, atLeaves]
    split
    · next hleaf =>
      rw [if_pos hleaf] at h
      exact hvisit h (by omega)
    · next hinner =>
      rw [if_neg hinner] at h
      exact spread_congr _ fun entry hentry => ih (h entry hentry) (by omega) (by omega)

theorem closest_eq {visit other : ν → Guarded (Resolved ν)} {near : ν → Prop}
    (hvisit : ∀ {n}, near n → visit n = other n) {left more : Nat} (hleft : left ≤ more)
    {seen : List Identity} {n : ν} (h : ClosestWithin other near left seen n) :
    closest visit more seen n = closest other left seen n := by
  induction left generalizing more seen n with
  | zero =>
    rw [ClosestWithin] at h
    unfold closest
    rw [if_pos h, if_pos h]
  | succ left ih =>
    obtain ⟨more, rfl⟩ : ∃ k, more = k + 1 := ⟨more - 1, by omega⟩
    rw [ClosestWithin] at h
    rw [closest, closest]
    split
    · rfl
    · next hnew =>
      obtain ⟨hnear, habove⟩ := h (Bool.eq_false_iff.mpr hnew)
      have hpast : (kind n ≠ .sequence → (other n).value = .absent) → ∀ p, parent? n = some p →
          closest visit more (see seen n) p = closest other left (see seen n) p :=
        fun habsent p hp => ih (by omega) (habove habsent p hp)
      simp only
      split
      · next hkind =>
        rw [pure_bind, pure_bind]
        cases hp : parent? n with
        | none => rfl
        | some p => exact hpast (fun hother => absurd hkind hother) p hp
      · next hkind =>
        rw [hvisit (hnear hkind)]
        refine Guarded.bind_congr ?_
        split
        · next habsent =>
          cases hp : parent? n with
          | none => rfl
          | some p => exact hpast (fun _ => habsent) p hp
        · rfl

end Loops

/-- Where following `p` reaches no limit, `q` comes to the same from any lesser depth. Neither of
the two shifts a position in front of it. -/
structure Echoes (ν : Type) [TreeAccess ν] (config : Config) (p q : Path) : Prop where
  unshifted : p.StartsUnshifted
  otherUnshifted : q.StartsUnshifted
  follow {depth upper : Nat} {n : ν} (h : FollowsWithin config p depth n) (hupper : upper ≤ depth) :
    follow config q upper n = follow config p depth n

theorem Echoes.nil {ν : Type} [TreeAccess ν] (config : Config) : Echoes ν config [] [] where
  unshifted more := by simp
  otherUnshifted more := by simp
  follow _ _ := by rw [TreePath.follow, TreePath.follow]

mutual

/-- Behind any front `a`, a path that comes to the same as another one does so as well. -/
theorem Echoes.walk_append {ν : Type} [TreeAccess ν] {config : Config} {p q : Path}
    (he : Echoes ν config p q) (a : Path) {depth upper : Nat} {n : ν}
    (h : StaysWithin config (a ++ p) depth n) (hupper : upper ≤ depth) :
    walk config (a ++ q) upper n = walk config (a ++ p) depth n := by
  rw [StaysWithin] at h
  rw [walk, walk, if_neg (by omega), if_neg (by omega)]
  exact he.follow_append a h.2 hupper
termination_by (pathWeight a, 1)

/-- One case for each kind of segment at the head of the front. -/
theorem Echoes.follow_append {ν : Type} [TreeAccess ν] {config : Config} {p q : Path}
    (he : Echoes ν config p q) (a : Path) {depth upper : Nat} {n : ν}
    (h : FollowsWithin config (a ++ p) depth n) (hupper : upper ≤ depth) :
    TreePath.follow config (a ++ q) upper n = TreePath.follow config (a ++ p) depth n := by
  match a with
  | [] => exact he.follow h hupper
  | .key name :: rest =>
    rw [List.cons_append, FollowsWithin] at h
    rw [List.cons_append, List.cons_append, TreePath.follow, TreePath.follow]
    cases hchild : lookupKey config.idField name n with
    | none => rfl
    | some child => exact he.follow_append rest (h child hchild) hupper
  | .index i :: rest =>
    rcases Path.shifted_or rest with ⟨tag, step, more, htag, rfl⟩ | hrest
    · simp only [List.cons_append] at h ⊢
      rw [followsWithin_index_shifted htag] at h
      rw [follow_index_shifted htag, follow_index_shifted htag]
      cases hj : shift? i step with
      | none => rfl
      | some j => exact he.follow_append (.index j :: more) (h j hj) hupper
    · rw [List.cons_append, followsWithin_index_unshifted (hrest.append he.unshifted)] at h
      rw [List.cons_append, List.cons_append,
        follow_index_unshifted (hrest.append he.otherUnshifted),
        follow_index_unshifted (hrest.append he.unshifted)]
      cases hchild : lookupIndex i n with
      | none => rfl
      | some child => exact he.follow_append rest (h child hchild) hupper
  | .slice s :: rest =>
    rw [List.cons_append, FollowsWithin] at h
    rw [List.cons_append, List.cons_append, TreePath.follow, TreePath.follow]
    split
    · next hkind =>
      refine spread_congr _ fun entry hentry => ?_
      obtain ⟨i, hi, hsome⟩ := List.mem_filterMap.mp hentry
      obtain ⟨child, hchild, rfl⟩ := Option.map_eq_some_iff.mp hsome
      exact he.walk_append rest (h hkind i hi child hchild) hupper
    · rfl
  | .predicate query :: rest =>
    rw [List.cons_append, FollowsWithin] at h
    rw [List.cons_append, List.cons_append, TreePath.follow, TreePath.follow]
    split
    · next hleaf =>
      rw [if_pos hleaf] at h
      refine Guarded.bind_congr ?_
      split
      · next hmeets => exact he.walk_append rest (h hmeets) hupper
      · rfl
    · next hinner =>
      rw [if_neg hinner] at h
      refine Guarded.bind_congr (spread_congr _ fun entry hentry => ?_)
      obtain ⟨hmem, hmeets⟩ := mem_marked.mp hentry
      exact he.walk_append rest (h entry hmem hmeets) hupper
  | .tag tag :: rest =>
    rw [List.cons_append] at h
    rw [List.cons_append, List.cons_append]
    cases tag using Tag.walk_cases with
    | parent =>
      rw [FollowsWithin] at h
      rw [TreePath.follow, TreePath.follow]
      cases hp : parent? n with
      | none => rfl
      | some p => exact he.follow_append rest (h p hp) hupper
    | root =>
      rw [FollowsWithin] at h
      rw [TreePath.follow, TreePath.follow]
      exact Guarded.bind_congr (he.follow_append rest h hupper)
    | children =>
      rw [FollowsWithin] at h
      rw [TreePath.follow, TreePath.follow]
      split
      · rfl
      · next hinner =>
        exact spread_congr _ fun entry hentry => he.walk_append rest (h hinner entry hentry) hupper
    | descendants =>
      rw [FollowsWithin] at h
      rw [TreePath.follow, TreePath.follow]
      exact atLeaves_eq h (fun hnear hupper => he.walk_append rest hnear hupper) (by omega) hupper
    | ancestors =>
      rw [FollowsWithin] at h
      rw [TreePath.follow, TreePath.follow]
      exact closest_eq (fun hnear => he.walk_append rest hnear (by omega)) (by omega) h
    | siblings =>
      rw [FollowsWithin] at h
      rw [TreePath.follow, TreePath.follow]
      cases hp : parent? n with
      | none => rfl
      | some p =>
        simp only
        split
        · rfl
        · next hinner =>
          exact spread_congr _ fun entry hentry =>
            he.walk_append rest (h p hp hinner entry hentry) hupper
    | passed tag htag =>
      rw [followsWithin_passed htag] at h
      rw [follow_passed htag, follow_passed htag]
      exact he.follow_append rest h hupper
  | .union alternatives named :: rest =>
    rw [List.cons_append, FollowsWithin] at h
    have hresults : alternatives.mapM (fun path => do
        return (← walk config (path ++ (rest ++ q)) (upper + 1) n).slot) =
        alternatives.mapM fun path => do
          return (← walk config (path ++ (rest ++ p)) (depth + 1) n).slot := by
      refine Guarded.mapM_congr fun path hpath => ?_
      have hwalk := h path hpath
      rw [← List.append_assoc] at hwalk
      rw [← List.append_assoc, ← List.append_assoc,
        he.walk_append (path ++ rest) hwalk (Nat.succ_le_succ hupper)]
    rw [List.cons_append, List.cons_append, TreePath.follow, TreePath.follow, alternately_eq_mapM,
      alternately_eq_mapM, hresults]
  | .tuple members :: rest =>
    rw [List.cons_append, FollowsWithin, ← List.append_assoc] at h
    rw [List.cons_append, List.cons_append, TreePath.follow, TreePath.follow, ← List.append_assoc,
      ← List.append_assoc]
    exact he.walk_append (members ++ rest) h (by omega)
termination_by (pathWeight a, 0)
decreasing_by
  all_goals try decreasing_tactic
  all_goals
    have hless : pathWeight path < pathsWeight alternatives := pathWeight_lt_of_mem hpath
    exact Prod.Lex.left _ _ (by simp; omega)

end

/-- A walk that reaches no depth limit comes to the same from any lesser depth. -/
theorem StaysWithin.walk_eq {ν : Type} [TreeAccess ν] {config : Config} {path : Path}
    {depth upper : Nat} {n : ν} (h : StaysWithin config path depth n) (hupper : upper ≤ depth) :
    walk config path upper n = walk config path depth n := by
  have hwalk := (Echoes.nil config).walk_append path ((List.append_nil path).symm ▸ h) hupper
  rwa [List.append_nil] at hwalk

theorem FollowsWithin.follow_eq {ν : Type} [TreeAccess ν] {config : Config} {path : Path}
    {depth upper : Nat} {n : ν} (h : FollowsWithin config path depth n) (hupper : upper ≤ depth) :
    follow config path upper n = follow config path depth n := by
  have hfollow := (Echoes.nil config).follow_append path ((List.append_nil path).symm ▸ h) hupper
  rwa [List.append_nil] at hfollow

section Trips

variable {ν : Type} [TreeAccess ν]

theorem Guarded.trips_eq_zero_of_mapM {α β : Type} {f : α → Guarded β} {xs : List α}
    (h : (xs.mapM f).trips = 0) : ∀ x ∈ xs, (f x).trips = 0 := by
  induction xs with
  | nil => exact fun x hx => absurd hx List.not_mem_nil
  | cons x rest ih =>
    rw [List.mapM_cons, Guarded.trips_bind, Guarded.trips_bind] at h
    intro y hy
    rcases List.mem_cons.mp hy with rfl | hy
    · omega
    · exact ih (by omega) y hy

theorem trips_eq_zero_of_spread {kind : NodeKind} {children : List (ChildKey × ν)}
    {visit : ν → Guarded (Resolved ν)} (h : (spread kind children visit).trips = 0) :
    ∀ entry ∈ children, (visit entry.2).trips = 0 := by
  intro entry hentry
  have hfirst := Guarded.trips_eq_zero_of_mapM (Nat.eq_zero_of_add_eq_zero_right h) entry hentry
  rw [Guarded.trips_bind] at hfirst
  omega

theorem leavesWithin_of_trips {visit : Nat → ν → Guarded (Resolved ν)} {near : Nat → ν → Prop}
    (hnear : ∀ {depth n}, (visit depth n).trips = 0 → near depth n) {left depth : Nat} {n : ν}
    (h : (atLeaves visit left depth n).trips = 0) : LeavesWithin near left depth n := by
  induction left generalizing depth n with
  | zero => cases h
  | succ left ih =>
    rw [atLeaves] at h
    rw [LeavesWithin]
    split
    · next hleaf =>
      rw [if_pos hleaf] at h
      exact hnear h
    · next hinner =>
      rw [if_neg hinner] at h
      exact fun entry hentry => ih (trips_eq_zero_of_spread h entry hentry)

theorem closestWithin_of_trips {visit : ν → Guarded (Resolved ν)} {near : ν → Prop}
    (hnear : ∀ {n}, (visit n).trips = 0 → near n) {left : Nat} {seen : List Identity} {n : ν}
    (h : (closest visit left seen n).trips = 0) : ClosestWithin visit near left seen n := by
  induction left generalizing seen n with
  | zero =>
    unfold closest at h
    split at h <;> cases h
  | succ left ih =>
    rw [closest] at h
    rw [ClosestWithin]
    intro hnew
    rw [if_neg (Bool.eq_false_iff.mp hnew)] at h
    simp only at h
    refine ⟨fun hkind => ?_, fun habsent p hp => ?_⟩
    · rw [if_neg hkind, Guarded.trips_bind] at h
      exact hnear (by omega)
    · by_cases hkind : kind n = .sequence
      · rw [if_pos hkind, pure_bind] at h
        rw [hp] at h
        exact ih h
      · rw [if_neg hkind, Guarded.trips_bind] at h
        rw [habsent hkind] at h
        simp only [hp] at h
        exact ih (by omega)

mutual

/-- A walk in which no guard trips reaches no depth limit. -/
theorem StaysWithin.of_trips {config : Config} {path : Path} {depth : Nat} {n : ν}
    (h : (walk config path depth n).trips = 0) : StaysWithin config path depth n := by
  rw [walk] at h
  rw [StaysWithin]
  split at h
  · cases h
  · next hdepth => exact ⟨by omega, .of_trips h⟩
termination_by (pathWeight path, 1)

theorem FollowsWithin.of_trips {config : Config} {path : Path} {depth : Nat} {n : ν}
    (h : (follow config path depth n).trips = 0) : FollowsWithin config path depth n := by
  match path with
  | [] =>
    rw [FollowsWithin]
    trivial
  | .key name :: rest =>
    rw [FollowsWithin]
    intro child hchild
    rw [follow, hchild] at h
    exact .of_trips h
  | .index i :: rest =>
    rcases Path.shifted_or rest with ⟨tag, step, more, htag, rfl⟩ | hrest
    · rw [followsWithin_index_shifted htag]
      intro j hj
      rw [follow_index_shifted htag, hj] at h
      exact .of_trips h
    · rw [followsWithin_index_unshifted hrest]
      intro child hchild
      rw [follow_index_unshifted hrest, hchild] at h
      exact .of_trips h
  | .slice s :: rest =>
    rw [FollowsWithin]
    intro hkind i hi child hchild
    rw [follow, if_pos hkind] at h
    refine .of_trips (trips_eq_zero_of_spread h (.index i, child) ?_)
    exact List.mem_filterMap.mpr ⟨i, hi, by rw [hchild]; rfl⟩
  | .predicate query :: rest =>
    rw [FollowsWithin]
    rw [follow] at h
    split
    · next hleaf =>
      intro hmeets
      rw [if_pos hleaf, Guarded.trips_bind, if_pos hmeets] at h
      exact .of_trips (by omega)
    · next hinner =>
      intro entry hentry hmeets
      rw [if_neg hinner, Guarded.trips_bind] at h
      have hspread := Nat.eq_zero_of_add_eq_zero_left h
      exact .of_trips (trips_eq_zero_of_spread hspread entry (mem_marked.mpr ⟨hentry, hmeets⟩))
  | .tag tag :: rest =>
    cases tag using Tag.walk_cases with
    | parent =>
      rw [FollowsWithin]
      intro p hp
      rw [follow, hp] at h
      exact .of_trips h
    | root =>
      rw [FollowsWithin]
      rw [follow, Guarded.trips_bind] at h
      exact .of_trips (by omega)
    | children =>
      rw [FollowsWithin]
      intro hinner entry hentry
      rw [follow, if_neg hinner] at h
      exact .of_trips (trips_eq_zero_of_spread h entry hentry)
    | descendants =>
      rw [FollowsWithin]
      rw [follow] at h
      exact leavesWithin_of_trips (fun hvisit => .of_trips hvisit) h
    | ancestors =>
      rw [FollowsWithin]
      rw [follow] at h
      exact closestWithin_of_trips (fun hvisit => .of_trips hvisit) h
    | siblings =>
      rw [FollowsWithin]
      intro p hp hinner entry hentry
      rw [follow, hp] at h
      simp only [if_neg hinner] at h
      exact .of_trips (trips_eq_zero_of_spread h entry hentry)
    | passed tag htag =>
      rw [followsWithin_passed htag]
      rw [follow_passed htag] at h
      exact .of_trips h
  | .union alternatives named :: rest =>
    rw [FollowsWithin]
    intro path hpath
    rw [follow, alternately_eq_mapM, Guarded.trips_bind] at h
    have hvisit := Guarded.trips_eq_zero_of_mapM (Nat.eq_zero_of_add_eq_zero_right h) path hpath
    rw [Guarded.trips_bind] at hvisit
    exact .of_trips (by omega)
  | .tuple members :: rest =>
    rw [FollowsWithin]
    rw [follow] at h
    exact .of_trips h
termination_by (pathWeight path, 0)
decreasing_by
  all_goals try decreasing_tactic
  all_goals
    have hless : pathWeight path < pathsWeight alternatives := pathWeight_lt_of_mem hpath
    exact Prod.Lex.left _ _ (by simp; omega)

end

end Trips

section Reads

variable {ν : Type} [TreeAccess ν] {n : ν} {p : Path}

/-- What a read of a path finds. -/
def Resolver.found (r : Resolver) (n : ν) (p : Path) : Option Json :=
  (Resolver.resolve n p .fetch none r).1

theorem Resolver.find_path (r : Resolver) (n : ν) (p : Path) :
    (Resolver.find n (.path p) r).1 = .ok (r.found n p) := rfl

theorem Path.splitOperation_of_none (hp : p.splitOperation.2 = none) :
    p.splitOperation = (p, none) := by
  unfold splitOperation at hp ⊢
  split
  · next t hlast =>
    rw [hlast] at hp
    split
    · next hoperation => simp [hoperation] at hp
    · rfl
  · rfl

theorem Path.splitOperation_append {q : Path} (hp : p.splitOperation.2 = none)
    (hq : q.splitOperation.2 = none) : (p ++ q).splitOperation.2 = none := by
  by_cases hempty : q = []
  · rwa [hempty, List.append_nil]
  · unfold splitOperation at hq ⊢
    have hlast : (p ++ q).getLast? = q.getLast? := by
      rw [List.getLast?_append, List.getLast?_eq_some_getLast hempty, Option.some_or]
    rw [hlast]
    split at hq
    · split at hq
      · cases hq
      · next hoperation => rw [if_neg hoperation]
    · rfl

/-- Where no operation stands at the end, a read finds what the walk comes to. -/
theorem Resolver.found_eq (hp : p.splitOperation.2 = none) (r : Resolver) (n : ν) :
    r.found n p = (walk r.config p 0 n).value.toJson? := by
  unfold found resolve
  rw [Path.splitOperation_of_none hp]
  exact Option.or_none

/-- A walk that reaches no depth limit comes to what a read from its start finds. -/
theorem StaysWithin.slot_eq {r : Resolver} {depth : Nat} (h : StaysWithin r.config p depth n)
    (hp : p.splitOperation.2 = none) :
    (walk r.config p depth n).value.slot = (r.found n p).getD .null := by
  rw [Resolver.found_eq hp, h.walk_eq (Nat.zero_le depth)]
  rfl

end Reads

end TreePath

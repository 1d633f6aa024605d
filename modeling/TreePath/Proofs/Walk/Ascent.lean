import Mathlib
import TreePath.Proofs.Walk.Finishing
import TreePath.Proofs.Walk.Limit

namespace TreePath

open TreeAccess

variable {ν : Type} [TreeAccess ν] {n m p : ν} {seen : List Identity} {k left : Nat}

section Chain

/-- The node so many steps above another one. -/
def above? : (steps : Nat) → ν → Option ν
  | 0, n => some n
  | steps + 1, n => (parent? n).bind (above? steps)

/-- Both nodes have an identity, and it is the same one. -/
def SameIdentity (n m : ν) : Prop := ∃ i, identity? n = some i ∧ identity? m = some i

/-- The node `k` steps above `n` is recognized as one that is closer to `n`, or as `n` itself. -/
def ComesBack (n : ν) (k : Nat) : Prop :=
  ∃ j < k, ∃ m p, above? j n = some m ∧ above? k n = some p ∧ SameIdentity m p

/-- The node `k` steps above `n` is recognized by what has been seen before `n` and on the way. -/
def Recognized (seen : List Identity) (n : ν) (k : Nat) : Prop :=
  ∃ p i, above? k n = some p ∧ identity? p = some i ∧
    (i ∈ seen ∨ ∃ j < k, ∃ m, above? j n = some m ∧ identity? m = some i)

theorem above?_succ (hp : parent? n = some p) (k : Nat) : above? (k + 1) n = above? k p := by
  rw [above?, hp, Option.bind_some]

theorem parent?_of_above? (h : above? (k + 1) n = some m) :
    ∃ p, parent? n = some p ∧ above? k p = some m := Option.bind_eq_some_iff.mp h

theorem recognized_zero : Recognized seen n 0 ↔ isRevisited seen n = true := by
  unfold Recognized isRevisited
  cases hn : identity? n with
  | none => simp [above?, hn]
  | some i => simp [above?, hn]

/-- One step further up, the node that has been left is among those seen. -/
theorem recognized_succ (hp : parent? n = some p) :
    Recognized seen n (k + 1) ↔ Recognized (see seen n) p k := by
  unfold Recognized
  rw [above?_succ hp]
  refine exists_congr fun q => exists_congr fun i => and_congr_right fun _ =>
    and_congr_right fun _ => ?_
  rw [see, List.mem_append, Option.mem_toList]
  constructor
  · rintro (hseen | ⟨j, hj, m, hm, hi⟩)
    · exact .inl (.inr hseen)
    · cases j with
      | zero =>
        obtain rfl := Option.some.inj hm
        exact .inl (.inl hi)
      | succ j =>
        rw [above?_succ hp] at hm
        exact .inr ⟨j, Nat.lt_of_succ_lt_succ hj, m, hm, hi⟩
  · rintro ((hi | hseen) | ⟨j, hj, m, hm, hi⟩)
    · exact .inr ⟨0, Nat.succ_pos k, n, rfl, hi⟩
    · exact .inl hseen
    · exact .inr ⟨j + 1, Nat.succ_lt_succ hj, m, (above?_succ hp j).trans hm, hi⟩

theorem recognized_nil : Recognized [] n k ↔ ComesBack n k := by
  constructor
  · rintro ⟨p, i, hp, hi, hseen | ⟨j, hj, m, hm, him⟩⟩
    · exact absurd hseen List.not_mem_nil
    · exact ⟨j, hj, m, p, hm, hp, i, him, hi⟩
  · rintro ⟨j, hj, m, p, hm, hp, i, him, hi⟩
    exact ⟨p, i, hp, hi, .inr ⟨j, hj, m, hm, him⟩⟩

end Chain

section Root

/-- From parent to parent, the way from `n` leads in at most `limit` steps to `m`, above which there
is nothing, and no two of the parents on it have the same identity. -/
def TopWithin (limit : Nat) (n m : ν) : Prop :=
  ∃ k ≤ limit, above? k n = some m ∧ parent? m = none ∧
    ∀ p, parent? n = some p → ∀ j < k, ¬ComesBack p j

/-- None of the first `k` nodes above `n` is recognized. -/
def ParentsNew (seen : List Identity) (n : ν) (k : Nat) : Prop :=
  ∀ p, parent? n = some p → ∀ j < k, ¬Recognized seen p j

theorem parentsNew_succ (hp : parent? n = some p) :
    ParentsNew seen n (k + 1) ↔ ¬Recognized seen p 0 ∧ ParentsNew (see seen p) p k := by
  constructor
  · intro hnew
    refine ⟨hnew p hp 0 (Nat.succ_pos k), fun q hq j hj hback => ?_⟩
    exact hnew p hp (j + 1) (Nat.succ_lt_succ hj) ((recognized_succ hq).mpr hback)
  · rintro ⟨hfirst, hnew⟩ q hq j hj
    obtain rfl := Option.some.inj (hp.symm.trans hq)
    cases j with
    | zero => exact hfirst
    | succ j =>
      intro hback
      obtain ⟨m, i, hm, -⟩ := id hback
      obtain ⟨q, hq, -⟩ := parent?_of_above? hm
      exact hnew q hq j (Nat.lt_of_succ_lt_succ hj) ((recognized_succ hq).mp hback)

theorem climb_top (hp : parent? n = none) : climb left seen n = pure n := by
  unfold climb
  rw [hp]

theorem climb_recognized (hp : parent? n = some p) (hback : Recognized seen p 0) :
    climb left seen n = Guarded.trip n := by
  unfold climb
  rw [hp]
  exact if_pos (recognized_zero.mp hback)

theorem climb_zero (hp : parent? n = some p) : climb 0 seen n = Guarded.trip n := by
  unfold climb
  rw [hp]
  exact ite_self _

theorem climb_succ (hp : parent? n = some p) (hnew : ¬Recognized seen p 0) :
    climb (left + 1) seen n = climb left (see seen p) p := by
  rw [recognized_zero] at hnew
  rw [climb, hp]
  exact if_neg hnew

/-- A climb that may be long enough ends at the top, if no parent is recognized on the way. -/
theorem climb_eq_top (hm : above? k n = some m) (htop : parent? m = none) (hleft : k ≤ left)
    (hnew : ParentsNew seen n k) : climb left seen n = pure m := by
  induction k generalizing left seen n with
  | zero =>
    obtain rfl := Option.some.inj hm
    exact climb_top htop
  | succ k ih =>
    obtain ⟨p, hp, hm⟩ := parent?_of_above? hm
    obtain ⟨left, rfl⟩ : ∃ l, left = l + 1 := ⟨left - 1, by omega⟩
    obtain ⟨hfirst, hnew⟩ := (parentsNew_succ hp).mp hnew
    rw [climb_succ hp hfirst]
    exact ih hm (Nat.le_of_succ_le_succ hleft) hnew

/-- Counted in machine words, such a climb ends as well, whatever the limit is: the count stays
within it. -/
theorem climbIn_eq_top {config : Config} {fuel : Nat} {steps : UInt64}
    (hm : above? k n = some m) (htop : parent? m = none)
    (hsteps : steps.toNat + k ≤ config.maxDepth) (hnew : ParentsNew seen n k)
    (hfuel : k < fuel) : climbIn config fuel seen steps n = OptionT.lift (pure m) := by
  induction k generalizing fuel seen steps n with
  | zero =>
    obtain ⟨fuel, rfl⟩ := Nat.exists_eq_add_of_lt hfuel
    obtain rfl := Option.some.inj hm
    rw [Nat.zero_add, climbIn, htop]
    rfl
  | succ k ih =>
    obtain ⟨fuel, rfl⟩ := Nat.exists_eq_add_of_lt hfuel
    obtain ⟨p, hp, hm⟩ := parent?_of_above? hm
    obtain ⟨hfirst, hnew⟩ := (parentsNew_succ hp).mp hnew
    have hword : config.maxDepth < UInt64.size := config.depth.toNat_lt_size
    have hnext : (steps + 1).toNat = steps.toNat + 1 := toNat_succ (by omega)
    have hwithin : ¬config.depth < steps + 1 := by rw [config.depth_lt_iff]; omega
    rw [recognized_zero] at hfirst
    simp only [climbIn, hp, if_neg hfirst, if_neg hwithin]
    exact ih hm (by omega) hnew (by omega)

/-- A climb ends at the top, or with one trip of a guard at a node on the way. -/
theorem climb_cases (left : Nat) (seen : List Identity) (n : ν) :
    ∃ k ≤ left, ∃ m, above? k n = some m ∧
      (climb left seen n = Guarded.trip m ∨
        climb left seen n = pure m ∧ parent? m = none ∧ ParentsNew seen n k) := by
  induction left generalizing seen n with
  | zero =>
    refine ⟨0, Nat.le_refl 0, n, rfl, ?_⟩
    cases hp : parent? n with
    | none => exact .inr ⟨climb_top hp, rfl, nofun⟩
    | some p => exact .inl (climb_zero hp)
  | succ left ih =>
    cases hp : parent? n with
    | none => exact ⟨0, Nat.zero_le _, n, rfl, .inr ⟨climb_top hp, hp, nofun⟩⟩
    | some p =>
      by_cases hback : Recognized seen p 0
      · exact ⟨0, Nat.zero_le _, n, rfl, .inl (climb_recognized hp hback)⟩
      · obtain ⟨k, hk, m, hm, hend⟩ := ih (see seen p) p
        refine ⟨k + 1, Nat.succ_le_succ hk, m, (above?_succ hp k).trans hm, ?_⟩
        rw [climb_succ hp hback, parentsNew_succ hp]
        exact hend.imp_right fun ⟨hclimb, htop, hnew⟩ => ⟨hclimb, htop, hback, hnew⟩

theorem topWithin_iff {limit : Nat} :
    TopWithin limit n m ↔
      ∃ k ≤ limit, above? k n = some m ∧ parent? m = none ∧ ParentsNew [] n k := by
  simp only [TopWithin, ParentsNew, recognized_nil]

end Root

section Ancestors

variable {visit : ν → Guarded (Resolved ν)}

/-- There is nothing to be found at the node `k` steps above `n`, if there is one at all. -/
def PassedOver (visit : ν → Guarded (Resolved ν)) (n : ν) (k : Nat) : Prop :=
  ∀ m, above? k n = some m → kind m ≠ .sequence → (visit m).value = .absent

theorem passedOver_succ (hp : parent? n = some p) (k : Nat) :
    PassedOver visit n (k + 1) ↔ PassedOver visit p k := by
  rw [PassedOver, above?_succ hp]
  rfl

theorem closest_recognized (hback : Recognized seen n 0) :
    closest visit left seen n = Guarded.trip .absent := by
  unfold closest
  exact if_pos (recognized_zero.mp hback)

theorem closest_zero : closest visit 0 seen n = Guarded.trip .absent := by
  unfold closest
  exact ite_self _

theorem value_closest_found (hnew : ¬Recognized seen n 0) (hkind : kind n ≠ .sequence)
    (hfound : (visit n).value ≠ .absent) :
    (closest visit (left + 1) seen n).value = (visit n).value := by
  rw [recognized_zero] at hnew
  rw [closest, if_neg hnew]
  simp only [if_neg hkind, Guarded.value_bind]
  rfl

theorem value_closest_passed (hnew : ¬Recognized seen n 0) (hpassed : PassedOver visit n 0) :
    (closest visit (left + 1) seen n).value =
      match parent? n with
      | some p => (closest visit left (see seen n) p).value
      | none => .absent := by
  rw [recognized_zero] at hnew
  rw [closest, if_neg hnew]
  by_cases hkind : kind n = .sequence
  · simp only [if_pos hkind, pure_bind]
    cases parent? n <;> rfl
  · simp only [if_neg hkind, Guarded.value_bind, hpassed n rfl hkind]
    cases parent? n <;> rfl

/-- What is found is what a visit finds at the first node above `n` at which it finds something. -/
theorem value_closest (hm : above? k n = some m) (hleft : k < left)
    (hnew : ∀ j ≤ k, ¬Recognized seen n j) (hpassed : ∀ j < k, PassedOver visit n j)
    (hkind : kind m ≠ .sequence) (hfound : (visit m).value ≠ .absent) :
    (closest visit left seen n).value = (visit m).value := by
  obtain ⟨left, rfl⟩ : ∃ l, left = l + 1 := ⟨left - 1, by omega⟩
  induction k generalizing left seen n with
  | zero =>
    obtain rfl := Option.some.inj hm
    exact value_closest_found (hnew 0 (Nat.le_refl 0)) hkind hfound
  | succ k ih =>
    obtain ⟨p, hp, hm⟩ := parent?_of_above? hm
    obtain ⟨left, rfl⟩ : ∃ l, left = l + 1 := ⟨left - 1, by omega⟩
    rw [value_closest_passed (hnew 0 (Nat.zero_le _)) (hpassed 0 (Nat.succ_pos k)), hp]
    refine ih hm (fun j hj => ?_) (fun j hj => ?_) left (Nat.lt_of_succ_lt_succ hleft)
    · rw [← recognized_succ hp]
      exact hnew (j + 1) (Nat.succ_le_succ hj)
    · rw [← passedOver_succ hp]
      exact hpassed (j + 1) (Nat.succ_lt_succ hj)

/-- Nothing is found if the way up ends before there is anything to be found. -/
theorem value_closest_absent (hend : above? k n = none ∨ Recognized seen n k ∨ left ≤ k)
    (hpassed : ∀ j < k, j < left → (∀ i ≤ j, ¬Recognized seen n i) → PassedOver visit n j) :
    (closest visit left seen n).value = .absent := by
  induction left generalizing seen n k with
  | zero => rw [closest_zero, Guarded.value_trip]
  | succ left ih =>
    by_cases hback : Recognized seen n 0
    · rw [closest_recognized hback, Guarded.value_trip]
    cases k with
    | zero =>
      rcases hend with hnone | hback' | hleft
      · cases hnone
      · exact absurd hback' hback
      · exact absurd hleft (Nat.not_succ_le_zero left)
    | succ k =>
      have hfirst : PassedOver visit n 0 := by
        refine hpassed 0 (Nat.succ_pos k) (Nat.succ_pos left) fun i hi => ?_
        rwa [Nat.le_zero.mp hi]
      rw [value_closest_passed hback hfirst]
      cases hp : parent? n with
      | none => rfl
      | some p =>
        rw [above?_succ hp, recognized_succ hp, Nat.succ_le_succ_iff] at hend
        refine ih hend fun j hj hleft hnew => (passedOver_succ hp j).mp ?_
        refine hpassed (j + 1) (Nat.succ_lt_succ hj) (Nat.succ_lt_succ hleft) fun i hi => ?_
        cases i with
        | zero => exact hback
        | succ i =>
          rw [recognized_succ hp]
          exact hnew i (Nat.le_of_succ_le_succ hi)

end Ancestors

section Reads

theorem walk_nil (config : Config) (n : ν) : walk config [] 0 n = pure (.node n) := by
  rw [walk_zero, follow]

theorem walk_root (config : Config) (n : ν) :
    walk config [.tag .root] 0 n = Resolved.node <$> climb config.maxDepth [] n := by
  have hend : ∀ top : ν, follow config [] 0 top = pure (.node top) := fun top => by rw [follow]
  rw [walk_zero, follow, map_eq_pure_bind]
  simp only [hend]

theorem walkIn_root {config : Config} {fuel : Nat} {top : Guarded ν}
    (hclimb : climbIn config (fuel + 1) [] 0 n = OptionT.lift top) :
    walkIn config (fuel + 3) [.tag .root] 0 n = OptionT.lift (Resolved.node <$> top) := by
  have hwithin : ¬config.depth < 0 := by rw [config.depth_lt_iff]; exact Nat.not_lt_zero _
  have hend : ∀ m : ν, (followIn config (fuel + 1) [] 0 m).Finishes (pure (.node m)) := fun m => by
    rw [followIn]
    exact .pure _
  rw [walkIn, if_neg hwithin, followIn, map_eq_pure_bind]
  exact Fueled.Finishes.bind hclimb hend

/-- Where no operation stands at the end, the one that is asked for answers to where the walk ends,
and the resolver counts one read and the trips of its guards. -/
theorem Resolver.resolve_run {path : Path} (hpath : path.splitOperation.2 = none) (n : ν)
    (operation : Operation) (default : Option Json) (r : Resolver) :
    Resolver.resolve n path operation default r =
      let x := walk r.config path 0 n >>= fun found => found.answer r.config operation
      (x.value.or default, { r with stats := r.stats.countLookup.countTrips x.trips }) := by
  unfold Resolver.resolve
  rw [Path.splitOperation_of_none hpath]
  rfl

/-- The path from `n` comes to an end, and whatever is read along it is what is read at `m`, with so
many trips of guards on the way there. -/
structure EndsAt (r : Resolver) (path : Path) (n m : ν) (trips : Nat) : Prop where
  walk_ends (fuel : Nat) (hfuel : r.config.fuelFor (pathWeight path) + 1 < fuel) :
    walkIn r.config fuel path 0 n = OptionT.lift ⟨.node m, trips⟩
  locate : Resolver.locate n (.path path) r =
    (.ok (some m), { r with stats := r.stats.countLookup.countTrips trips })
  resolve (operation : Operation) (default : Option Json) :
    Resolver.resolve n path operation default r =
      let (answer, s) := Resolver.resolve m [] operation default r
      (answer, { s with stats := s.stats.countTrips trips })

theorem EndsAt.of_walk {r : Resolver} {path : Path} (hpath : path.splitOperation.2 = none)
    {trips : Nat} (h : walk r.config path 0 n = ⟨.node m, trips⟩)
    (hends : ∀ fuel, r.config.fuelFor (pathWeight path) + 1 < fuel →
      walkIn r.config fuel path 0 n = OptionT.lift ⟨.node m, trips⟩) :
    EndsAt r path n m trips where
  walk_ends := hends
  locate := by
    have hlocate : Resolver.locate n (.path path) r =
        (.ok (walk r.config path 0 n).value.node?, { r with
          stats := r.stats.countLookup.countTrips (walk r.config path 0 n).trips }) := rfl
    rw [hlocate, h]
    rfl
  resolve operation default := by
    rw [Resolver.resolve_run hpath, Resolver.resolve_run rfl, h, walk_nil, pure_bind]
    simp only [Guarded.value_bind, Guarded.trips_bind, Stats.countTrips, Nat.add_assoc,
      Nat.add_comm trips]

/-- The root tag leads to the topmost node, without a trip of a guard, if it is reached within the
depth limit and no two parents on the way have the same identity. If not, it leads to some node on
the way that is reached within the limit, and exactly one guard trips, as long as the limit is one
that a count can exceed. -/
theorem resolve_root (r : Resolver) (n : ν) :
    (∀ m, TopWithin r.config.maxDepth n m → EndsAt r [.tag .root] n m 0) ∧
    (r.config.maxDepth + 1 < UInt64.size → (¬∃ m, TopWithin r.config.maxDepth n m) →
      ∃ k ≤ r.config.maxDepth, ∃ m, above? k n = some m ∧ EndsAt r [.tag .root] n m 1) := by
  have hwalk : ∀ {m : ν} {trips}, climb r.config.maxDepth [] n = ⟨m, trips⟩ →
      walk r.config [.tag .root] 0 n = ⟨.node m, trips⟩ := by
    intro m trips hclimb
    rw [walk_root, hclimb]
    rfl
  refine ⟨fun m htop => ?_, fun hmax hnone => ?_⟩
  · obtain ⟨k, hk, hm, htop, hnew⟩ := topWithin_iff.mp htop
    refine .of_walk rfl (hwalk (climb_eq_top hm htop hk hnew)) fun fuel hfuel => ?_
    have hweight := r.config.fuelFor_tail (.tag .root) []
    obtain ⟨fuel, rfl⟩ : ∃ f, fuel = f + 3 := ⟨fuel - 3, by omega⟩
    have hsteps : (0 : UInt64).toNat + k ≤ r.config.maxDepth := by
      rwa [UInt64.toNat_zero, Nat.zero_add]
    exact walkIn_root (climbIn_eq_top hm htop hsteps hnew (by omega))
  · obtain ⟨k, hk, m, hm, htrip | ⟨-, htop, hnew⟩⟩ := climb_cases r.config.maxDepth [] n
    · refine ⟨k, hk, m, hm, .of_walk rfl (hwalk htrip) fun fuel hfuel => ?_⟩
      rw [← hwalk htrip]
      exact walkIn_finishes r.config hmax [.tag .root] fuel 0 hfuel n
    · exact absurd ⟨m, topWithin_iff.mpr ⟨k, hk, hm, htop, hnew⟩⟩ hnone

/-- A chain that is just as long as the limit allows, from a node that cannot be told from its
parent; and two nodes that are each other's parents, from which no more than two steps lead to
nodes that are new. -/
theorem resolve_root_limit :
    let row (parent identity : Option Nat) : GraphRow := ⟨.mapping, [], parent, identity, .null⟩
    let chain (i : Nat) : GraphNode :=
      ⟨#[row (some 1) (some 7), row (some 2) (some 7), row none (some 8)], i⟩
    let ring (i : Nat) : GraphNode := ⟨#[row (some 1) (some 0), row (some 0) (some 1)], i⟩
    let r : Resolver := .new { Config.default with depth := 2 }
    r.config.maxDepth + 1 < UInt64.size ∧ EndsAt r [.tag .root] (chain 0) (chain 2) 0 ∧
      ∃ k ≤ 2, ∃ m, above? k (ring 0) = some m ∧ EndsAt r [.tag .root] (ring 0) m 1 := by
  intro row chain ring r
  have hmax : r.config.maxDepth + 1 < UInt64.size := by decide
  refine ⟨hmax, (resolve_root r (chain 0)).1 _ ⟨2, by decide, rfl, rfl, ?_⟩,
    (resolve_root r (ring 0)).2 hmax ?_⟩
  · rintro p hp j hj ⟨i, hi, q, q', hq, hq', hsame⟩
    obtain ⟨rfl, rfl⟩ : i = 0 ∧ j = 1 := by omega
    obtain rfl := Option.some.inj hp
    obtain rfl := Option.some.inj hq
    obtain rfl := Option.some.inj hq'
    obtain ⟨identity, hone, hother⟩ := hsame
    obtain rfl := Option.some.inj hone
    exact absurd hother (by decide)
  · rintro ⟨m, k, hk, hm, htop, -⟩
    change k ≤ 2 at hk
    interval_cases k
    all_goals
      obtain rfl := Option.some.inj hm
      cases htop

section Closest

variable {r : Resolver} {rest : Path}

/-- The node `k` steps above `n` is a sequence, or the rest of the path finds nothing there. -/
def FindsNothing (r : Resolver) (rest : Path) (n : ν) (k : Nat) : Prop :=
  ∀ m, above? k n = some m → kind m ≠ .sequence → r.found m rest = none

/-- The search for the closest node looks at `m`, which is `k` steps above `n` and no sequence: it
has found nothing before, and it has neither recognized a node nor passed the depth limit. -/
structure LooksAt (r : Resolver) (rest : Path) (n : ν) (k : Nat) (m : ν) : Prop where
  above : above? k n = some m
  kind_ne : kind m ≠ .sequence
  near : k ≤ r.config.maxDepth
  new : ∀ j ≤ k, ¬ComesBack n j
  before : ∀ j < k, FindsNothing r rest n j

/-- The way up from `n` has come to its end after `k` steps. -/
def EndsBy (limit : Nat) (n : ν) (k : Nat) : Prop :=
  above? k n = none ∨ ComesBack n k ∨ limit < k

theorem Resolver.found_eq_none_iff (hrest : rest.splitOperation.2 = none) :
    r.found n rest = none ↔ (walk r.config rest 0 n).value = .absent := by
  rw [Resolver.found_eq hrest]
  cases (walk r.config rest 0 n).value <;> simp [Resolved.toJson?]

/-- A search looks at nodes until it finds something or comes to the end of the way up. -/
theorem exists_looksAt (r : Resolver) (rest : Path) (n : ν) :
    (∃ k m, LooksAt r rest n k m ∧ r.found m rest ≠ none) ∨
      ∃ k, EndsBy r.config.maxDepth n k ∧ ∀ j < k, FindsNothing r rest n j := by
  classical
  have hstops : ∃ k, EndsBy r.config.maxDepth n k ∨ ¬FindsNothing r rest n k :=
    ⟨r.config.maxDepth + 1, .inl (.inr (.inr (Nat.lt_succ_self _)))⟩
  obtain ⟨k, hstop, hbefore⟩ := Nat.findX hstops
  have hnothing : ∀ j < k, FindsNothing r rest n j := fun j hj =>
    not_not.mp fun hfound => hbefore j hj (.inr hfound)
  by_cases hend : EndsBy r.config.maxDepth n k
  · exact .inr ⟨k, hend, hnothing⟩
  · have hfound := hstop.resolve_left hend
    unfold FindsNothing at hfound
    push Not at hfound
    obtain ⟨m, hm, hkind, hfound⟩ := hfound
    refine .inl ⟨k, m, ⟨hm, hkind, ?_, fun j hj hback => ?_, hnothing⟩, hfound⟩
    · exact Nat.le_of_not_lt fun hlt => hend (.inr (.inr hlt))
    · rcases Nat.lt_or_eq_of_le hj with hj | rfl
      · exact hbefore j hj (.inl (.inr (.inl hback)))
      · exact hend (.inr (.inl hback))

/-- The walk behind the ancestors tag is the search for the closest node. -/
theorem walk_ancestors (config : Config) (rest : Path) (n : ν) :
    walk config (.tag .ancestors :: rest) 0 n =
      closest (fun above => walk config rest 1 above) (config.maxDepth + 1) [] n := by
  rw [walk_zero, follow, Nat.sub_zero]

/-- The ancestors tag finds what the rest of the path finds at the closest node: the first one from
`n` upwards that is no sequence and where it finds something. At most as many steps are made as the
depth limit says. If the way up ends before, or comes back to a node that has been seen, or is
longer than that, there is nothing. With enough fuel the read ends so, as long as the limit is one
that a count can exceed. -/
theorem resolve_ancestors (r : Resolver) (hmax : r.config.maxDepth + 1 < UInt64.size) (n : ν)
    {rest : Path} (hrest : rest.splitOperation.2 = none)
    (hlimit : ∀ k m, LooksAt r rest n k m → StaysWithin r.config rest 1 m)
    (operation : Operation) (default : Option Json) :
    let path : Path := .tag .ancestors :: rest
    let o := (Resolver.resolve n path operation default r).1
    (∀ fuel, r.config.fuelFor (pathWeight path + operation.weight) + 1 < fuel →
      (Resolver.resolveIn fuel n path operation default).run r =
        some ((Resolver.resolve n path operation default).run r)) ∧
    (∀ k m, LooksAt r rest n k m → r.found m rest ≠ none →
      o = (Resolver.resolve m rest operation default r).1) ∧
    (∀ k, EndsBy r.config.maxDepth n k → (∀ j < k, FindsNothing r rest n j) →
      o = ((Resolved.absent : Resolved ν).answer r.config operation).value.or default) ∧
    ((∃ k m, LooksAt r rest n k m ∧ r.found m rest ≠ none) ∨
      ∃ k, EndsBy r.config.maxDepth n k ∧ ∀ j < k, FindsNothing r rest n j) := by
  intro path o
  let visit : ν → Guarded (Resolved ν) := fun above => walk r.config rest 1 above
  have hpath : (Path.splitOperation (.tag .ancestors :: rest)).2 = none :=
    Path.splitOperation_append (p := [.tag .ancestors]) rfl hrest
  have ho : o = ((closest visit (r.config.maxDepth + 1) [] n).value.answer
      r.config operation).value.or default := by
    rw [← walk_ancestors]
    exact congrArg Prod.fst (Resolver.resolve_run hpath n operation default r)
  have hvisit : ∀ k m, LooksAt r rest n k m →
      (visit m).value = (walk r.config rest 0 m).value := fun k m hlooks =>
    congrArg Guarded.value ((hlimit k m hlooks).walk_eq (Nat.zero_le 1)).symm
  have hpassed : ∀ k, (∀ j < k, FindsNothing r rest n j) → ∀ j < k, j ≤ r.config.maxDepth →
      (∀ i ≤ j, ¬ComesBack n i) → PassedOver visit n j := by
    intro k hnothing j hj hnear hnew m hm hkind
    have hlooks : LooksAt r rest n j m :=
      ⟨hm, hkind, hnear, hnew, fun i hi => hnothing i (Nat.lt_trans hi hj)⟩
    rw [hvisit j m hlooks]
    exact (Resolver.found_eq_none_iff hrest).mp (hnothing j hj m hm hkind)
  refine ⟨fun fuel hfuel => resolveIn_finishes r hmax path operation default fuel hfuel n,
    fun k m hlooks hfound => ?_, fun k hend hnothing => ?_, exists_looksAt r rest n⟩
  · have hwalk : (walk r.config rest 0 m).value ≠ .absent := fun habsent =>
      hfound ((Resolver.found_eq_none_iff hrest).mpr habsent)
    rw [← hvisit k m hlooks] at hwalk
    have hnew : ∀ j ≤ k, ¬Recognized [] n j := fun j hj => recognized_nil.not.mpr (hlooks.new j hj)
    have hclosest := value_closest hlooks.above (Nat.lt_succ_of_le hlooks.near) hnew
      (fun j hj => hpassed k hlooks.before j hj (Nat.le_of_lt (Nat.lt_of_lt_of_le hj hlooks.near))
        fun i hi => hlooks.new i (Nat.le_trans hi (Nat.le_of_lt hj))) hlooks.kind_ne hwalk
    rw [ho, hclosest, hvisit k m hlooks]
    exact (congrArg Prod.fst (Resolver.resolve_run hrest m operation default r)).symm
  · have hclosest : (closest visit (r.config.maxDepth + 1) [] n).value = .absent := by
      refine value_closest_absent (hend.imp_right (Or.imp recognized_nil.mpr id))
        fun j hj hleft hnew => hpassed k hnothing j hj (Nat.le_of_lt_succ hleft) fun i hi => ?_
      exact recognized_nil.not.mp (hnew i hi)
    rw [ho, hclosest]

/-- Three nodes above each other in a circle, of which the second is a sequence. The last step that
the limit allows leads to the third one, and a step more would lead back to the first. -/
theorem resolve_ancestors_ring :
    let rows : Array GraphRow := #[⟨.leaf, [], some 1, some 0, .null⟩,
      ⟨.sequence, [(.name "unit", 0)], some 2, some 1, .null⟩,
      ⟨.mapping, [(.name "unit", 3)], some 0, some 2, .null⟩, ⟨.leaf, [], none, none, .str "m"⟩]
    let n : GraphNode := ⟨rows, 0⟩
    let r : Resolver := .new { Config.default with depth := 2 }
    r.config.maxDepth + 1 < UInt64.size ∧ LooksAt r [.key "unit"] n 2 ⟨rows, 2⟩ ∧
      (Resolver.resolve n [.tag .ancestors, .key "unit"] .fetch none r).1 = some (.str "m") ∧
      (Resolver.resolve n [.tag .ancestors, .key "none"] .exists none r).1 =
        some (.bool false) := by
  intro rows n r
  have hlimit : ∀ name k m, LooksAt r [.key name] n k m → StaysWithin r.config [.key name] 1 m := by
    intro name k m _
    rw [StaysWithin, FollowsWithin]
    refine ⟨by decide, fun child _ => ?_⟩
    rw [FollowsWithin]
    trivial
  have hnew : ∀ j ≤ 2, ¬ComesBack n j := by
    rintro j hj ⟨i, hi, q, q', hq, hq', identity, hone, hother⟩
    interval_cases j <;> interval_cases i
    all_goals
      obtain rfl := Option.some.inj hq
      obtain rfl := Option.some.inj hq'
      obtain rfl := Option.some.inj hone
      exact absurd hother (by decide)
  have hnothing : ∀ name, r.found n [.key name] = none →
      ∀ j < 2, FindsNothing r [.key name] n j := by
    intro name hname j hj m hm hkind
    interval_cases j
    · obtain rfl := Option.some.inj hm
      exact hname
    · obtain rfl := Option.some.inj hm
      exact absurd rfl hkind
  have hlooks : LooksAt r [.key "unit"] n 2 ⟨rows, 2⟩ :=
    ⟨rfl, by decide, Nat.le_refl 2, hnew, hnothing "unit" (by cbv)⟩
  have hunit : r.found (⟨rows, 2⟩ : GraphNode) [.key "unit"] = some (.str "m") := by cbv
  have hnone : ∀ j < 3, FindsNothing r [.key "none"] n j := by
    intro j hj
    rcases Nat.lt_succ_iff_lt_or_eq.mp hj with hj | rfl
    · exact hnothing "none" (by cbv) j hj
    · intro m hm _
      obtain rfl := Option.some.inj hm
      cbv
  have hmax : r.config.maxDepth + 1 < UInt64.size := by decide
  obtain ⟨-, hfound, -⟩ := resolve_ancestors r hmax n rfl (hlimit "unit") .fetch none
  obtain ⟨-, -, habsent, -⟩ := resolve_ancestors r hmax n rfl (hlimit "none") .exists none
  refine ⟨hmax, hlooks, (hfound 2 _ hlooks ?_).trans hunit,
    habsent 3 (.inr (.inr (by decide))) hnone⟩
  rw [hunit]
  exact Option.some_ne_none _

end Closest

end Reads

end TreePath

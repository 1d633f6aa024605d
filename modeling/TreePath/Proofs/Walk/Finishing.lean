import TreePath.Proofs.Walk.Fuel
import TreePath.Tree.Graph

namespace TreePath

open TreeAccess

/-- The fuel that is enough for a path or a query of this weight. Each unit of the weight may be a
segment that leads up or down by itself, for as many rounds as the depth limit allows. -/
def Config.fuelFor (config : Config) (weight : Nat) : Nat := (config.maxDepth + 4) * weight

theorem Config.fuelFor_mono (config : Config) {w v : Nat} (h : w ≤ v) :
    config.fuelFor w ≤ config.fuelFor v :=
  Nat.mul_le_mul_left _ h

theorem Config.fuelFor_lt (config : Config) {w v : Nat} (h : w < v) :
    config.fuelFor w + config.maxDepth + 4 ≤ config.fuelFor v := by
  have hmul := Nat.mul_le_mul_left (config.maxDepth + 4) (Nat.succ_le_of_lt h)
  rw [Nat.mul_succ] at hmul
  exact hmul

theorem Config.fuelFor_tail (config : Config) (s : Segment) (rest : Path) :
    config.fuelFor (pathWeight rest) + config.maxDepth + 4 ≤
      config.fuelFor (pathWeight (s :: rest)) := by
  refine config.fuelFor_lt ?_
  rw [pathWeight]
  exact Nat.lt_add_of_pos_left s.weight_pos

mutual

/-- A walk finishes once there is enough fuel for the weight of its path. No count wraps around on
the way, since none goes further than one beyond the limit. -/
theorem walkIn_finishes {ν : Type} [TreeAccess ν] (config : Config)
    (hmax : config.maxDepth + 1 < UInt64.size) (path : Path) (fuel : Nat) (depth : UInt64)
    (hfuel : config.fuelFor (pathWeight path) + 1 < fuel) (n : ν) :
    (walkIn config fuel path depth n).Finishes (walk config path depth.toNat n) := by
  match fuel with
  | 0 => omega
  | fuel + 1 =>
    rw [walkIn, walk]
    simp only [config.depth_lt_iff]
    split
    · exact .trip _
    · exact followIn_finishes config hmax path fuel depth (by omega) (by omega) n
termination_by (pathWeight path, 1)

/-- One case for each kind of segment at the head of the path. -/
theorem followIn_finishes {ν : Type} [TreeAccess ν] (config : Config)
    (hmax : config.maxDepth + 1 < UInt64.size) (path : Path) (fuel : Nat) (depth : UInt64)
    (hdepth : depth.toNat ≤ config.maxDepth) (hfuel : config.fuelFor (pathWeight path) < fuel)
    (n : ν) : (followIn config fuel path depth n).Finishes (follow config path depth.toNat n) := by
  have hnext : (depth + 1).toNat = depth.toNat + 1 := toNat_succ (by omega)
  match fuel, path with
  | 0, _ => omega
  | fuel + 1, [] =>
    rw [followIn, follow]
    exact .pure _
  | fuel + 1, .key name :: rest =>
    have hrest := config.fuelFor_tail (.key name) rest
    rw [followIn, follow]
    cases lookupKey config.idField name n with
    | none => exact .pure _
    | some child => exact followIn_finishes config hmax rest fuel depth hdepth (by omega) child
  | fuel + 1, .index i :: rest =>
    have hrest := config.fuelFor_tail (.index i) rest
    rcases Path.shifted_or rest with ⟨tag, step, more, htag, rfl⟩ | hunshifted
    · rw [followIn_index_shifted htag, follow_index_shifted htag]
      cases shift? i step with
      | none => exact .pure _
      | some j =>
        have hmore := config.fuelFor_lt (w := pathWeight (.index j :: more))
          (v := pathWeight (.index i :: .tag tag :: more)) (by simp)
        exact followIn_finishes config hmax (.index j :: more) fuel depth hdepth (by omega) n
    · rw [followIn_index_unshifted hunshifted, follow_index_unshifted hunshifted]
      cases lookupIndex i n with
      | none => exact .pure _
      | some child => exact followIn_finishes config hmax rest fuel depth hdepth (by omega) child
  | fuel + 1, .slice s :: rest =>
    have hrest := config.fuelFor_tail (.slice s) rest
    rw [followIn, follow]
    split
    · exact spreadIn_finishes _ fun child =>
        walkIn_finishes config hmax rest fuel depth (by omega) child
    · exact .pure _
  | fuel + 1, .predicate query :: rest =>
    have hrest := config.fuelFor_tail (.predicate query) rest
    have hquery := config.fuelFor_lt (w := queryWeight query)
      (v := pathWeight (.predicate query :: rest)) (by simp; omega)
    rw [followIn, follow]
    split
    · refine (meetsIn_finishes config hmax query fuel (by omega) n).bind fun held => ?_
      split
      · exact walkIn_finishes config hmax rest fuel depth (by omega) n
      · exact .pure _
    · refine (Fueled.Finishes.mapM fun entry _ => ?_).bind fun marked => ?_
      · exact (meetsIn_finishes config hmax query fuel (by omega) entry.2).map fun held =>
          (entry, held)
      · exact spreadIn_finishes _ fun child =>
          walkIn_finishes config hmax rest fuel depth (by omega) child
  | fuel + 1, .tag tag :: rest =>
    have hrest := config.fuelFor_tail (.tag tag) rest
    cases tag using Tag.walk_cases with
    | parent =>
      rw [followIn, follow]
      cases parent? n with
      | none => exact .pure _
      | some p => exact followIn_finishes config hmax rest fuel depth hdepth (by omega) p
    | root =>
      rw [followIn, follow]
      refine (climbIn_finishes hmax (Nat.zero_add _) (by omega) [] n).bind fun top => ?_
      exact followIn_finishes config hmax rest fuel depth hdepth (by omega) top
    | children =>
      rw [followIn, follow]
      split
      · exact .pure _
      · exact spreadIn_finishes _ fun child =>
          walkIn_finishes config hmax rest fuel depth (by omega) child
    | descendants =>
      rw [followIn, follow]
      exact descendantsIn_finishes hmax
        (fun fuel depth hneed n => walkIn_finishes config hmax rest fuel depth hneed n)
        (by omega) (by omega) n
    | ancestors =>
      rw [followIn, follow]
      exact ancestorsIn_finishes hmax
        (fun fuel hneed n => hnext ▸ walkIn_finishes config hmax rest fuel (depth + 1) hneed n)
        (by omega) (by omega) [] n
    | siblings =>
      rw [followIn, follow]
      cases parent? n with
      | none => exact .pure _
      | some p =>
        simp only
        split
        · exact .pure _
        · exact spreadIn_finishes _ fun child =>
            walkIn_finishes config hmax rest fuel depth (by omega) child
    | passed tag htag =>
      rw [followIn_passed htag, follow_passed htag]
      exact followIn_finishes config hmax rest fuel depth hdepth (by omega) n
  | fuel + 1, .union alternatives named :: rest =>
    rw [followIn, follow, alternately_eq_mapM, ← hnext]
    refine (Fueled.Finishes.mapM fun path hpath => ?_).bind fun results => ?_
    · have hless : pathWeight path < pathsWeight alternatives := pathWeight_lt_of_mem hpath
      have hpath := config.fuelFor_lt (w := pathWeight (path ++ rest))
        (v := pathWeight (.union alternatives named :: rest)) (by simp; omega)
      exact (walkIn_finishes config hmax (path ++ rest) fuel (depth + 1) (by omega) n).map
        Resolved.slot
    · split
      · exact .pure _
      · exact .pure _
  | fuel + 1, .tuple members :: rest =>
    have hmembers := config.fuelFor_lt (w := pathWeight (members ++ rest))
      (v := pathWeight (.tuple members :: rest)) (by simp)
    rw [followIn, follow, ← hnext]
    exact walkIn_finishes config hmax (members ++ rest) fuel (depth + 1) (by omega) n
termination_by (pathWeight path, 0)

theorem meetsIn_finishes {ν : Type} [TreeAccess ν] (config : Config)
    (hmax : config.maxDepth + 1 < UInt64.size) (query : Query) (fuel : Nat)
    (hfuel : config.fuelFor (queryWeight query) < fuel) (n : ν) :
    (meetsIn config fuel query n).Finishes (meets config query n) := by
  match fuel with
  | 0 => omega
  | fuel + 1 =>
    refine meetsIn_finishes_of config n (fun entry hentry => ?_) (fun entry hentry actual => ?_)
    · have hless := entryWeight_lt_of_mem hentry
      have hpath := config.fuelFor_lt (Nat.lt_of_le_of_lt (Nat.le_add_right _ _) hless)
      exact walkIn_finishes config hmax entry.1 fuel 0 (by omega) n
    · have hless := entryWeight_lt_of_mem hentry
      have hexpected := config.fuelFor_lt (Nat.lt_of_le_of_lt (Nat.le_add_left _ _) hless)
      exact holdsIn_finishes config hmax entry.2 fuel (by omega) actual
termination_by (queryWeight query, 0)

theorem holdsIn_finishes (config : Config) (hmax : config.maxDepth + 1 < UInt64.size)
    (expected : Expected) (fuel : Nat) (hfuel : config.fuelFor expected.weight < fuel)
    (actual : Option Json) :
    (holdsIn config fuel expected actual).Finishes (holds config expected actual) := by
  match fuel, expected, actual with
  | 0, _, _ => omega
  | fuel + 1, _, none =>
    rw [holdsIn, holds]
    exact .pure _
  | fuel + 1, .value v, some actual =>
    unfold holdsIn holds
    exact .pure _
  | fuel + 1, .query q, some actual =>
    have hquery := config.fuelFor_lt (w := queryWeight q) (v := (Expected.query q).weight)
      (by simp)
    unfold holdsIn holds
    refine (meetsIn_finishes config hmax q fuel (by omega) actual).bind fun held => ?_
    split
    · exact .pure _
    · cases actual with
      | arr items => exact .anyM fun item _ => meetsIn_finishes config hmax q fuel (by omega) item
      | null | bool _ | num _ | str _ | obj _ => exact .pure _
termination_by (expected.weight, 0)

end

section Reads

variable {ν : Type} [TreeAccess ν]

/-- Only a search has a query of its own. -/
def Operation.weight : Operation → Nat
  | .search query => queryWeight query
  | _ => 0

theorem pathWeight_splitOperation_le (p : Path) :
    pathWeight p.splitOperation.1 ≤ pathWeight p := by
  have hfront : pathWeight p.dropLast ≤ pathWeight p := by
    rcases List.eq_nil_or_concat p with rfl | ⟨front, last, rfl⟩
    · exact Nat.le_refl _
    · rw [List.concat_eq_append, List.dropLast_concat, pathWeight_append]
      exact Nat.le_add_right _ _
  unfold Path.splitOperation
  split
  · split
    · exact hfront
    · exact Nat.le_refl _
  · exact Nat.le_refl _

/-- What a tag asks for at the end of a path has no query. -/
theorem Operation.weight_ofTag?_le (tag : Option Tag) (operation : Operation) :
    ((tag.bind ofTag?).getD operation).weight ≤ operation.weight := by
  cases tag with
  | none => exact Nat.le_refl _
  | some t =>
    cases t <;> first | exact Nat.le_refl _ | exact Nat.zero_le _

theorem firstMatchIn_finishes (config : Config) (hmax : config.maxDepth + 1 < UInt64.size)
    (query : Query) (fuel : Nat) (hfuel : config.fuelFor (queryWeight query) < fuel)
    (kind : NodeKind) (children : List (ChildKey × ν)) :
    (firstMatchIn config fuel query kind children).Finishes
      (Resolved.firstMatch config query kind children) :=
  Fueled.Finishes.map (.findM? fun entry _ =>
    meetsIn_finishes config hmax query fuel hfuel entry.2) _

theorem answerIn_finishes (config : Config) (hmax : config.maxDepth + 1 < UInt64.size)
    (operation : Operation) (fuel : Nat) (hfuel : config.fuelFor operation.weight < fuel)
    (r : Resolved ν) : (answerIn config fuel operation r).Finishes (r.answer config operation) := by
  cases operation with
  | search query =>
    cases r with
    | absent => rfl
    | node n => exact firstMatchIn_finishes config hmax query fuel hfuel (kind n) (entries n)
    | value v => exact firstMatchIn_finishes config hmax query fuel hfuel v.kind v.children
  | fetch | «exists» | count | keys | isLeaf | isList | isDict | call _ | apply _ => rfl

theorem Resolver.fueled_finishes {α : Type} {f : Config → Fueled α} {g : Config → Guarded α}
    {r : Resolver} (h : (f r.config).Finishes (g r.config)) :
    (Resolver.fueled f).run r = some ((Resolver.guarded g).run r) := by
  have hrun : (f r.config).run = some <$> g r.config := congrArg OptionT.run h
  unfold Resolver.fueled
  rw [StateT.run_bind, StateT.run_get, pure_bind, hrun]
  rfl

theorem resolveIn_finishes (r : Resolver) (hmax : r.config.maxDepth + 1 < UInt64.size)
    (path : Path) (operation : Operation) (default : Option Json) (fuel : Nat)
    (hfuel : r.config.fuelFor (pathWeight path + operation.weight) + 1 < fuel) (n : ν) :
    (Resolver.resolveIn fuel n path operation default).run r =
      some ((Resolver.resolve n path operation default).run r) := by
  let target : Path := path.splitOperation.1
  let asked : Operation := (path.splitOperation.2.bind Operation.ofTag?).getD operation
  let counted : Resolver := { r with stats := r.stats.countLookup }
  have htarget : r.config.fuelFor (pathWeight target) + 1 < fuel := by
    have hweight : pathWeight target ≤ pathWeight path := pathWeight_splitOperation_le path
    have hless : r.config.fuelFor (pathWeight target) ≤
        r.config.fuelFor (pathWeight path + operation.weight) :=
      r.config.fuelFor_mono (Nat.le_add_right_of_le hweight)
    omega
  have hasked : r.config.fuelFor asked.weight < fuel := by
    have hweight : asked.weight ≤ operation.weight := Operation.weight_ofTag?_le _ operation
    have hless : r.config.fuelFor asked.weight ≤
        r.config.fuelFor (pathWeight path + operation.weight) :=
      r.config.fuelFor_mono (Nat.le_add_left_of_le hweight)
    omega
  have hread : (walkIn r.config fuel target 0 n >>= answerIn r.config fuel asked).Finishes
      (walk r.config target 0 n >>= Resolved.answer r.config asked) :=
    (walkIn_finishes r.config hmax target fuel 0 htarget n).bind fun found =>
      answerIn_finishes r.config hmax asked fuel hasked found
  have hrun : (Resolver.fueled fun config =>
        walkIn config fuel target 0 n >>= answerIn config fuel asked).run counted =
      some ((Resolver.guarded fun config =>
        walk config target 0 n >>= Resolved.answer config asked).run counted) :=
    Resolver.fueled_finishes hread
  exact congrArg (fun x => x >>= fun (answer, s) => some (answer.or default, s)) hrun

/-- Walks, answers and matches come to an end at every node of every tree, and to what they come to
without any fuel. The limit is any that a count can exceed: the largest word is none, and up an
endless chain of parents without identities, say, a walk with it would have no end. -/
theorem reads_finish (r : Resolver) (hmax : r.config.maxDepth + 1 < UInt64.size) (n : ν) :
    (∀ (path : Path) (depth : UInt64) (fuel : Nat),
      r.config.fuelFor (pathWeight path) + 1 < fuel →
      walkIn r.config fuel path depth n = OptionT.lift (walk r.config path depth.toNat n)) ∧
    (∀ path operation default fuel,
      r.config.fuelFor (pathWeight path + operation.weight) + 1 < fuel →
      (Resolver.resolveIn fuel n path operation default).run r =
        some ((Resolver.resolve n path operation default).run r)) ∧
    (∀ query fuel, r.config.fuelFor (queryWeight query) < fuel →
      (Resolver.isMatchIn fuel n query).run r = some ((Resolver.isMatch n query).run r)) := by
  refine ⟨fun path depth fuel hfuel => ?_, fun path operation default fuel hfuel => ?_,
    fun query fuel hfuel => ?_⟩
  · exact walkIn_finishes r.config hmax path fuel depth hfuel n
  · exact resolveIn_finishes r hmax path operation default fuel hfuel n
  · exact Resolver.fueled_finishes (meetsIn_finishes r.config hmax query fuel hfuel n)

end Reads

/-- A mapping that is its own child and its own parent: there is no end below it, nor above. -/
theorem reads_finish_circular :
    let n : GraphNode := ⟨#[⟨.mapping, [(.name "a", 0)], some 0, none, .str "x"⟩], 0⟩
    let r : Resolver := Resolver.new { Config.default with depth := 2 }
    let path : Path := [.tag .root, .tag .descendants]
    let bottom : Json := .obj [("a", .obj [("a", .obj [("a", .null)])])]
    r.config.maxDepth + 1 < UInt64.size ∧ walk r.config path 0 n = ⟨.value bottom, 2⟩ ∧
      ((Resolver.resolve n path .count none).run r).1 = some (.ofNat 1) ∧
      ((Resolver.isMatch n [(path, .value bottom)]).run r).1 = true := by
  intro n r path bottom
  have hmax : r.config.maxDepth + 1 < UInt64.size := by decide
  obtain ⟨hwalk, hresolve, hmatch⟩ := reads_finish r hmax n
  have hfound : some <$> walk r.config path 0 n = (⟨some (.value bottom), 2⟩ : Guarded _) :=
    (hwalk path 0 14 (by decide)).symm
  have htrips := congrArg Guarded.trips hfound
  have hcount := congrArg (Option.map Prod.fst) (hresolve path .count none 14 (by decide))
  have hheld := congrArg (Option.map Prod.fst)
    (hmatch [(path, .value bottom)] 19 (by decide))
  refine ⟨hmax, Guarded.eq_of (Option.some.inj (congrArg Guarded.value hfound)) htrips, ?_, ?_⟩
  · exact (Option.some.inj hcount).symm
  · exact (Option.some.inj hheld).symm

end TreePath

import TreePath.Proofs.Walk.Head
import TreePath.Resolver.Basic

namespace TreePath

open TreeAccess

/-- Guarded walks that finish or run out of fuel. -/
abbrev Fueled := OptionT Guarded

section Loops

variable {ν : Type} [TreeAccess ν]

/-- Visits each of the children. -/
def spreadIn (kind : NodeKind) (children : List (ChildKey × ν))
    (visit : ν → Fueled (Resolved ν)) : Fueled (Resolved ν) := do
  let results ← children.mapM fun (key, child) => return (key, (← visit child).slot)
  return .value (assemble kind results)

/-- What a query compares: the candidate itself, or what is found at the end of the path. -/
def actualIn (path : Path) (n : ν) (found : Fueled (Resolved ν)) : Fueled (Option Json) :=
  if path.isRoot then return some (toJson n) else return (← found).toJson?

/-- Goes up from node to node until there is no parent, until a parent has been seen before, or
until the steps exceed the depth limit. -/
def climbIn (config : Config) (fuel : Nat) (seen : List Identity) (steps : UInt64) (n : ν) :
    Fueled ν :=
  match fuel with
  | 0 => failure
  | fuel + 1 =>
    match parent? n with
    | none => return n
    | some p =>
      if isRevisited seen p then OptionT.lift (Guarded.trip n)
      else if config.depth < steps + 1 then OptionT.lift (Guarded.trip n)
      else climbIn config fuel (see seen p) (steps + 1) p

end Loops

mutual

/-- Follows a path from a node. Depths and steps are counted in machine words here. -/
def walkIn {ν : Type} [TreeAccess ν] (config : Config) (fuel : Nat) (path : Path)
    (depth : UInt64) (n : ν) : Fueled (Resolved ν) :=
  match fuel with
  | 0 => failure
  | fuel + 1 =>
    if config.depth < depth then OptionT.lift (Guarded.trip .absent)
    else followIn config fuel path depth n
termination_by structural fuel

/-- Takes one segment after the other. -/
def followIn {ν : Type} [TreeAccess ν] (config : Config) (fuel : Nat) (path : Path)
    (depth : UInt64) (n : ν) : Fueled (Resolved ν) :=
  match fuel with
  | 0 => failure
  | fuel + 1 =>
    match path with
    | [] => return .node n
    | .key name :: rest =>
      match lookupKey config.idField name n with
      | some child => followIn config fuel rest depth child
      | none => return .absent
    | .index i :: .tag .next :: rest =>
      match shift? i 1 with
      | some i => followIn config fuel (.index i :: rest) depth n
      | none => return .absent
    | .index i :: .tag .prev :: rest =>
      match shift? i (-1) with
      | some i => followIn config fuel (.index i :: rest) depth n
      | none => return .absent
    | .index i :: rest =>
      match lookupIndex i n with
      | some child => followIn config fuel rest depth child
      | none => return .absent
    | .slice s :: rest =>
      if kind n = .sequence then
        let children := (s.indices (size n)).filterMap fun i =>
          (child? n (.index i)).map fun child => (.index i, child)
        spreadIn .sequence children fun child => walkIn config fuel rest depth child
      else return .absent
    | .predicate query :: rest =>
      if kind n = .leaf then do
        if ← meetsIn config fuel query n then walkIn config fuel rest depth n
        else return .absent
      else do
        let marked ← (entries n).mapM fun entry =>
          return (entry, ← meetsIn config fuel query entry.2)
        let children := (marked.filter (·.2)).map (·.1)
        spreadIn (kind n) children fun child => walkIn config fuel rest depth child
    | .tag .parent :: rest =>
      match parent? n with
      | some p => followIn config fuel rest depth p
      | none => return .absent
    | .tag .root :: rest => do
      let top ← climbIn config fuel [] 0 n
      followIn config fuel rest depth top
    | .tag .children :: rest =>
      if kind n = .leaf then return .absent
      else spreadIn (kind n) (entries n) fun child => walkIn config fuel rest depth child
    | .tag .descendants :: rest => descendantsIn config fuel rest depth n
    | .tag .ancestors :: rest => ancestorsIn config fuel rest depth [] depth n
    | .tag .siblings :: rest =>
      match parent? n with
      | some p =>
        if kind p = .leaf then return .value (.arr [])
        else spreadIn (kind p) (siblings n p) fun child => walkIn config fuel rest depth child
      | none => return .value (.arr [])
    | .tag _ :: rest => followIn config fuel rest depth n
    | .union alternatives named :: rest => do
      let results ← alternatives.mapM fun path =>
        return (← walkIn config fuel (path ++ rest) (depth + 1) n).slot
      if named then
        let labels := alternatives.map Path.toText
        return .value (.obj (Fields.ofList (labels.zip results)))
      else return .value (.arr results)
    | .tuple members :: rest => walkIn config fuel (members ++ rest) (depth + 1) n
termination_by structural fuel

/-- Goes down to the leaves, and follows the rest of the path from each of them. -/
def descendantsIn {ν : Type} [TreeAccess ν] (config : Config) (fuel : Nat) (rest : Path)
    (depth : UInt64) (n : ν) : Fueled (Resolved ν) :=
  match fuel with
  | 0 => failure
  | fuel + 1 =>
    if config.depth < depth then OptionT.lift (Guarded.trip .absent)
    else if kind n = .leaf then walkIn config fuel rest (depth + 1) n
    else spreadIn (kind n) (entries n) fun child =>
      descendantsIn config fuel rest (depth + 1) child
termination_by structural fuel

/-- Goes up from node to node until the rest of the path leads to something. -/
def ancestorsIn {ν : Type} [TreeAccess ν] (config : Config) (fuel : Nat) (rest : Path)
    (depth : UInt64) (seen : List Identity) (steps : UInt64) (n : ν) : Fueled (Resolved ν) :=
  match fuel with
  | 0 => failure
  | fuel + 1 =>
    if isRevisited seen n then OptionT.lift (Guarded.trip .absent)
    else if config.depth < steps then OptionT.lift (Guarded.trip .absent)
    else do
      let found ← if kind n = .sequence then pure .absent
        else walkIn config fuel rest (depth + 1) n
      match found with
      | .absent =>
        match parent? n with
        | some p => ancestorsIn config fuel rest depth (see seen n) (steps + 1) p
        | none => return .absent
      | found => return found
termination_by structural fuel

/-- Whether all entries of a query hold at a candidate. -/
def meetsIn {ν : Type} [TreeAccess ν] (config : Config) (fuel : Nat) (query : Query) (n : ν) :
    Fueled Bool :=
  match fuel with
  | 0 => failure
  | fuel + 1 => query.allM fun entry => do
    let actual ← actualIn entry.1 n (walkIn config fuel entry.1 0 n)
    holdsIn config fuel entry.2 actual
termination_by structural fuel

/-- Whether what was found is what was expected, or a sequence with it as an element. -/
def holdsIn (config : Config) (fuel : Nat) (expected : Expected) (actual : Option Json) :
    Fueled Bool :=
  match fuel with
  | 0 => failure
  | fuel + 1 =>
    match expected, actual with
    | _, none => return false
    | .value v, some actual =>
      return actual.same v ||
        (match actual with | .arr items => items.any (·.same v) | _ => false)
    | .query q, some actual => do
      if ← meetsIn config fuel q actual then return true
      match actual with
      | .arr items => items.anyM fun item => meetsIn config fuel q item
      | _ => return false
termination_by structural fuel

end

section Head

variable {ν : Type} [TreeAccess ν] {config : Config} {fuel : Nat} {i : Int64} {rest : Path}
  {depth : UInt64} {n : ν}

theorem followIn_index_shifted {t : Tag} {step : Int} (ht : t.stride? = some step) :
    followIn config (fuel + 1) (.index i :: .tag t :: rest) depth n =
      match shift? i step with
      | some j => followIn config fuel (.index j :: rest) depth n
      | none => return .absent := by
  rcases t.eq_of_stride? ht with ⟨rfl, rfl⟩ | ⟨rfl, rfl⟩
  all_goals rfl

theorem followIn_index_unshifted (hrest : rest.StartsUnshifted) :
    followIn config (fuel + 1) (.index i :: rest) depth n =
      match lookupIndex i n with
      | some child => followIn config fuel rest depth child
      | none => return .absent := by
  rw [followIn]
  · exact fun more => (hrest more).1
  · exact fun more => (hrest more).2

theorem followIn_passed {t : Tag} (ht : t.isPassed = true) :
    followIn config (fuel + 1) (.tag t :: rest) depth n = followIn config fuel rest depth n := by
  rw [followIn]
  all_goals
    rintro rfl
    cases ht

end Head

section Answers

variable {ν : Type} [TreeAccess ν]

def firstMatchIn (config : Config) (fuel : Nat) (query : Query) (kind : NodeKind)
    (children : List (ChildKey × ν)) : Fueled (Option Json) := do
  let found ← children.findM? fun entry => meetsIn config fuel query entry.2
  return found.map fun entry => keyValue kind entry.1

/-- The answer of an operation to where a walk has ended. A search is the only one that walks on. -/
def answerIn (config : Config) (fuel : Nat) (operation : Operation) (r : Resolved ν) :
    Fueled (Option Json) :=
  match operation, r with
  | .search query, .node n => firstMatchIn config fuel query (kind n) (entries n)
  | .search query, .value v => firstMatchIn config fuel query v.kind v.children
  | operation, r => OptionT.lift (r.answer config operation)

namespace Resolver

/-- A walk by the settings of the resolver, with nothing to come back to when it does not finish. -/
def fueled {α : Type} (f : Config → Fueled α) : StateT Resolver Option α := do
  let x := (f (← get).config).run
  modify fun r => { r with stats := r.stats.countTrips x.trips }
  StateT.lift x.value

def resolveIn (fuel : Nat) (n : ν) (path : Path) (operation : Operation)
    (default : Option Json) : StateT Resolver Option (Option Json) := do
  modify fun r => { r with stats := r.stats.countLookup }
  let (target, tag) := path.splitOperation
  let operation := (tag.bind Operation.ofTag?).getD operation
  let answer ← fueled fun config => do
    let found ← walkIn config fuel target 0 n
    answerIn config fuel operation found
  return answer.or default

def isMatchIn (fuel : Nat) (n : ν) (query : Query) : StateT Resolver Option Bool :=
  fueled fun config => meetsIn config fuel query n

end Resolver

end Answers

/-- The read finishes with what the walk comes to, and with as many trips of the guard. -/
def Fueled.Finishes {α : Type} (x : Fueled α) (y : Guarded α) : Prop := x = OptionT.lift y

namespace Fueled.Finishes

variable {α β : Type}

theorem pure (a : α) : Finishes (Pure.pure a) (Pure.pure a) := rfl

theorem trip (a : α) : Finishes (OptionT.lift (Guarded.trip a)) (Guarded.trip a) := rfl

theorem bind {x : Fueled α} {y : Guarded α} {f : α → Fueled β} {g : α → Guarded β}
    (hx : x.Finishes y) (hf : ∀ a, (f a).Finishes (g a)) : (x >>= f).Finishes (y >>= g) := by
  obtain rfl := hx
  obtain rfl : f = fun a => OptionT.lift (g a) := funext hf
  refine Guarded.eq_of rfl ?_
  change y.trips + 0 + ((g y.value).trips + 0) = y.trips + (g y.value).trips + 0
  omega

theorem map {x : Fueled α} {y : Guarded α} (hx : x.Finishes y) (f : α → β) :
    Finishes (do return f (← x)) (do return f (← y)) :=
  hx.bind fun _ => .pure _

theorem mapM {f : α → Fueled β} {g : α → Guarded β} {xs : List α}
    (hf : ∀ x ∈ xs, (f x).Finishes (g x)) : (xs.mapM f).Finishes (xs.mapM g) := by
  induction xs with
  | nil => exact .pure []
  | cons x rest ih =>
    rw [List.mapM_cons, List.mapM_cons]
    refine (hf x List.mem_cons_self).bind fun b => ?_
    refine (ih fun y hy => hf y (List.mem_cons_of_mem _ hy)).bind fun bs => .pure _

theorem and {x : Fueled Bool} {y : Guarded Bool} (hx : x.Finishes y) (held : Bool) :
    Finishes (match held with
      | true => x
      | false => return false) (if held then y else return false) := by
  cases held with
  | false => exact .pure false
  | true => exact hx

theorem anyM {f : α → Fueled Bool} {g : α → Guarded Bool} {xs : List α}
    (hf : ∀ x ∈ xs, (f x).Finishes (g x)) : (xs.anyM f).Finishes (xs.anyM g) := by
  induction xs with
  | nil => exact .pure false
  | cons x rest ih =>
    rw [List.anyM, List.anyM]
    refine (hf x List.mem_cons_self).bind fun b => ?_
    cases b with
    | true => exact .pure true
    | false => exact ih fun y hy => hf y (List.mem_cons_of_mem _ hy)

theorem findM? {f : α → Fueled Bool} {g : α → Guarded Bool} {xs : List α}
    (hf : ∀ x ∈ xs, (f x).Finishes (g x)) : (xs.findM? f).Finishes (xs.findM? g) := by
  induction xs with
  | nil => exact .pure none
  | cons x rest ih =>
    rw [List.findM?, List.findM?]
    refine (hf x List.mem_cons_self).bind fun b => ?_
    cases b with
    | true => exact .pure (some x)
    | false => exact ih fun y hy => hf y (List.mem_cons_of_mem _ hy)

end Fueled.Finishes

section Lists

variable {ν : Type} [TreeAccess ν]

theorem spreadIn_finishes (kind : NodeKind) {children : List (ChildKey × ν)}
    {visit : ν → Fueled (Resolved ν)} {visit' : ν → Guarded (Resolved ν)}
    (hvisit : ∀ n, (visit n).Finishes (visit' n)) :
    (spreadIn kind children visit).Finishes (spread kind children visit') := by
  refine .bind (.mapM fun (key, child) _ => ?_) fun results => .pure _
  exact (hvisit child).map fun found => (key, found.slot)

/-- The alternatives are followed like the elements of any other list. -/
theorem alternately_eq_mapM (config : Config) (alternatives : List Path) (rest : Path)
    (depth : Nat) (n : ν) :
    alternately config alternatives rest depth n =
      alternatives.mapM fun path => do return (← walk config (path ++ rest) depth n).slot := by
  induction alternatives with
  | nil =>
    rw [alternately]
    rfl
  | cons path more ih =>
    rw [alternately, ih, List.mapM_cons]
    simp only [bind_assoc, pure_bind]

theorem actualIn_finishes {β : Type} (path : Path) (n : ν) {found : Fueled (Resolved ν)}
    {found' : Guarded (Resolved ν)} {next : Option Json → Fueled β}
    {next' : Option Json → Guarded β} (hfound : found.Finishes found')
    (hnext : ∀ actual, (next actual).Finishes (next' actual)) :
    (actualIn path n found >>= next).Finishes
      (if path.isRoot then pure (some (toJson n)) >>= next'
        else found' >>= fun found => pure found.toJson? >>= next') := by
  unfold actualIn
  split
  · exact .bind (.pure _) hnext
  · rw [bind_assoc]
    exact hfound.bind fun r => .bind (.pure _) hnext

/-- The entries of a query are asked one after the other, until one of them does not hold. -/
theorem meetsIn_finishes_of (config : Config) {fuel : Nat} {query : Query} (n : ν)
    (hwalk : ∀ entry ∈ query,
      (walkIn config fuel entry.1 0 n).Finishes (walk config entry.1 0 n))
    (hholds : ∀ entry ∈ query, ∀ actual,
      (holdsIn config fuel entry.2 actual).Finishes (holds config entry.2 actual)) :
    (meetsIn config (fuel + 1) query n).Finishes (meets config query n) := by
  rw [meetsIn]
  induction query with
  | nil =>
    rw [List.allM, meets]
    exact .pure true
  | cons entry rest ih =>
    have hrest := ih (fun entry h => hwalk entry (List.mem_cons_of_mem _ h))
      (fun entry h => hholds entry (List.mem_cons_of_mem _ h))
    rw [List.allM, meets, bind_assoc]
    exact actualIn_finishes entry.1 n (hwalk entry List.mem_cons_self) fun actual =>
      (hholds entry List.mem_cons_self actual).bind hrest.and

end Lists

section Rounds

variable {ν : Type} [TreeAccess ν] {config : Config} {rest : Path} {need fuel left : Nat}
  {depth steps : UInt64}

theorem Config.depth_lt_iff (config : Config) (count : UInt64) :
    config.depth < count ↔ config.maxDepth < count.toNat := UInt64.lt_iff_toNat_lt

theorem toNat_succ {count : UInt64} (hcount : count.toNat + 1 < UInt64.size) :
    (count + 1).toNat = count.toNat + 1 := by
  rw [UInt64.toNat_add]
  exact Nat.mod_eq_of_lt hcount

theorem climbIn_finishes (hmax : config.maxDepth + 1 < UInt64.size)
    (hsteps : steps.toNat + left = config.maxDepth) (hfuel : left < fuel) (seen : List Identity)
    (n : ν) : (climbIn config fuel seen steps n).Finishes (climb left seen n) := by
  induction left generalizing fuel steps seen n with
  | zero =>
    obtain ⟨fuel, rfl⟩ := Nat.exists_eq_add_of_lt hfuel
    have hnext : (steps + 1).toNat = steps.toNat + 1 := toNat_succ (by omega)
    have hover : config.depth < steps + 1 := by rw [config.depth_lt_iff]; omega
    rw [Nat.zero_add, climbIn, climb]
    cases parent? n with
    | none => exact .pure n
    | some p =>
      simp only [if_pos hover, ite_self]
      exact .trip n
  | succ left ih =>
    obtain ⟨fuel, rfl⟩ := Nat.exists_eq_add_of_lt hfuel
    have hnext : (steps + 1).toNat = steps.toNat + 1 := toNat_succ (by omega)
    have hwithin : ¬config.depth < steps + 1 := by rw [config.depth_lt_iff]; omega
    rw [climbIn, climb]
    cases parent? n with
    | none => exact .pure n
    | some p =>
      simp only [if_neg hwithin]
      split
      · exact .trip n
      · exact ih (by omega) (by omega) _ _

theorem descendantsIn_finishes (hmax : config.maxDepth + 1 < UInt64.size)
    (hwalk : ∀ fuel depth, need ≤ fuel → ∀ n : ν,
      (walkIn config fuel rest depth n).Finishes (walk config rest depth.toNat n))
    (hdepth : depth.toNat + left = config.maxDepth + 1) (hfuel : left + need < fuel) (n : ν) :
    (descendantsIn config fuel rest depth n).Finishes
      (atLeaves (fun depth leaf => walk config rest depth leaf) left depth.toNat n) := by
  induction left generalizing fuel depth n with
  | zero =>
    obtain ⟨fuel, rfl⟩ := Nat.exists_eq_add_of_lt hfuel
    have hover : config.depth < depth := by rw [config.depth_lt_iff]; omega
    rw [descendantsIn, atLeaves, if_pos hover]
    exact .trip _
  | succ left ih =>
    obtain ⟨fuel, rfl⟩ := Nat.exists_eq_add_of_lt hfuel
    have hwithin : ¬config.depth < depth := by rw [config.depth_lt_iff]; omega
    have hnext : (depth + 1).toNat = depth.toNat + 1 := toNat_succ (by omega)
    rw [descendantsIn, atLeaves, if_neg hwithin, ← hnext]
    split
    · exact hwalk _ _ (by omega) n
    · exact spreadIn_finishes _ fun child => ih (by omega) (by omega) child

/-- Where nothing is found the parents are asked. -/
theorem orAboveIn_finishes {found : Fueled (Resolved ν)} {found' : Guarded (Resolved ν)}
    {above : ν → Fueled (Resolved ν)} {above' : ν → Guarded (Resolved ν)} (n : ν)
    (hfound : found.Finishes found') (habove : ∀ p, (above p).Finishes (above' p)) :
    Fueled.Finishes
      (found >>= fun found => match found with
        | .absent => match parent? n with
          | some p => above p
          | none => pure .absent
        | found => pure found)
      (found' >>= fun found => match found with
        | .absent => match parent? n with
          | some p => above' p
          | none => pure .absent
        | found => pure found) := by
  refine hfound.bind fun found => ?_
  cases found with
  | absent =>
    cases parent? n with
    | none => exact .pure _
    | some p => exact habove p
  | node m => exact .pure _
  | value v => exact .pure _

theorem ancestorsIn_finishes {visit : ν → Guarded (Resolved ν)}
    (hmax : config.maxDepth + 1 < UInt64.size)
    (hvisit : ∀ fuel, need ≤ fuel → ∀ n,
      (walkIn config fuel rest (depth + 1) n).Finishes (visit n))
    (hsteps : steps.toNat + left = config.maxDepth + 1) (hfuel : left + need < fuel)
    (seen : List Identity) (n : ν) :
    (ancestorsIn config fuel rest depth seen steps n).Finishes (closest visit left seen n) := by
  induction left generalizing fuel steps seen n with
  | zero =>
    obtain ⟨fuel, rfl⟩ := Nat.exists_eq_add_of_lt hfuel
    have hover : config.depth < steps := by rw [config.depth_lt_iff]; omega
    rw [ancestorsIn, closest, if_pos hover]
    split
    · exact .trip _
    · exact .trip _
  | succ left ih =>
    obtain ⟨fuel, rfl⟩ := Nat.exists_eq_add_of_lt hfuel
    have hwithin : ¬config.depth < steps := by rw [config.depth_lt_iff]; omega
    have hnext : (steps + 1).toNat = steps.toNat + 1 := toNat_succ (by omega)
    rw [ancestorsIn, closest, if_neg hwithin]
    split
    · exact .trip _
    · have habove (p : ν) : (ancestorsIn config (left + 1 + need + fuel) rest depth (see seen n)
            (steps + 1) p).Finishes (closest visit left (see seen n) p) :=
        ih (by omega) (by omega) (see seen n) p
      simp only
      split
      · exact orAboveIn_finishes n (.pure _) habove
      · exact orAboveIn_finishes n (hvisit _ (by omega) n) habove

end Rounds

end TreePath

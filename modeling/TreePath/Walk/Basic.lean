import TreePath.Config
import TreePath.Path.Printer
import TreePath.Walk.Steps

namespace TreePath

open TreeAccess

/-- The position next to another one in the direction of a tag, unless it is out of range. -/
def shift? (position : Int64) (step : Int) : Option Int64 :=
  let i := position.toInt + step
  if Int64.minValue.toInt ≤ i ∧ i ≤ Int64.maxValue.toInt then some (Int64.ofInt i) else none

mutual

/-- Follows a path from a node. Paths inside of segments, and walks that go up or down by
themselves, are one level deeper; below the depth limit there is nothing. -/
def walk {ν : Type} [TreeAccess ν] (config : Config) (path : Path) (depth : Nat) (n : ν) :
    Guarded (Resolved ν) :=
  if config.maxDepth < depth then Guarded.trip .absent else follow config path depth n
termination_by (pathWeight path, 1)

def follow {ν : Type} [TreeAccess ν] (config : Config) (path : Path) (depth : Nat) (n : ν) :
    Guarded (Resolved ν) :=
  match path with
  | [] => return .node n
  | .key name :: rest =>
    match lookupKey config.idField name n with
    | some child => follow config rest depth child
    | none => return .absent
  | .index i :: .tag .next :: rest =>
    match shift? i 1 with
    | some i => follow config (.index i :: rest) depth n
    | none => return .absent
  | .index i :: .tag .prev :: rest =>
    match shift? i (-1) with
    | some i => follow config (.index i :: rest) depth n
    | none => return .absent
  | .index i :: rest =>
    match lookupIndex i n with
    | some child => follow config rest depth child
    | none => return .absent
  | .slice s :: rest =>
    if kind n = .sequence then
      let children := (s.indices (size n)).filterMap fun i =>
        (child? n (.index i)).map fun child => (.index i, child)
      spread .sequence children fun child => walk config rest depth child
    else return .absent
  | .predicate query :: rest =>
    if kind n = .leaf then do
      if ← meets config query n then walk config rest depth n else return .absent
    else do
      let marked ← (entries n).mapM fun entry => return (entry, ← meets config query entry.2)
      let children := (marked.filter (·.2)).map (·.1)
      spread (kind n) children fun child => walk config rest depth child
  | .tag .parent :: rest =>
    match parent? n with
    | some p => follow config rest depth p
    | none => return .absent
  | .tag .root :: rest => do
    let top ← climb config.maxDepth [] n
    follow config rest depth top
  | .tag .children :: rest =>
    if kind n = .leaf then return .absent
    else spread (kind n) (entries n) fun child => walk config rest depth child
  | .tag .descendants :: rest =>
    atLeaves (fun depth leaf => walk config rest depth leaf) (config.maxDepth + 1 - depth) depth n
  | .tag .ancestors :: rest =>
    closest (fun above => walk config rest (depth + 1) above) (config.maxDepth + 1 - depth) [] n
  | .tag .siblings :: rest =>
    match parent? n with
    | some p =>
      if kind p = .leaf then return .value (.arr [])
      else spread (kind p) (siblings n p) fun child => walk config rest depth child
    | none => return .value (.arr [])
  | .tag _ :: rest => follow config rest depth n
  | .union alternatives named :: rest => do
    let results ← alternately config alternatives rest (depth + 1) n
    if named then
      let labels := alternatives.map Path.toText
      return .value (.obj (Fields.ofList (labels.zip results)))
    else return .value (.arr results)
  | .tuple members :: rest => walk config (members ++ rest) (depth + 1) n
termination_by (pathWeight path, 0)

/-- The results of several paths, each of them continued by `rest`. -/
def alternately {ν : Type} [TreeAccess ν] (config : Config) (alternatives : List Path) (rest : Path)
    (depth : Nat) (n : ν) : Guarded (List Json) :=
  match alternatives with
  | [] => return []
  | path :: more => do
    let result ← walk config (path ++ rest) depth n
    let results ← alternately config more rest depth n
    return result.slot :: results
termination_by (pathsWeight alternatives + pathWeight rest, 0)

/-- Whether all entries of a query hold at a candidate. -/
def meets {ν : Type} [TreeAccess ν] (config : Config) (query : Query) (n : ν) : Guarded Bool :=
  match query with
  | [] => return true
  | (path, expected) :: rest => do
    let actual ← if path.isRoot then pure (some (toJson n)) else do
      let found ← walk config path 0 n
      pure found.toJson?
    if ← holds config expected actual then meets config rest n else return false
termination_by (queryWeight query, 0)

/-- Whether what was found is what was expected, or a sequence with it as an element. -/
def holds (config : Config) (expected : Expected) (actual : Option Json) : Guarded Bool :=
  match expected, actual with
  | _, none => return false
  | .value v, some actual =>
    return actual.same v || (match actual with | .arr items => items.any (·.same v) | _ => false)
  | .query q, some actual => do
    if ← meets config q actual then return true
    match actual with
    | .arr items => items.anyM fun item => meets config q item
    | _ => return false
termination_by (expected.weight, 0)

end

end TreePath

import TreePath.Resolver.Cache
import TreePath.Walk.Operation
import TreePath.Write.Basic

namespace TreePath

/-- The settings, the cache of parsed paths and the counters that reads and writes share. -/
structure Resolver where
  config : Config
  cache : Cache
  stats : Stats

/-- Steps that use a resolver and may fail; the resolver keeps what it has counted and remembered
before a failure. -/
abbrev Resolving := ExceptT PathError (StateM Resolver)

/-- What a write leaves: what was done or the error, and the tree in either case. -/
abbrev Written (τ α : Type) := Except PathError α × τ

/-- What stands for a path: a text, which is to be parsed, or the path itself. -/
inductive PathSource where
  | text (t : String)
  | path (p : Path)

namespace Resolver

/-- A resolver whose cache lets entries go in a given order. -/
def evicting (eviction : Eviction) (config : Config) : Resolver where
  config := config
  cache := .new config.cacheEnabled config.cacheCapacity eviction
  stats := .zero

def new (config : Config) : Resolver := evicting .oldest config

def tryNew (config : Config) : Except PathError Resolver :=
  match config.validate with
  | .ok _ => .ok (new config)
  | .error e => .error (.config e)

instance : Inhabited Resolver := ⟨new .default⟩

def count (f : Stats → Stats) : StateM Resolver Unit :=
  modify fun r => { r with stats := f r.stats }

def guarded {α : Type} (f : Config → Guarded α) : StateM Resolver α := do
  let x := f (← get).config
  count fun s => s.countTrips x.trips
  return x.value

def clearCache : StateM Resolver Unit := modify fun r => { r with cache := r.cache.clear }

/-- The path that a source stands for. A text is looked up in the cache before it is parsed. -/
def compile (source : PathSource) : Resolving Path := do
  match source with
  | .path p => return p
  | .text t =>
    match (← get).cache.get? t with
    | some p =>
      count Stats.countCacheHit
      return p
    | none =>
      let p ← Path.parse t
      count Stats.countParse
      modify fun r => { r with cache := r.cache.insert t p }
      return p

variable {ν τ : Type} [TreeAccess ν] [TreeUpdate τ]

/-- The answer of an operation to the place that a path leads to, or else the default. An operation
tag at the end of the path takes the place of the operation; a tag that writes is passed over. -/
def resolve (n : ν) (path : Path) (operation : Operation) (default : Option Json) :
    StateM Resolver (Option Json) := do
  count Stats.countLookup
  let (target, tag) := path.splitOperation
  let operation := (tag.bind Operation.ofTag?).getD operation
  let answer ← guarded fun config => do
    let found ← walk config target 0 n
    found.answer config operation
  return answer.or default

def find (n : ν) (source : PathSource) : Resolving (Option Json) := do
  resolve n (← compile source) .fetch none

def getD (n : ν) (source : PathSource) (default : Json) : Resolving Json := do
  let found ← resolve n (← compile source) .fetch (some default)
  return found.getD .null

def has (n : ν) (source : PathSource) : Resolving Bool := do
  let found ← resolve n (← compile source) .exists none
  return (found.bind Json.asBool?).getD false

/-- The number of children at a path; one for a leaf and zero for nothing. -/
def countAt (n : ν) (source : PathSource) : Resolving Nat := do
  let found ← resolve n (← compile source) .count none
  return (found.bind Json.asNat?).getD 0

def keys (n : ν) (source : PathSource) : Resolving (List Json) := do
  let found ← resolve n (← compile source) .keys none
  return (found.bind Json.asArray?).getD []

/-- The name or position of the first child at a path that matches a query. -/
def search (n : ν) (source : PathSource) (query : Query) : Resolving (Option Json) := do
  resolve n (← compile source) (.search query) none

def call (n : ν) (source : PathSource) (args : List Json) : Resolving (Option Json) := do
  resolve n (← compile source) (.call args) none

/-- Where a path leads to. Operation tags have no effect here. -/
def reach (n : ν) (path : Path) : StateM Resolver (Resolved ν) := do
  count Stats.countLookup
  guarded fun config => walk config path 0 n

def entries (n : ν) (source : PathSource) : Resolving (List (ChildKey × Json)) := do
  return (← reach n (← compile source)).entries

def locate (n : ν) (source : PathSource) : Resolving (Option ν) := do
  return (← reach n (← compile source)).node?

def isMatch (n : ν) (query : Query) : StateM Resolver Bool :=
  guarded fun config => meets config query n

/-- Carries out a patch at a path. The tree comes back beside the count or the error. -/
def writePath (t : τ) (path : Path) (patch : Patch) : StateM Resolver (Written τ Nat) := do
  let o := write (← get).config path patch t
  count fun s => (s.countWrite).countTrips o.trips
  return (o.result, o.tree)

def writeAt (t : τ) (source : PathSource) (patch : Patch) : StateM Resolver (Written τ Nat) := do
  match ← (compile source).run with
  | .ok path => writePath t path patch
  | .error e => return (.error e, t)

def update (t : τ) (source : PathSource) (v : Json) : StateM Resolver (Written τ Nat) := do
  writeAt t source ((Patch.merge v).withIdempotent (← get).config.idempotent)

def insert (t : τ) (source : PathSource) (v : Json) : StateM Resolver (Written τ Nat) :=
  writeAt t source (.append v)

def remove (t : τ) (source : PathSource) : StateM Resolver (Written τ Nat) :=
  writeAt t source .remove

end Resolver

/-- Whether all entries of a query hold at a value, by the default settings. -/
def Query.isMatch (query : Query) (v : Json) : Bool := (meets .uncached query v).value

end TreePath

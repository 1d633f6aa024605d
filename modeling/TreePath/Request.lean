import TreePath.Port.Basic

namespace TreePath

/-- Resolvers that are shared stand in a common state, each of them under its own name. -/
class Shares (ι : Type) (σ : outParam Type) where
  get : ι → σ → Resolver
  put : ι → Resolver → σ → σ
  get_put : ∀ i r s, get i (put i r s) = r
  get_put_of_ne : ∀ {i j} r s, j ≠ i → get j (put i r s) = get j s

/-- One shared resolver is a state by itself. -/
instance : Shares Unit Resolver where
  get _ r := r
  put _ r _ := r
  get_put _ _ _ := rfl
  get_put_of_ne _ _ h := absurd rfl h

/-- Several shared resolvers, by their places. -/
instance {k : Nat} : Shares (Fin k) (Vector Resolver k) where
  get i s := s[i]
  put i r s := s.set i r
  get_put _ _ _ := Vector.getElem_set_self _
  get_put_of_ne _ _ h := Vector.getElem_set_ne _ _ fun hi => h (Fin.ext hi.symm)

inductive Link (ι : Type := Unit) where
  /-- The path to act on. -/
  | path (source : PathSource)
  /-- A continuation of the path. -/
  | join (source : PathSource)
  /-- Settings for a resolver of the request's own. -/
  | config (c : Config)
  /-- A shared resolver. -/
  | resolver (i : ι)
  | debug
  /-- Whether writes that merge replace what is there. -/
  | idempotent (b : Bool)

/-- The shared resolver, where there is one only. -/
def Link.shared : Link := .resolver ()

/-- The resolver of a request: one of its own, or a shared one. -/
inductive Handle (ι : Type) where
  | own (r : Resolver)
  | shared (i : ι)

structure Request (ι : Type := Unit) where
  handle : Handle ι
  path : Except PathError Path
  configError : Option ConfigError
  idempotent : Option Bool
  /-- Asks for a log; nothing else depends on it. -/
  debug : Bool

/-- Steps that use shared resolvers and may fail. -/
abbrev Sharing (σ : Type) := ExceptT PathError (StateM σ)

namespace Request

variable {ι σ : Type} [Shares ι σ]

/-- A request for the node itself, with a resolver of its own. -/
def start : Request ι := ⟨.own (.new .default), .ok [], none, none, false⟩

def run {α : Type} (q : Request ι) (x : StateM Resolver α) : StateM σ (α × Request ι) := do
  match q.handle with
  | .own r =>
    let (a, r) := Id.run (x.run r)
    return (a, { q with handle := .own r })
  | .shared i =>
    let (a, r) := Id.run (x.run (Shares.get i (← get)))
    modify (Shares.put i r)
    return (a, q)

/-- Both paths in a row, or the error of the first one that has one. -/
def joined (p suffix : Except PathError Path) : Except PathError Path := do
  let p ← p
  let suffix ← suffix
  return Path.join p suffix

/-- Adds a link. Texts are parsed with the resolver of this moment. -/
def link (q : Request ι) : Link ι → StateM σ (Request ι)
  | .path source => do
    let (p, q) ← q.run (Resolver.compile source).run
    return { q with path := p }
  | .join source => do
    let (suffix, q) ← q.run (Resolver.compile source).run
    return { q with path := joined q.path suffix }
  | .config c =>
    match c.validate with
    | .ok _ => return { q with handle := .own (.new c), configError := none }
    | .error e => return { q with handle := .own (.new .default), configError := some e }
  | .resolver i => return { q with handle := .shared i }
  | .debug => return { q with debug := true }
  | .idempotent b => return { q with idempotent := some b }

def ofLinks (links : List (Link ι)) : StateM σ (Request ι) := links.foldlM link start

/-- The path to act on, or the first thing that is wrong. Settings come before the path. -/
def target (q : Request ι) : Except PathError Path :=
  match q.configError with
  | some e => .error (.config e)
  | none => q.path

def config (q : Request ι) : StateM σ Config := do
  match q.handle with
  | .own r => return r.config
  | .shared i => return (Shares.get i (← get)).config

def act {α : Type} (q : Request ι) (x : Path → Resolving α) : Sharing σ α := do
  let p ← q.target
  let (result, _) ← q.run (x p).run
  result

variable {ν τ : Type} [TreeAccess ν] [TreeUpdate τ]

def ask (q : Request ι) (n : ν) (operation : Operation) : Sharing σ (Option Json) :=
  q.act fun p => Resolver.resolve n p operation none

def find (q : Request ι) (n : ν) : Sharing σ (Option Json) := q.ask n .fetch

def getD (q : Request ι) (n : ν) (default : Json) : Sharing σ Json := do
  return (← q.find n).getD default

def get (q : Request ι) (n : ν) : Sharing σ Json := q.getD n .null

def has (q : Request ι) (n : ν) : Sharing σ Bool := q.act fun p => Resolver.has n (.path p)

def count (q : Request ι) (n : ν) : Sharing σ Nat := q.act fun p => Resolver.countAt n (.path p)

def keys (q : Request ι) (n : ν) : Sharing σ (List Json) := q.act fun p => Resolver.keys n (.path p)

def search (q : Request ι) (n : ν) (query : Query) : Sharing σ (Option Json) :=
  q.ask n (.search query)

def call (q : Request ι) (n : ν) (args : List Json) : Sharing σ (Option Json) :=
  q.ask n (.call args)

/-- What a function makes of the value at the path, or of its absence. -/
def apply (q : Request ι) (n : ν) (f : Option Json → Option Json) : Sharing σ (Option Json) :=
  q.ask n (.apply f)

def entries (q : Request ι) (n : ν) : Sharing σ (List (ChildKey × Json)) :=
  q.act fun p => Resolver.entries n (.path p)

def locate (q : Request ι) (n : ν) : Sharing σ (Option ν) :=
  q.act fun p => Resolver.locate n (.path p)

/-- Whether there is a node at the path, and it matches a query. -/
def isMatch (q : Request ι) (n : ν) (query : Query) : Sharing σ Bool :=
  q.act fun p => do
    match ← Resolver.locate n (.path p) with
    | some found => Resolver.isMatch found query
    | none => return false

/-- A port at the node with the path as its fragment. -/
def port {κ : Type} (q : Request ι) (node : κ) : Except PathError (Port κ) :=
  q.target.map (Port.bound node)

/-- Carries out a patch at the path. A request with an error leaves the tree as it is. -/
def patch (q : Request ι) (t : τ) (p : Patch) : StateM σ (Written τ Nat) := do
  match q.target with
  | .error e => return (.error e, t)
  | .ok path =>
    let (result, _) ← q.run (Resolver.writePath t path p)
    return result

/-- Writes a value by a policy, with the request's own say on replacing or else the settings'. -/
def write (q : Request ι) (t : τ) (v : Json) (policy : MergePolicy) :
    StateM σ (Written τ Nat) := do
  let idempotent := q.idempotent.getD (← q.config).idempotent
  q.patch t ((Patch.ofValue v policy).withIdempotent idempotent)

def update (q : Request ι) (t : τ) (v : Json) : StateM σ (Written τ Nat) :=
  q.write t v .merge

def extend (q : Request ι) (t : τ) (v : Json) : StateM σ (Written τ Nat) :=
  q.write t v .extend

def overwrite (q : Request ι) (t : τ) (v : Json) : StateM σ (Written τ Nat) :=
  q.write t v .overwrite

/-- Appending always collects, whatever the settings say. -/
def insert (q : Request ι) (t : τ) (v : Json) : StateM σ (Written τ Nat) :=
  q.patch t (.append v)

def remove (q : Request ι) (t : τ) : StateM σ (Written τ Nat) :=
  q.patch t .remove

end Request

end TreePath

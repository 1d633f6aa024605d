import TreePath.Port.TypeHint
import TreePath.Resolver.Basic

namespace TreePath

/-- A reference to a node with a fragment to resolve against it. What it leads to is looked up when
the port is fetched. -/
structure Port (κ : Type) where
  node : Option κ
  fragment : Path
  hint : Option TypeHint
  metadata : List (String × Json)

namespace Port

variable {κ ν : Type} [TreeAccess ν]

def bound (node : κ) (fragment : Path) : Port κ := ⟨some node, fragment, none, []⟩

/-- A port without a node yet. -/
def unbound (fragment : Path) : Port κ := ⟨none, fragment, none, []⟩

def isBound (p : Port κ) : Bool := p.node.isSome

def withHint (p : Port κ) (hint : TypeHint) : Port κ := { p with hint := some hint }

def withMetadata (p : Port κ) (name : String) (v : Json) : Port κ :=
  { p with metadata := Fields.insert p.metadata name v }

/-- The value that the fragment leads to from the port's node. `deref` gives the node that is
referred to. -/
def fetch (deref : κ → ν) (p : Port κ) : Resolving Json := do
  match p.node with
  | none => throw (.unbound p.fragment)
  | some node =>
    match ← Resolver.resolve (deref node) p.fragment .fetch none with
    | some v => return v
    | none => throw (.nothingFound p.fragment)

/-- Replaces what is given and keeps the rest; metadata is put over the metadata that is there. -/
def update (p : Port κ) (node : Option κ) (hint : Option TypeHint)
    (metadata : List (String × Json)) : Port κ where
  node := node.or p.node
  fragment := p.fragment
  hint := hint.or p.hint
  metadata := metadata.foldl (fun fields field => Fields.insert fields field.1 field.2) p.metadata

/-- The port without its node. -/
def unbind (p : Port κ) : Port κ := { p with node := none }

end Port

end TreePath

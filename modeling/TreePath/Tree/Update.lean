import TreePath.Patch
import TreePath.Tree.Outcome

namespace TreePath

/-- The write side of a node. -/
class TreeUpdate (τ : Type) where
  kind : τ → NodeKind
  /-- The whole of what is in and below the node. -/
  snapshot : τ → Json
  isVacant : τ → Bool
  childKeys : τ → List ChildKey
  childCount : τ → Nat
  /-- The kind of a child; nothing if it is missing or vacant. -/
  childKind? : τ → ChildKey → Option NodeKind
  childSnapshot? : τ → ChildKey → Option Json
  /-- Makes a vacant node an empty container. Answers whether the node is a container afterwards. -/
  ensureContainer : NodeKind → τ → Bool × τ
  /-- Makes a missing or vacant child an empty container; a sequence is filled up to it. Answers
  whether there can be a child at the key at all. -/
  ensureChild : ChildKey → NodeKind → τ → Bool × τ
  /-- Takes a step at a child, if there is one. -/
  withChild : ChildKey → Write τ Nat → Write τ (Option Nat)
  /-- Applies a patch to the child at a key, or to the node itself, and counts what has changed. -/
  apply : Option ChildKey → Patch → Write τ Nat

namespace TreeUpdate

variable {τ : Type} [TreeUpdate τ]

/-- Takes a step at a child; without a child nothing is written. -/
def inChild (key : ChildKey) (x : Write τ Nat) : Write τ Nat := do
  let n ← withChild key x
  return n.getD 0

end TreeUpdate

namespace Json

/-- Puts `v` in the place of the child at a key; without such a child nothing changes. -/
def replaceChild (t : Json) (key : ChildKey) (v : Json) : Json :=
  match t, key with
  | .obj fields, key => .obj (Fields.insert fields key.asName v)
  | .arr items, .index i => .arr (items.set i v)
  | t, _ => t

/-- The elements, with nulls behind them until there are at least `len`. -/
def padded (items : List Json) (len : Nat) : List Json :=
  items ++ List.replicate (len - items.length) .null

/-- An empty container in the place of a missing value. -/
def orEmpty (kind : NodeKind) : Option Json → Json
  | none => kind.emptyValue
  | some .null => kind.emptyValue
  | some v => v

def ensureContainer (kind : NodeKind) (t : Json) : Bool × Json :=
  let t := if t.isNull then kind.emptyValue else t
  (t.kind.isContainer, t)

def ensureChild (key : ChildKey) (kind : NodeKind) (t : Json) : Bool × Json :=
  match t, key with
  | .obj fields, key =>
    let v := orEmpty kind (Fields.find? fields key.asName)
    (true, .obj (Fields.insert fields key.asName v))
  | .arr items, .index i =>
    if i < items.length ∨ i + 1 < UInt64.size then
      (true, .arr ((padded items (i + 1)).set i (orEmpty kind items[i]?)))
    else (false, t)
  | t, _ => (false, t)

def withChild (key : ChildKey) (x : Write Json Nat) : Write Json (Option Nat) := fun t =>
  match t.child? key with
  | none => ⟨.ok none, t, 0⟩
  | some child =>
    let o := x child
    ⟨o.result.map some, t.replaceChild key o.tree, o.trips⟩

/-- A value as a patch takes it: null is nothing. -/
def present? (v : Json) : Option Json := if v.isNull then none else some v

/-- The value with a patch applied to it, and the count. -/
def patched (patch : Patch) (t : Json) : Nat × Json :=
  match patch.resolve t.present? with
  | some v => (1, v)
  | none => (if t.isNull then 0 else 1, .null)

/-- The value with a patch applied to its child at a key, and the count. -/
def patchedChild (key : ChildKey) (patch : Patch) (t : Json) : Nat × Json :=
  match t, key with
  | .obj fields, key =>
    let old := Fields.find? fields key.asName
    match patch.resolve old with
    | some v => (1, .obj (Fields.insert fields key.asName v))
    | none => (if old.isSome then 1 else 0, .obj (Fields.erase fields key.asName))
  | .arr items, .index i =>
    match items[i]? with
    | some old =>
      match patch.resolve old.present? with
      | some v => (1, .arr (items.set i v))
      | none => (1, .arr (items.eraseIdx i))
    | none =>
      match patch.resolve none with
      | some v => (1, .arr (padded items i ++ [v]))
      | none => (0, .arr items)
  | t, _ => (0, t)

end Json

instance : TreeUpdate Json where
  kind := Json.kind
  snapshot t := t
  isVacant := Json.isNull
  childKeys := Json.childKeys
  childCount := Json.size
  childKind? t key := ((t.child? key).bind Json.present?).map Json.kind
  childSnapshot? := Json.child?
  ensureContainer := Json.ensureContainer
  ensureChild := Json.ensureChild
  withChild := Json.withChild
  apply key patch :=
    Write.step
      (match key with | none => Json.patched patch | some key => Json.patchedChild key patch)

end TreePath

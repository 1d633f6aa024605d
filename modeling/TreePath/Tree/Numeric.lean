import TreePath.Tree.Update

namespace TreePath

/-- A plain value that refuses every patch with something else than a number or a mapping. -/
structure Numeric where
  value : Json

namespace Numeric

/-- Takes a step of the plain value. -/
def lift {α : Type} (x : Write Json α) : Write Numeric α := fun t =>
  let o := x t.value
  ⟨o.result, ⟨o.tree⟩, o.trips⟩

def liftStep {α : Type} (f : Json → α × Json) (t : Numeric) : α × Numeric :=
  let x := f t.value
  (x.1, ⟨x.2⟩)

/-- Whether a value may be written; the fields of a mapping are written one by one. -/
def accepts : Json → Bool
  | .num _ => true
  | .obj _ => true
  | _ => false

def withChild (key : ChildKey) (x : Write Numeric Nat) : Write Numeric (Option Nat) :=
  lift (TreeUpdate.withChild key fun v =>
    let o := x ⟨v⟩
    ⟨o.result, o.tree.value, o.trips⟩)

def apply (key : Option ChildKey) (patch : Patch) : Write Numeric Nat :=
  match patch.value with
  | some v => if accepts v then lift (TreeUpdate.apply key patch) else Write.fail (.notNumber key v)
  | none => lift (TreeUpdate.apply key patch)

end Numeric

instance : TreeUpdate Numeric where
  kind t := t.value.kind
  snapshot t := t.value
  isVacant t := t.value.isNull
  childKeys t := t.value.childKeys
  childCount t := t.value.childKeys.length
  childKind? t := TreeUpdate.childKind? t.value
  childSnapshot? t := t.value.child?
  ensureContainer kind := Numeric.liftStep (Json.ensureContainer kind)
  ensureChild key kind := Numeric.liftStep (Json.ensureChild key kind)
  withChild := Numeric.withChild
  apply := Numeric.apply

end TreePath

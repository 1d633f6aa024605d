import TreePath.Error
import TreePath.Walk.Resolved

namespace TreePath

/-- What was changed before a failure stays changed, so the tree is part of the outcome in either
case. -/
structure Outcome (τ α : Type) where
  result : Except PathError α
  /-- The tree afterwards. -/
  tree : τ
  /-- How many times the guard against deep walks has tripped. -/
  trips : Nat

/-- A step that works on a tree. -/
def Write (τ α : Type) := τ → Outcome τ α

namespace Write

variable {τ α β : Type}

def bind (x : Write τ α) (f : α → Write τ β) : Write τ β := fun t =>
  match x t with
  | ⟨.ok a, t, trips⟩ => let o := f a t; { o with trips := trips + o.trips }
  | ⟨.error e, t, trips⟩ => ⟨.error e, t, trips⟩

instance : Monad (Write τ) where
  pure a := fun t => ⟨.ok a, t, 0⟩
  bind := bind

/-- What can be seen of the tree. -/
def view (f : τ → α) : Write τ α := fun t => ⟨.ok (f t), t, 0⟩

/-- What a walk over the tree finds. -/
def walk (f : τ → Guarded α) : Write τ α := fun t => let x := f t; ⟨.ok x.value, t, x.trips⟩

/-- A step that cannot fail. -/
def step (f : τ → α × τ) : Write τ α := fun t => let x := f t; ⟨.ok x.1, x.2, 0⟩

def fail (e : PathError) : Write τ α := fun t => ⟨.error e, t, 0⟩

/-- Stops with `a` because the guard has tripped. -/
def trip (a : α) : Write τ α := fun t => ⟨.ok a, t, 1⟩

@[simp] theorem pure_apply (a : α) (t : τ) : (pure a : Write τ α) t = ⟨.ok a, t, 0⟩ := rfl

theorem bind_apply (x : Write τ α) (f : α → Write τ β) (t : τ) : (x >>= f) t =
    match x t with
    | ⟨.ok a, t, trips⟩ => { f a t with trips := trips + (f a t).trips }
    | ⟨.error e, t, trips⟩ => ⟨.error e, t, trips⟩ := rfl

/-- Takes the step for each of the items in turn, and adds up the counts. -/
def sum (f : α → Write τ Nat) : List α → Write τ Nat
  | [] => pure 0
  | a :: rest => do
    let n ← f a
    let m ← sum f rest
    return n + m

end Write

end TreePath

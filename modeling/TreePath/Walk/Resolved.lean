import TreePath.Tree.Access

namespace TreePath

/-- The result of a walk that is guarded against running too deep or in circles. A guard that trips
cuts the walk short; how often that happened is counted beside the result and never changes it. -/
structure Guarded (α : Type) where
  value : α
  /-- How many times a guard has cut something short. -/
  trips : Nat

namespace Guarded

variable {α β : Type}

instance : Monad Guarded where
  pure a := ⟨a, 0⟩
  bind x f := let y := f x.value; ⟨y.value, x.trips + y.trips⟩

/-- A walk that ends in `a` because a guard has tripped. -/
def trip (a : α) : Guarded α := ⟨a, 1⟩

@[simp] theorem value_pure (a : α) : (pure a : Guarded α).value = a := rfl

@[simp] theorem trips_pure (a : α) : (pure a : Guarded α).trips = 0 := rfl

@[simp] theorem value_bind (x : Guarded α) (f : α → Guarded β) :
    (x >>= f).value = (f x.value).value := rfl

@[simp] theorem trips_bind (x : Guarded α) (f : α → Guarded β) :
    (x >>= f).trips = x.trips + (f x.value).trips := rfl

@[simp] theorem value_trip (a : α) : (trip a).value = a := rfl

@[simp] theorem trips_trip (a : α) : (trip a).trips = 1 := rfl

theorem eq_of {x y : Guarded α} (value : x.value = y.value) (trips : x.trips = y.trips) :
    x = y := by
  cases x
  cases y
  simp_all

instance : LawfulMonad Guarded :=
  LawfulMonad.mk' Guarded (fun _ => rfl) (fun _ _ => eq_of rfl (Nat.zero_add _))
    (fun _ _ _ => eq_of rfl (Nat.add_assoc _ _ _)) (fun _ _ => rfl)
    (fun _ _ => rfl) (fun _ _ => rfl) (fun _ _ => rfl)

@[simp] theorem value_map (f : α → β) (x : Guarded α) : (f <$> x).value = f x.value := rfl

@[simp] theorem trips_map (f : α → β) (x : Guarded α) : (f <$> x).trips = x.trips := rfl

theorem value_mapM (f : α → Guarded β) (xs : List α) :
    (xs.mapM f).value = xs.map fun x => (f x).value := by
  induction xs with
  | nil => rfl
  | cons x xs ih => simp [List.mapM_cons, ih]

end Guarded

/-- Where a walk through a tree ends: nowhere, at a node of the tree, or with a value that was put
together from several places. -/
inductive Resolved (ν : Type) where
  | absent
  | node (n : ν)
  | value (v : Json)

namespace Resolved

variable {ν : Type} [TreeAccess ν]

def isAbsent : Resolved ν → Bool
  | absent => true
  | _ => false

def node? : Resolved ν → Option ν
  | node n => some n
  | _ => none

def kind? : Resolved ν → Option NodeKind
  | absent => none
  | node n => some (TreeAccess.kind n)
  | value v => some v.kind

def toJson? : Resolved ν → Option Json
  | absent => none
  | node n => some (TreeAccess.toJson n)
  | value v => some v

/-- The result in its place among others, where null stands for nothing. -/
def slot (r : Resolved ν) : Json := r.toJson?.getD .null

/-- The children of the result with their keys. -/
def entries : Resolved ν → List (ChildKey × Json)
  | absent => []
  | node n => (TreeAccess.entries n).map fun (key, child) => (key, TreeAccess.toJson child)
  | value v => v.children

end Resolved

end TreePath

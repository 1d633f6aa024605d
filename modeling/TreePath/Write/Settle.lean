import TreePath.Write.Enter

namespace TreePath

open TreeUpdate

variable {τ : Type} [TreeUpdate τ]

/-- The kind of what is at a key, or of the node itself; nothing for a missing value. -/
def kindAt? (key : Option ChildKey) (t : τ) : Option NodeKind :=
  match key with
  | some key => childKind? t key
  | none => if isVacant t then none else some (kind t)

def atKey (key : Option ChildKey) (x : Write τ Nat) : Write τ Nat :=
  match key with
  | some key => inChild key x
  | none => x

mutual

/-- Writes a value to the place at a key, or to the node itself. -/
def settle (config : Config) (policy : MergePolicy) (idempotent : Bool) (v : Json)
    (key : Option ChildKey) (depth : Nat) : Write τ Nat :=
  match v with
  | .obj fields => do
    let found ← Write.view (kindAt? key)
    if policy == .merge && found == some .mapping then
      settleFields config idempotent fields key depth
    else apply key ⟨some (.obj fields), policy, idempotent⟩
  | v => apply key ⟨some v, policy, idempotent⟩

/-- Merges fields into the mapping at a key, or into the node itself, one by one. -/
def settleFields (config : Config) (idempotent : Bool) (fields : List (String × Json))
    (key : Option ChildKey) (depth : Nat) : Write τ Nat :=
  match fields with
  | [] => return 0
  | (name, v) :: rest => do
    let n ← atKey key <|
      if config.maxDepth < depth + 1 then Write.trip 0
      else do
        match ← enter config [] (.key name) false with
        | some field => settle config .merge idempotent v (some field) (depth + 1)
        | none => return 0
    let m ← settleFields config idempotent rest key depth
    return n + m

end

/-- Carries out a patch at the place at a key, or at the node itself. -/
def finish (config : Config) (patch : Patch) (key : Option ChildKey) (depth : Nat) : Write τ Nat :=
  match patch.value with
  | some v => settle config patch.policy patch.idempotent v key depth
  | none => apply key patch

end TreePath

import TreePath.Walk.Resolved

namespace TreePath

open TreeAccess

variable {ν : Type} [TreeAccess ν]

/-- Whether the node holds the string `name` in its identifying field. -/
def hasIdentity (idField name : String) (n : ν) : Bool :=
  match child? n (.name idField) with
  | some id => (toJson id).asString? == some name
  | none => false

/-- The child of a name. In a sequence that is the first element identified by it. -/
def lookupKey (idField name : String) (n : ν) : Option ν :=
  match child? n (.name name) with
  | some child => some child
  | none =>
    if kind n = .sequence then
      ((entries n).find? fun entry => hasIdentity idField name entry.2).map (·.2)
    else none

/-- The place in a sequence of `len` elements that a position means, counting from the end if it is
below zero; nothing if that is in front of the start. -/
def place? (position : Int64) (len : Nat) : Option Nat :=
  let i := if position.toInt < 0 then position.toInt + len else position.toInt
  if i < 0 then none else some i.toNat

/-- The element of a sequence at a position. In a mapping, the field that is named like it. -/
def lookupIndex (position : Int64) (n : ν) : Option ν :=
  if kind n = .sequence then (place? position (size n)).bind fun i => child? n (.index i)
  else child? n (.name (toString position.toInt))

/-- The results for the children of a container of the given kind: a mapping if it was one, else a
sequence. -/
def assemble (kind : NodeKind) (results : List (ChildKey × Json)) : Json :=
  match kind with
  | .mapping => .obj (Fields.ofList (results.map fun (key, v) => (key.asName, v)))
  | _ => .arr (results.map (·.2))

def spread (kind : NodeKind) (children : List (ChildKey × ν)) (visit : ν → Guarded (Resolved ν)) :
    Guarded (Resolved ν) := do
  let results ← children.mapM fun (key, child) => return (key, (← visit child).slot)
  return .value (assemble kind results)

/-- Rebuilds the tree below a node with what a visit finds at each leaf. At most `left` levels are
entered; `depth` is the depth of the current one. -/
def atLeaves (visit : (depth : Nat) → ν → Guarded (Resolved ν)) :
    (left depth : Nat) → ν → Guarded (Resolved ν)
  | 0, _, _ => Guarded.trip .absent
  | left + 1, depth, n =>
    if kind n = .leaf then visit (depth + 1) n
    else spread (kind n) (entries n) (atLeaves visit left (depth + 1))

/-- Whether a node is one of those seen before, as far as it can be told. -/
def isRevisited (seen : List Identity) (n : ν) : Bool :=
  match identity? n with
  | some i => seen.contains i
  | none => false

def see (seen : List Identity) (n : ν) : List Identity := (identity? n).toList ++ seen

/-- The topmost node above `n`, as far as at most `left` steps lead. If these are as many as the
largest word says, a count of the steps made would never exceed them, but the climb ends here. -/
def climb : (left : Nat) → (seen : List Identity) → ν → Guarded ν
  | left, seen, n =>
    match parent? n with
    | none => pure n
    | some p =>
      if isRevisited seen p then Guarded.trip n
      else
        match left with
        | 0 => Guarded.trip n
        | left + 1 => climb left (see seen p) p

/-- The result of a visit at the closest of `n` and the nodes above it for which there is one, among
the first `left` of them, which come to an end as in `climb`. Sequences are passed over. -/
def closest (visit : ν → Guarded (Resolved ν)) :
    (left : Nat) → (seen : List Identity) → ν → Guarded (Resolved ν)
  | left, seen, n =>
    if isRevisited seen n then Guarded.trip .absent
    else
      match left with
      | 0 => Guarded.trip .absent
      | left + 1 => do
        let found ← if kind n = .sequence then pure .absent else visit n
        match found with
        | .absent =>
          match parent? n with
          | some p => closest visit left (see seen n) p
          | none => return .absent
        | found => return found

def siblings (n : ν) (p : ν) : List (ChildKey × ν) :=
  match identity? n with
  | some own => (entries p).filter fun entry => identity? entry.2 != some own
  | none => entries p

end TreePath

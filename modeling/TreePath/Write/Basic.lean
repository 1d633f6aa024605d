import TreePath.Walk.Basic
import TreePath.Write.Settle

namespace TreePath

open TreeUpdate

variable {τ : Type} [TreeUpdate τ]

/-- The keys in the order in which they are written to. What is removed is removed from the back, so
that the positions in front stay what they were. -/
def writeOrder (removal : Bool) (keys : List ChildKey) : List ChildKey :=
  if removal then (ChildKey.dedup (ChildKey.sort keys)).reverse else keys

def matchingKeys (config : Config) (query : Query) (t : τ) : Guarded (List ChildKey) := do
  let marked ← (childKeys t).mapM fun key => do
    match childSnapshot? t key with
    | some v => return (key, ← meets config query v)
    | none => return (key, false)
  return (marked.filter (·.2)).map (·.1)

/-- Writes to all leaves below a node, from the back. At most `left` levels are entered; nothing is
written when the path goes on behind the leaves. -/
def writeLeaves (config : Config) (patch : Patch) (last : Bool) : (left depth : Nat) → Write τ Nat
  | 0, _ => Write.trip 0
  | left + 1, depth => do
    if ← Write.view isVacant then return 0
    else if (← Write.view kind) = .leaf then if last then apply none patch else return 0
    else
      let keys ← Write.view childKeys
      Write.sum (fun key => do
        let found ← Write.view fun t => childKind? t key
        if found.any NodeKind.isContainer then
          inChild key (writeLeaves config patch last left (depth + 1))
        else if last then finish config patch (some key) depth
        else return 0) keys.reverse

mutual

/-- Carries out a patch at the end of a path from a node. `done` leads to the node, as far as an
error tells. Below the depth limit nothing is written. -/
def writeAt (config : Config) (patch : Patch) (done path : Path) (depth : Nat) : Write τ Nat :=
  if config.maxDepth < depth then Write.trip 0 else writeOn config patch done path depth
termination_by (pathWeight path, 1)

def writeOn (config : Config) (patch : Patch) (done path : Path) (depth : Nat) : Write τ Nat :=
  match path with
  | [] => finish config patch none depth
  | .key name :: rest => do
    match ← enter config done (.key name) patch.isRemoval with
    | some key => writeBelow config patch done (.key name) rest depth key
    | none => return 0
  | .index i :: rest => do
    match ← enter config done (.index i) patch.isRemoval with
    | some key => writeBelow config patch done (.index i) rest depth key
    | none => return 0
  | .slice s :: rest => do
    if (← Write.view kind) = .sequence then
      let count ← Write.view childCount
      writeEach config patch (done.append (.slice s)) rest depth ((s.indices count).map .index)
    else if ← Write.view isVacant then return 0
    else if (← Write.view kind) = .mapping then Write.fail (.unsupportedTarget done (.slice s))
    else Write.fail (.notContainer done .leaf)
  | .predicate query :: rest => do
    if ← Write.view isVacant then return 0
    else if (← Write.view kind) = .leaf then
      if ← Write.walk fun t => meets config query (snapshot t) then
        writeAt config patch (done.append (.predicate query)) rest depth
      else return 0
    else
      let keys ← Write.walk (matchingKeys config query)
      writeEach config patch (done.append (.predicate query)) rest depth keys
  | .tag .current :: rest => writeAt config patch (done.append (.tag .current)) rest depth
  | .tag .children :: rest => do
    if ← Write.view isVacant then return 0
    else if (← Write.view kind) = .leaf then Write.fail (.notContainer done .leaf)
    else
      let keys ← Write.view childKeys
      writeEach config patch (done.append (.tag .children)) rest depth keys
  | .tag .descendants :: rest =>
    writeLeaves config patch rest.isEmpty (config.maxDepth + 1 - depth) depth
  | .tag t :: _ => Write.fail (.unsupportedTarget done (.tag t))
  | .union alternatives _ :: rest => writeAlternately config patch alternatives rest (depth + 1)
  | .tuple members :: rest => writeAt config patch [] (members ++ rest) (depth + 1)
termination_by (pathWeight path, 0)

/-- Goes on with a write at the child that segment `s` addresses. A child that is missing is made
a container for the rest of the path. -/
def writeBelow (config : Config) (patch : Patch) (done : Path) (s : Segment) (rest : Path)
    (depth : Nat) (key : ChildKey) : Write τ Nat :=
  match rest with
  | [] => finish config patch (some key) depth
  | after :: more => do
    let missing ← Write.view fun t => (childKind? t key).isNone
    if missing && patch.isRemoval then return 0
    else if ← reach key after.container then
      inChild key (writeAt config patch (done.append s) (after :: more) (depth + 1))
    else Write.fail (.unsupportedTarget (done.append s) after)
termination_by (pathWeight rest, 2)

def writeEach (config : Config) (patch : Patch) (done rest : Path) (depth : Nat)
    (keys : List ChildKey) : Write τ Nat :=
  match rest with
  | [] =>
    Write.sum (fun key => finish config patch (some key) depth) (writeOrder patch.isRemoval keys)
  | rest => Write.sum (fun key => inChild key (writeAt config patch done rest (depth + 1))) keys
termination_by (pathWeight rest, 2)

def writeAlternately (config : Config) (patch : Patch) (alternatives : List Path) (rest : Path)
    (depth : Nat) : Write τ Nat :=
  match alternatives with
  | [] => return 0
  | p :: more => do
    let n ← writeAt config patch [] (p.absolute ++ rest) depth
    let m ← writeAlternately config patch more rest depth
    return n + m
termination_by (pathsWeight alternatives + pathWeight rest, 0)
decreasing_by
  · have := pathWeight_absolute_le p
    exact Prod.Lex.left _ _ (by simp only [pathsWeight, pathWeight_append]; omega)
  · exact Prod.Lex.left _ _ (by simp only [pathsWeight]; omega)

end

theorem writeOn_concrete (config : Config) (patch : Patch) (done : Path) {s : Segment}
    (hs : s.isConcrete = true) (rest : Path) (depth : Nat) :
    (writeOn config patch done (s :: rest) depth : Write τ Nat) = (do
      match ← enter config done s patch.isRemoval with
      | some key => writeBelow config patch done s rest depth key
      | none => return 0) := by
  cases s with
  | key | index => rw [writeOn]
  | slice | predicate | tag | union | tuple => cases hs

theorem writeOn_unwritable (config : Config) (patch : Patch) (done : Path) {t : Tag}
    (ht : t.isWritable = false) (rest : Path) (depth : Nat) :
    (writeOn config patch done (.tag t :: rest) depth : Write τ Nat) =
      Write.fail (.unsupportedTarget done (.tag t)) := by
  rw [writeOn]
  all_goals
    rintro rfl
    cases ht

/-- Carries out a patch at every place that a path leads to, and counts them. A path with a tag in
it that no write can follow is refused before anything is changed. -/
def write (config : Config) (path : Path) (patch : Patch) : Write τ Nat :=
  match unwritable? path.target with
  | some (place, s) => Write.fail (.unsupportedTarget place s)
  | none => writeAt config patch [] path.target 0

end TreePath

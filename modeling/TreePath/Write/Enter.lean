import TreePath.Tree.Update
import TreePath.Walk.Steps
import TreePath.Write.Target

namespace TreePath

open TreeUpdate

variable {τ : Type} [TreeUpdate τ]

def identified? (idField name : String) (t : τ) : Option ChildKey :=
  (childKeys t).find? fun key =>
    match childSnapshot? t key with
    | some v => (v.field? idField).bind Json.asString? == some name
    | none => false

/-- The element of a sequence that is identified by a name. One that is missing is added to the
sequence, unless something is to be removed. -/
def identifiedKey (config : Config) (name : String) (removal : Bool) :
    Write τ (Option ChildKey) := do
  let found ← Write.view (identified? config.idField name)
  if found.isSome || removal then return found
  else
    let count ← Write.view childCount
    let element : Json := .obj [(config.idField, .str name)]
    let _ ← apply (some (.index count)) (Patch.overwrite element)
    return some (.index count)

/-- The element of a sequence at a position, which may be a little behind its end. -/
def positionKey (config : Config) (done : Path) (i : Int64) (removal : Bool) :
    Write τ (Option ChildKey) := do
  let count ← Write.view childCount
  match place? i count with
  | some place =>
    let gap := place - count
    if !removal && config.maxIndexGap < gap then
      Write.fail (.gapTooLarge (done.append (.index i)) i gap config.maxIndexGap)
    else return some (.index place)
  | none =>
    if removal then return none else Write.fail (.beforeStart (done.append (.index i)) i count)

def childKey (config : Config) (done : Path) (s : Segment) (removal : Bool) :
    Write τ (Option ChildKey) := do
  let sequence ← Write.view fun t => kind t == .sequence
  match s with
  | .key name => if sequence then identifiedKey config name removal else return some (.name name)
  | .index i =>
    if sequence then positionKey config done i removal
    else return some (.name (toString i.toInt))
  | _ => return none

/-- Makes the node the container that the segment needs, and finds the child in it. Nothing is
removed from a missing node. -/
def enter (config : Config) (done : Path) (s : Segment) (removal : Bool) :
    Write τ (Option ChildKey) := do
  if removal && (← Write.view isVacant) then return none
  else if ← Write.step (ensureContainer s.container) then childKey config done s removal
  else Write.fail (.notContainer done (← Write.view kind))

/-- Makes a missing child a container. Answers whether there is a child then. -/
def reach (key : ChildKey) (container : NodeKind) : Write τ Bool := do
  if ← Write.view fun t => (childKind? t key).isSome then return true
  else Write.step (ensureChild key container)

end TreePath

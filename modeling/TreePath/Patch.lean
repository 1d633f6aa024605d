import TreePath.Json.Basic

namespace TreePath

inductive MergePolicy where
  /-- Mappings are merged field by field; other values are replaced or collected. -/
  | merge
  /-- The value is put behind the others of a sequence. -/
  | append
  /-- The elements of the value are put behind the others of a sequence. -/
  | extend
  | overwrite
  deriving DecidableEq, Repr

namespace MergePolicy

def name : MergePolicy → String
  | merge => "merge"
  | append => "append"
  | extend => "extend"
  | overwrite => "overwrite"

def ofName? (name : String) : Option MergePolicy :=
  [merge, append, extend, overwrite].find? fun p => p.name == name

end MergePolicy

structure Patch where
  /-- Nothing removes the place that is written to. -/
  value : Option Json
  policy : MergePolicy
  /-- Whether a merge replaces values that are no mappings, rather than collect them. -/
  idempotent : Bool

namespace Json

/-- `new` behind the elements of `old`, or behind `old` itself. -/
def appended (old new : Json) : Json :=
  match old with
  | .arr items => .arr (items ++ [new])
  | old => .arr [old, new]

/-- The elements of `new` behind those of `old`, when both are sequences. -/
def extended (old new : Json) : Json :=
  match old, new with
  | .arr items, .arr more => .arr (items ++ more)
  | old, new => appended old new

mutual

/-- Merges `new` into what is there. Null counts as nothing, and then `new` stays as it is. -/
def merged (idempotent : Bool) (old : Option Json) (new : Json) : Json :=
  match old with
  | none => new
  | some .null => new
  | some old =>
    match new with
    | .obj source =>
      match old with
      | .obj target => .obj (mergedFields idempotent target source)
      | old => if idempotent then .obj source else appended old (.obj source)
    | new => if idempotent then new else appended old new

/-- Merges each of the source's fields into the target's one of the same name. -/
def mergedFields (idempotent : Bool) (target : List (String × Json)) :
    List (String × Json) → List (String × Json)
  | [] => target
  | (name, v) :: rest =>
    let v := merged idempotent (Fields.find? target name) v
    mergedFields idempotent (Fields.insert target name v) rest

end

/-- Combines `new` with what is there. Nothing, or null, is replaced under every policy. -/
def combine (old : Option Json) (new : Json) (policy : MergePolicy) (idempotent : Bool) : Json :=
  match policy with
  | .merge => merged idempotent old new
  | .append =>
    match old with
    | none => new
    | some .null => new
    | some old => appended old new
  | .extend =>
    match old with
    | none => new
    | some .null => new
    | some old => extended old new
  | .overwrite => new

/-- Merges the sources into the target, one after the other. -/
def updateTree (target : Json) (sources : List Json) : Json :=
  sources.foldl (fun target source => combine (some target) source .merge true) target

/-- Merges the sources into a new value. -/
def mergeTree (sources : List Json) : Json := updateTree .null sources

end Json

namespace Patch

def ofValue (v : Json) (policy : MergePolicy) : Patch := ⟨some v, policy, true⟩

def merge (v : Json) : Patch := ofValue v .merge

def withIdempotent (p : Patch) (idempotent : Bool) : Patch := { p with idempotent }

/-- Appending is the one policy that starts out collecting. -/
def append (v : Json) : Patch := (ofValue v .append).withIdempotent false

def extend (v : Json) : Patch := ofValue v .extend

def overwrite (v : Json) : Patch := ofValue v .overwrite

def remove : Patch := ⟨none, .overwrite, true⟩

def isRemoval (p : Patch) : Bool := p.value.isNone

/-- The new content of a place, or nothing when the place is removed. -/
def resolve (p : Patch) (old : Option Json) : Option Json :=
  p.value.map fun new => Json.combine old new p.policy p.idempotent

end Patch

end TreePath

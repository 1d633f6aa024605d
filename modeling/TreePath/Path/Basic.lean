import TreePath.Json.Basic
import TreePath.Path.Slice
import TreePath.Path.Tag

namespace TreePath

mutual

/-- One hop of a path. -/
inductive Segment where
  /-- A field of a mapping, or the element of a sequence that is identified by the name. -/
  | key (name : String)
  /-- An element of a sequence; positions below zero count from the end. -/
  | index (position : Int64)
  | slice (slice : Slice)
  /-- The children that match a query. -/
  | predicate (query : List (List Segment × Expected))
  | tag (tag : Tag)
  /-- Alternative paths side by side; the results of named ones are labelled by their texts. -/
  | union (alternatives : List (List Segment)) (named : Bool)
  /-- Several hops in one pair of brackets. -/
  | tuple (members : List Segment)

/-- What a query expects at the end of one of its paths. -/
inductive Expected where
  /-- A value equal to this one, or a sequence that contains it. -/
  | value (v : Json)
  /-- A value that matches this query, or a sequence with an element that does. -/
  | query (q : List (List Segment × Expected))

end

instance : Inhabited Segment := ⟨.key ""⟩

/-- A path leads from a node to other nodes; the empty path stays. -/
abbrev Path := List Segment

/-- A query matches the candidates at which each of its entries holds. -/
abbrev Query := List (Path × Expected)

mutual

/-- The number of segments, those inside of segments included, and of parts of queries. -/
@[simp] def Segment.weight : Segment → Nat
  | .predicate query => queryWeight query + 1
  | .union alternatives _ => pathsWeight alternatives + 1
  | .tuple members => pathWeight members + 1
  | _ => 1

@[simp] def pathWeight : List Segment → Nat
  | [] => 0
  | s :: rest => s.weight + pathWeight rest

@[simp] def pathsWeight : List (List Segment) → Nat
  | [] => 0
  | p :: rest => pathWeight p + pathsWeight rest + 1

@[simp] def queryWeight : List (List Segment × Expected) → Nat
  | [] => 0
  | (p, e) :: rest => pathWeight p + e.weight + queryWeight rest + 1

@[simp] def Expected.weight : Expected → Nat
  | .value _ => 0
  | .query q => queryWeight q + 1

end

theorem Segment.weight_pos (s : Segment) : 0 < s.weight := by
  cases s <;> simp

@[simp] theorem pathWeight_append (p q : Path) :
    pathWeight (p ++ q) = pathWeight p + pathWeight q := by
  induction p with
  | nil => simp [pathWeight]
  | cons s p ih => simp [pathWeight, ih, Nat.add_assoc]

theorem pathWeight_lt_of_mem {p : Path} {alternatives : List Path} (hp : p ∈ alternatives) :
    pathWeight p < pathsWeight alternatives := by
  induction alternatives with
  | nil => exact absurd hp List.not_mem_nil
  | cons q more ih =>
    rw [pathsWeight]
    rcases List.mem_cons.mp hp with rfl | hp
    · omega
    · have hlt := ih hp
      omega

theorem entryWeight_lt_of_mem {entry : Path × Expected} {query : Query} (h : entry ∈ query) :
    pathWeight entry.1 + entry.2.weight < queryWeight query := by
  induction query with
  | nil => exact absurd h List.not_mem_nil
  | cons first rest ih =>
    rw [queryWeight]
    rcases List.mem_cons.mp h with rfl | h
    · omega
    · have hlt := ih h
      omega

namespace Segment

mutual

/-- Whether the segment leads to several places at once. -/
def isFanOut : Segment → Bool
  | .slice _ | .predicate _ | .union _ _ => true
  | .tag t => t.isFanOut
  | .tuple members => anyFanOut members
  | .key _ | .index _ => false

def anyFanOut : List Segment → Bool
  | [] => false
  | s :: rest => s.isFanOut || anyFanOut rest

end

/-- Whether the text of the segment is a pair of brackets. -/
def isBracketed : Segment → Bool
  | .slice _ | .predicate _ | .union _ _ | .tuple _ => true
  | _ => false

/-- Whether the segment addresses one child, by name or position. -/
def isConcrete : Segment → Bool
  | .key _ | .index _ => true
  | _ => false

def tag? : Segment → Option Tag
  | .tag t => some t
  | _ => none

def isKey : Segment → Bool
  | .key _ => true
  | _ => false

end Segment

namespace Path

def ofIndex (i : Int64) : Path := [.index i]

/-- The path to a position that is not negative; one that has more than 63 bits is cut. -/
def ofPosition (n : Nat) : Path := [.index (Int64.ofInt (min n Int64.maxValue.toInt))]

def join (p q : Path) : Path := p ++ q

def prepend (p front : Path) : Path := front ++ p

def append (p : Path) (s : Segment) : Path := p ++ [s]

/-- The path without its last segment. -/
def parent (p : Path) : Path := p.dropLast

def children (p : Path) : Path := p.append (.tag .children)

/-- Only the keys of the path. -/
def collapse (p : Path) : Path := p.filter Segment.isKey

/-- The empty path, which addresses the node it starts from. -/
def isRoot (p : Path) : Bool := p.isEmpty

/-- Whether the path may lead to several values. -/
def isGenerator (p : Path) : Bool := p.any Segment.isFanOut

/-- The path in front of an operation tag at its end, and that tag. -/
def splitOperation (p : Path) : Path × Option Tag :=
  match p.getLast? with
  | some (.tag t) => if t.isOperation then (p.dropLast, some t) else (p, none)
  | _ => (p, none)

/-- Takes a segment behind a path in which `..` is resolved as far as possible; the path is held
with its last segment first. -/
def absoluteStep (done : List Segment) : Segment → List Segment
  | .tag .parent =>
    match done with
    | .key _ :: rest => rest
    | .index _ :: rest => rest
    | .tag .root :: _ => done
    | _ => .tag .parent :: done
  | .tag .root => [.tag .root]
  | .tag .current => done
  | s => s :: done

/-- The path with each parent marker cancelled against a key or an index in front of it, started
again at each root, and without current markers. A parent marker with nothing to cancel stays. -/
def absolute (p : Path) : Path := (p.foldl absoluteStep []).reverse

/-- The path with the first segment of `tail` glued to its last one, when both are keys, and
continued by the rest of `tail`. -/
def glue (p tail : Path) : Path :=
  match p.getLast?, tail with
  | some (.key last), .key first :: rest => p.dropLast ++ .key (last ++ first) :: rest
  | _, _ => p ++ tail

end Path

namespace Query

/-- The query for the name that a field holds. -/
def identity (field name : String) : Query := [([.key field], .value (.str name))]

/-- Whether a text in the place of a path means the candidate itself. -/
def isSelf (name : String) : Bool := name == "" || name == "." || name == "@"

/-- One entry for each field of an object. -/
def ofFields (fields : List (String × Json)) : Query :=
  fields.map fun (name, v) => (if isSelf name then [] else [.key name], .value v)

end Query

end TreePath

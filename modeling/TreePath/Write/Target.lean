import TreePath.Path.Basic
import TreePath.Tree.Access

namespace TreePath

/-- Tags that a write can follow. -/
def Tag.isWritable : Tag → Bool
  | .current | .children | .descendants => true
  | _ => false

/-- A tag that a write can follow is one of three; the others are taken together. -/
@[elab_as_elim]
theorem Tag.writable_cases {motive : Tag → Prop} (t : Tag) (current : motive .current)
    (children : motive .children) (descendants : motive .descendants)
    (unwritable : ∀ t, t.isWritable = false → motive t) : motive t := by
  cases t with
  | current => exact current
  | children => exact children
  | descendants => exact descendants
  | _ => exact unwritable _ rfl

/-- The kind of container that is made where the segment is to be followed. -/
def Segment.container : Segment → NodeKind
  | .key _ => .mapping
  | .tuple (first :: _) => first.container
  | _ => .sequence

theorem pathWeight_reverse (p : Path) : pathWeight p.reverse = pathWeight p := by
  induction p with
  | nil => rfl
  | cons s p ih => simp [ih, Nat.add_comm]

theorem pathWeight_absoluteStep_le (done : Path) (s : Segment) :
    pathWeight (Path.absoluteStep done s) ≤ pathWeight done + s.weight := by
  unfold Path.absoluteStep
  split
  · split <;> simp <;> omega
  · simp
  · simp
  · simp [Nat.add_comm]

theorem pathWeight_foldl_absoluteStep_le (p done : Path) :
    pathWeight (p.foldl Path.absoluteStep done) ≤ pathWeight done + pathWeight p := by
  induction p generalizing done with
  | nil => simp
  | cons s p ih =>
    have := ih (Path.absoluteStep done s)
    have := pathWeight_absoluteStep_le done s
    simp only [List.foldl_cons, pathWeight]
    omega

theorem pathWeight_absolute_le (p : Path) : pathWeight p.absolute ≤ pathWeight p := by
  have := pathWeight_foldl_absoluteStep_le p []
  simp only [pathWeight] at this
  rw [Path.absolute, pathWeight_reverse]
  omega

mutual

/-- The first tag in a path that no write can follow, and the path that leads to it. Alternative
paths are taken in their absolute form. -/
def unwritable? (path : Path) : Option (Path × Segment) :=
  match path with
  | [] => none
  | s :: rest =>
    match unwritableIn? s with
    | some found => some found
    | none => (unwritable? rest).map fun (place, t) => (s :: place, t)
termination_by 2 * pathWeight path + 1
decreasing_by
  · simp only [pathWeight]
    omega
  · have := s.weight_pos
    simp only [pathWeight]
    omega

def unwritableIn? (s : Segment) : Option (Path × Segment) :=
  match s with
  | .tag t => if t.isWritable then none else some ([], .tag t)
  | .union alternatives _ => unwritableAmong? alternatives
  | .tuple members => unwritable? members
  | _ => none
termination_by 2 * s.weight

def unwritableAmong? (alternatives : List Path) : Option (Path × Segment) :=
  match alternatives with
  | [] => none
  | p :: more =>
    match unwritable? p.absolute with
    | some found => some found
    | none => unwritableAmong? more
termination_by 2 * pathsWeight alternatives
decreasing_by
  · have := pathWeight_absolute_le p
    simp only [pathsWeight]
    omega
  · simp only [pathsWeight]
    omega

end

/-- The path that a write follows from its target: in absolute form, and without the root that it
may start from. -/
def Path.target (p : Path) : Path :=
  match p.absolute with
  | .tag .root :: rest => rest
  | rest => rest

end TreePath

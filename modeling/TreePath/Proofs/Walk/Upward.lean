import TreePath.Walk.Operation

namespace TreePath

/-- Tags that lead to what is above or beside a node. -/
def Tag.isUpward : Tag → Bool
  | .parent | .root | .ancestors | .siblings => true
  | _ => false

mutual

def Segment.isUpward : Segment → Bool
  | .tag t => t.isUpward
  | .predicate query => queryUpward query
  | .union alternatives _ => pathsUpward alternatives
  | .tuple members => pathUpward members
  | .key _ | .index _ | .slice _ => false

/-- Whether there is a tag that leads upwards anywhere in the path. -/
def pathUpward : List Segment → Bool
  | [] => false
  | s :: rest => s.isUpward || pathUpward rest

def pathsUpward : List (List Segment) → Bool
  | [] => false
  | p :: rest => pathUpward p || pathsUpward rest

def queryUpward : List (List Segment × Expected) → Bool
  | [] => false
  | (p, _) :: rest => pathUpward p || queryUpward rest

end

/-- Whether the operation asks for something that may lead upwards. -/
def Operation.isUpward : Operation → Bool
  | .search query => queryUpward query
  | _ => false

theorem pathUpward_eq_any (p : Path) : pathUpward p = p.any Segment.isUpward := by
  induction p with
  | nil => rfl
  | cons s p ih => rw [pathUpward, ih, List.any_cons]

theorem pathUpward_append (p q : Path) : pathUpward (p ++ q) = (pathUpward p || pathUpward q) := by
  rw [pathUpward_eq_any, pathUpward_eq_any, pathUpward_eq_any, List.any_append]

theorem pathUpward_splitOperation {p : Path} (h : pathUpward p = false) :
    pathUpward p.splitOperation.1 = false := by
  have hfront : pathUpward p.dropLast = false := by
    rw [pathUpward_eq_any, List.any_eq_false] at h ⊢
    exact fun s hs => h s (List.dropLast_subset p hs)
  unfold Path.splitOperation
  split
  · split
    · exact hfront
    · exact h
  · exact h

/-- No tag at the end of a path asks for anything above. -/
theorem Operation.isUpward_ofTag? {t : Tag} {op : Operation} (h : ofTag? t = some op) :
    op.isUpward = false := by
  cases t <;> simp [ofTag?] at h <;> subst h <;> rfl

end TreePath

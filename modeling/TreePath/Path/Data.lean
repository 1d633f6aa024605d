import TreePath.Path.Basic

namespace TreePath

def Json.ofInt64 (i : Int64) : Json :=
  .num (.int ⟨i.toInt, Int64.le_toInt i, Int.lt_trans (Int64.toInt_lt i) (by decide)⟩)

/-- The bounds and the step; null stands for one that is left open. -/
def Slice.toData (s : Slice) : Json :=
  .arr ([s.start, s.stop, s.step].map fun bound => (bound.map Json.ofInt64).getD .null)

mutual

def Segment.toData : Segment → Json
  | .key name => .obj [("key", .str name)]
  | .index i => .obj [("index", .ofInt64 i)]
  | .slice s => .obj [("slice", s.toData)]
  | .predicate query => .obj [("predicate", .arr (queryData query))]
  | .tag t => .obj [("tag", .str t.name)]
  | .union alternatives named =>
    .obj [("named", .bool named), ("union", .arr (pathsData alternatives))]
  | .tuple members => .obj [("tuple", .arr (pathData members))]

def pathData : List Segment → List Json
  | [] => []
  | s :: rest => s.toData :: pathData rest

def pathsData : List (List Segment) → List Json
  | [] => []
  | p :: rest => .arr (pathData p) :: pathsData rest

def queryData : List (List Segment × Expected) → List Json
  | [] => []
  | (p, e) :: rest => .arr [.arr (pathData p), e.toData] :: queryData rest

def Expected.toData : Expected → Json
  | .value v => .obj [("value", v)]
  | .query q => .obj [("query", .arr (queryData q))]

end

def Path.toData (p : Path) : Json := .arr (pathData p)

def Query.toData (q : Query) : Json := .arr (queryData q)

end TreePath

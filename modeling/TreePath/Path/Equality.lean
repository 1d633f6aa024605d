import TreePath.Path.Basic

namespace TreePath

mutual

def Segment.same : Segment → Segment → Bool
  | .key a, .key b => a == b
  | .index a, .index b => a == b
  | .slice a, .slice b => a == b
  | .predicate a, .predicate b => sameQuery a b
  | .tag a, .tag b => a == b
  | .union a m, .union b n => samePaths a b && m == n
  | .tuple a, .tuple b => samePath a b
  | _, _ => false

def samePath : List Segment → List Segment → Bool
  | [], [] => true
  | a :: as, b :: bs => a.same b && samePath as bs
  | _, _ => false

def samePaths : List (List Segment) → List (List Segment) → Bool
  | [], [] => true
  | a :: as, b :: bs => samePath a b && samePaths as bs
  | _, _ => false

def sameQuery : List (List Segment × Expected) → List (List Segment × Expected) → Bool
  | [], [] => true
  | (p, e) :: as, (q, f) :: bs => samePath p q && e.same f && sameQuery as bs
  | _, _ => false

def Expected.same : Expected → Expected → Bool
  | .value a, .value b => a.same b
  | .query a, .query b => sameQuery a b
  | _, _ => false

end

def Path.same (p q : Path) : Bool := samePath p q

def Query.same (p q : Query) : Bool := sameQuery p q

end TreePath

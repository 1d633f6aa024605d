import TreePath.Request

namespace TreePath.Direct

variable {ν τ : Type} [TreeAccess ν] [TreeUpdate τ]

/-- Takes a step with the request for a path; its resolver is dropped afterwards. -/
def request {α : Type} (source : PathSource) (x : Request → StateM Resolver α) : α :=
  let (result, _) := Id.run ((do x (← Request.ofLinks [.path source])).run (.new .default))
  result

/-- The value at a path. -/
def find (n : ν) (source : PathSource) : Except PathError (Option Json) :=
  request source fun q => (q.find n).run

def getD (n : ν) (source : PathSource) (default : Json) : Except PathError Json :=
  request source fun q => (q.getD n default).run

def has (n : ν) (source : PathSource) : Except PathError Bool :=
  request source fun q => (q.has n).run

def count (n : ν) (source : PathSource) : Except PathError Nat :=
  request source fun q => (q.count n).run

def update (t : τ) (source : PathSource) (v : Json) : Written τ Nat :=
  request source fun q => q.update t v

def insert (t : τ) (source : PathSource) (v : Json) : Written τ Nat :=
  request source fun q => q.insert t v

def remove (t : τ) (source : PathSource) : Written τ Nat :=
  request source fun q => q.remove t

end TreePath.Direct

import TreePath.Port.Edge

namespace TreePath

/-- What the ports of a collection are for. -/
inductive PortRole where
  | input | output
  deriving DecidableEq, Repr

structure PortCollection where
  role : PortRole
  /-- The names in ascending order, with the places of their ports. -/
  ports : List (String × PortId)

namespace PortCollection

variable {κ : Type}

def empty (role : PortRole) : PortCollection := ⟨role, []⟩

def names (c : PortCollection) : List String := Fields.names c.ports

def size (c : PortCollection) : Nat := c.ports.length

def get? (c : PortCollection) (name : String) : Option PortId := Fields.find? c.ports name

/-- Gives a port a name, instead of the one that had it. -/
def insert (c : PortCollection) (t : PortTable κ) (name : String) (p : Port κ) :
    PortId × PortCollection × PortTable κ :=
  let (i, t) := t.add p
  (i, { c with ports := Fields.insert c.ports name i }, t)

/-- The port of a name; an unbound one is made when there is none. -/
def port (c : PortCollection) (t : PortTable κ) (name : String) :
    PortId × PortCollection × PortTable κ :=
  match c.get? name with
  | some i => (i, c, t)
  | none => c.insert t name (.unbound [])

/-- An edge between a port of the collection and another one, in the direction of the role. -/
def edge (c : PortCollection) (t : PortTable κ) (name : String) (counterpart : PortId) :
    Edge × PortCollection × PortTable κ :=
  let (own, c, t) := c.port t name
  match c.role with
  | .input => (.between counterpart own, c, t)
  | .output => (.between own counterpart, c, t)

end PortCollection

end TreePath

import TreePath.Port.Collection

namespace TreePath

/-- The nodes, ports and edges that are wired together, by name. One port may have several names,
and edges see every change of their ports. -/
structure Board (κ : Type) where
  nodes : List (String × κ)
  table : PortTable κ
  ports : List (String × PortId)
  edges : List (String × Edge)
  /-- The edges that were handed over for keeping. -/
  registry : List Edge
  inputs : PortCollection
  outputs : PortCollection

namespace Board

variable {κ : Type}

def ofNodes (nodes : List (String × κ)) : Board κ :=
  ⟨nodes, .empty, [], [], [], .empty .input, .empty .output⟩

def node? (b : Board κ) (name : String) : Option κ := b.nodes.lookup name

def port (b : Board κ) (i : PortId) : Port κ := b.table.get i

/-- The place of the port of a name. -/
def portId? (b : Board κ) (name : String) : Option PortId := Fields.find? b.ports name

def edge? (b : Board κ) (name : String) : Option Edge := Fields.find? b.edges name

/-- The names of the port at a place. -/
def namesOf (b : Board κ) (i : PortId) : List String :=
  Fields.names (b.ports.filter fun entry => entry.2 == i)

/-- Gives the port at a place a name. -/
def namePort (b : Board κ) (name : String) (i : PortId) : Board κ :=
  { b with ports := Fields.insert b.ports name i }

def nameEdge (b : Board κ) (name : String) (e : Edge) : Board κ :=
  { b with edges := Fields.insert b.edges name e }

def addPort (b : Board κ) (p : Port κ) : PortId × Board κ :=
  let (i, table) := b.table.add p
  (i, { b with table })

def modifyPort (b : Board κ) (i : PortId) (f : Port κ → Port κ) : Board κ :=
  { b with table := b.table.modify i f }

/-- An edge between two ports that nothing else uses. -/
def link (b : Board κ) (source target : Port κ) : Edge × Board κ :=
  let (e, table) := b.table.link source target
  (e, { b with table })

/-- Hands an edge over, and tells its place among the others. -/
def register (b : Board κ) (e : Edge) : Nat × Board κ :=
  (b.registry.length, { b with registry := b.registry ++ [e] })

def collection (b : Board κ) : PortRole → PortCollection
  | .input => b.inputs
  | .output => b.outputs

/-- Takes a step with a collection and the table of ports. -/
def withCollection {α : Type} (b : Board κ) (role : PortRole)
    (f : PortCollection → PortTable κ → α × PortCollection × PortTable κ) : α × Board κ :=
  let (a, c, table) := f (b.collection role) b.table
  match role with
  | .input => (a, { b with inputs := c, table })
  | .output => (a, { b with outputs := c, table })

end Board

end TreePath

import TreePath.Port.Basic

namespace TreePath

/-- The place of a port in the table. -/
abbrev PortId := Nat

/-- The ports that have been made so far. -/
structure PortTable (κ : Type) where
  ports : Array (Port κ)

namespace PortTable

variable {κ : Type}

def empty : PortTable κ := ⟨#[]⟩

/-- Puts a port into a place of its own. -/
def add (t : PortTable κ) (p : Port κ) : PortId × PortTable κ :=
  (t.ports.size, ⟨t.ports.push p⟩)

/-- The port at a place; an unbound one where there is none. -/
def get (t : PortTable κ) (i : PortId) : Port κ := t.ports[i]?.getD (.unbound [])

def modify (t : PortTable κ) (i : PortId) (f : Port κ → Port κ) : PortTable κ :=
  ⟨t.ports.modify i f⟩

end PortTable

structure Edge where
  source : PortId
  target : PortId
  label : Option String
  description : Option String
  deriving DecidableEq, Repr

namespace Edge

variable {κ ν : Type} [TreeAccess ν]

def between (source target : PortId) : Edge := ⟨source, target, none, none⟩

def withLabel (e : Edge) (label : String) : Edge := { e with label := some label }

def withDescription (e : Edge) (description : String) : Edge :=
  { e with description := some description }

/-- Whether both ends hold a node. -/
def isLinked (e : Edge) (t : PortTable κ) : Bool :=
  (t.get e.source).isBound && (t.get e.target).isBound

def fetchSource (deref : κ → ν) (e : Edge) (t : PortTable κ) : Resolving Json :=
  (t.get e.source).fetch deref

def fetchTarget (deref : κ → ν) (e : Edge) (t : PortTable κ) : Resolving Json :=
  (t.get e.target).fetch deref

end Edge

/-- An edge from one port to another, both put into places of their own. -/
def PortTable.link {κ : Type} (t : PortTable κ) (source target : Port κ) :
    Edge × PortTable κ :=
  let (i, t) := t.add source
  let (j, t) := t.add target
  (.between i j, t)

end TreePath

namespace TreePath

structure Config where
  /-- The field that identifies the elements of a sequence. -/
  idField : String
  /-- How deep a walk may nest, and how far it may climb. No count exceeds the largest word, which
  therefore limits nothing. -/
  depth : UInt64
  /-- Whether a value merged over another one that is no mapping replaces it. -/
  idempotent : Bool
  cacheEnabled : Bool
  cacheCapacity : Nat
  /-- How many empty slots a write may put in front of a position. -/
  maxIndexGap : Nat
  deriving DecidableEq, Repr

/-- What is wrong with the settings. -/
inductive ConfigError where
  | zeroDepth
  | depthTooLarge (depth : Nat)
  | emptyIdField
  | cacheWithoutCapacity
  deriving DecidableEq, Repr

namespace Config

/-- The depth limit as a number. -/
def maxDepth (c : Config) : Nat := c.depth.toNat

def defaultIdField : String := "name"

def default : Config where
  idField := defaultIdField
  depth := 256
  idempotent := true
  cacheEnabled := true
  cacheCapacity := 1024
  maxIndexGap := 4096

instance : Inhabited Config := ⟨default⟩

/-- The default settings without a cache of parsed paths. -/
def uncached : Config := { default with cacheEnabled := false }

/-- The largest depth limit that is accepted. -/
def depthLimit : Nat := 65536

/-- The first thing that is wrong, in the order identifier, depth, cache. -/
def validate (c : Config) : Except ConfigError Unit :=
  if c.idField.isEmpty then .error .emptyIdField
  else if c.maxDepth = 0 then .error .zeroDepth
  else if depthLimit < c.maxDepth then .error (.depthTooLarge c.maxDepth)
  else if c.cacheEnabled ∧ c.cacheCapacity = 0 then .error .cacheWithoutCapacity
  else .ok ()

end Config

namespace ConfigError

def message : ConfigError → String
  | zeroDepth => "Invalid depth limit: max_depth cannot be zero"
  | depthTooLarge depth =>
    "Invalid depth limit: max_depth " ++ toString depth ++ " exceeds limit " ++
      toString Config.depthLimit
  | emptyIdField => "Invalid configuration parameter: id_field cannot be empty"
  | cacheWithoutCapacity =>
    "Configuration conflict: cache is enabled but cache_capacity is zero"

end ConfigError

end TreePath

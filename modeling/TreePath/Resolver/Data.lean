import TreePath.Resolver.Basic

namespace TreePath

namespace Config

def toData (c : Config) : Json :=
  .obj (Fields.ofList [("id_field", .str c.idField), ("max_depth", .ofNat c.maxDepth),
    ("idempotent", .bool c.idempotent), ("max_index_gap", .ofNat c.maxIndexGap),
    ("cache", .arr [.bool c.cacheEnabled, .ofNat c.cacheCapacity])])

/-- The settings with those replaced that an object names. -/
def withData (c : Config) (data : Json) : Config where
  idField := ((data.field? "id_field").bind Json.asString?).getD c.idField
  depth := (((data.field? "max_depth").bind Json.asNat?).map UInt64.ofNat).getD c.depth
  idempotent := ((data.field? "idempotent").bind Json.asBool?).getD c.idempotent
  cacheEnabled :=
    match data.field? "cache" with
    | some (.arr [.bool enabled, _]) => enabled
    | _ => c.cacheEnabled
  cacheCapacity :=
    match data.field? "cache" with
    | some (.arr [_, capacity]) => capacity.asNat?.getD c.cacheCapacity
    | _ => c.cacheCapacity
  maxIndexGap := ((data.field? "max_index_gap").bind Json.asNat?).getD c.maxIndexGap

/-- The settings that an object describes: those that it names, and for the others the default
ones, or the ones without a cache if it says so. -/
def ofData (data : Json) : Config :=
  match data.field? "uncached" with
  | some (.bool true) => Config.uncached.withData data
  | _ => Config.default.withData data

end Config

namespace Stats

def fields (s : Stats) : List (String × Json) :=
  [("parses", .ofNat s.parses), ("cache_hits", .ofNat s.cacheHits), ("lookups", .ofNat s.lookups),
    ("writes", .ofNat s.writes), ("guard_trips", .ofNat s.guardTrips)]

def toData (s : Stats) : Json := .obj (Fields.ofList s.fields)

end Stats

/-- The counters of a resolver, and how many paths it has cached. -/
def Resolver.report (r : Resolver) : Json :=
  .obj (Fields.ofList (("cached", .ofNat r.cache.size) :: r.stats.fields))

end TreePath

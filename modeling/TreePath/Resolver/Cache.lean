import TreePath.Path.Basic

namespace TreePath

structure Stats where
  /-- Texts that were parsed. -/
  parses : Nat
  /-- Texts that were found in the cache. -/
  cacheHits : Nat
  /-- Reads that were started. -/
  lookups : Nat
  /-- Writes that were started. -/
  writes : Nat
  /-- Walks that were cut short by a guard. -/
  guardTrips : Nat
  deriving DecidableEq, Repr

namespace Stats

def zero : Stats := ⟨0, 0, 0, 0, 0⟩

def countParse (s : Stats) : Stats := { s with parses := s.parses + 1 }

def countCacheHit (s : Stats) : Stats := { s with cacheHits := s.cacheHits + 1 }

def countLookup (s : Stats) : Stats := { s with lookups := s.lookups + 1 }

def countWrite (s : Stats) : Stats := { s with writes := s.writes + 1 }

def countTrips (s : Stats) (trips : Nat) : Stats := { s with guardTrips := s.guardTrips + trips }

end Stats

/-- Which entries go first when the cache is full. -/
structure Eviction where
  order : List (String × Path) → List (String × Path)
  order_perm : ∀ entries, (order entries).Perm entries

namespace Eviction

/-- The entries that have been there for the longest time go first. -/
def oldest : Eviction := ⟨fun entries => entries, fun _ => .refl _⟩

/-- Lets `count` entries go. -/
def drop (e : Eviction) (count : Nat) (entries : List (String × Path)) : List (String × Path) :=
  (e.order entries).drop count

end Eviction

structure Cache where
  enabled : Bool
  capacity : Nat
  eviction : Eviction
  /-- No text stands twice. -/
  entries : List (String × Path)

namespace Cache

def new (enabled : Bool) (capacity : Nat) (eviction : Eviction) : Cache :=
  ⟨enabled, capacity, eviction, []⟩

def size (c : Cache) : Nat := c.entries.length

def get? (c : Cache) (text : String) : Option Path :=
  if c.enabled then c.entries.lookup text else none

/-- How many entries go at once: a tenth of the capacity, but at least one. -/
def batch (c : Cache) : Nat := max (c.capacity / 10) 1

/-- Remembers what a text denotes, after making room when the cache is full. A cache that is
disabled or has no capacity remembers nothing. -/
def insert (c : Cache) (text : String) (path : Path) : Cache :=
  if c.enabled && c.capacity != 0 then
    let kept := if c.capacity ≤ c.size then c.eviction.drop c.batch c.entries else c.entries
    { c with entries := kept.filter (fun entry => entry.1 != text) ++ [(text, path)] }
  else c

def clear (c : Cache) : Cache := { c with entries := [] }

end Cache

end TreePath

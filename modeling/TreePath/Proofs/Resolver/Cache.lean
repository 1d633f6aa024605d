import Mathlib
import TreePath.Proofs.Resolver.Calls

namespace TreePath

section Entries

theorem Eviction.mem_of_mem_drop {e : Eviction} {count : Nat} {entries : List (String × Path)}
    {entry : String × Path} (h : entry ∈ e.drop count entries) : entry ∈ entries :=
  (e.order_perm entries).mem_iff.mp (List.mem_of_mem_drop h)

theorem Eviction.length_drop (e : Eviction) (count : Nat) (entries : List (String × Path)) :
    (e.drop count entries).length = entries.length - count := by
  rw [drop, List.length_drop, (e.order_perm entries).length_eq]

theorem Eviction.nodup_drop {e : Eviction} {entries : List (String × Path)}
    (h : (entries.map Prod.fst).Nodup) (count : Nat) :
    ((e.drop count entries).map Prod.fst).Nodup := by
  have horder : ((e.order entries).map Prod.fst).Nodup :=
    ((e.order_perm entries).map Prod.fst).nodup_iff.mpr h
  exact horder.sublist ((List.drop_sublist count _).map Prod.fst)

namespace Cache

variable {c : Cache} {t : String} {p : Path}

/-- Every text stands beside its own parse and stands once, there are no more of them than there is
room for, and none at all when the cache is disabled. -/
structure WellFormed (c : Cache) : Prop where
  parse_eq : ∀ entry ∈ c.entries, Path.parse entry.1 = .ok entry.2
  nodup : (c.entries.map Prod.fst).Nodup
  size_le : c.size ≤ c.capacity
  size_eq_zero : c.enabled = false → c.size = 0

theorem WellFormed.new (enabled : Bool) (capacity : Nat) (e : Eviction) :
    (Cache.new enabled capacity e).WellFormed where
  parse_eq _ h := absurd h List.not_mem_nil
  nodup := List.nodup_nil
  size_le := Nat.zero_le _
  size_eq_zero _ := rfl

theorem WellFormed.clear (c : Cache) : c.clear.WellFormed :=
  .new c.enabled c.capacity c.eviction

/-- What is found is what the text is parsed to. -/
theorem WellFormed.parse_of_get? (h : c.WellFormed) (hget : c.get? t = some p) :
    Path.parse t = .ok p := by
  unfold get? at hget
  split at hget
  · obtain ⟨before, behind, hentries, -⟩ := List.lookup_eq_some_iff.mp hget
    exact h.parse_eq (t, p) (by rw [hentries]; simp)
  · cases hget

/-- The entries that stay when another text is put in. -/
def kept (c : Cache) : List (String × Path) :=
  if c.capacity ≤ c.size then c.eviction.drop c.batch c.entries else c.entries

theorem mem_of_mem_kept {entry : String × Path} (h : entry ∈ c.kept) : entry ∈ c.entries := by
  unfold kept at h
  split at h
  · exact Eviction.mem_of_mem_drop h
  · exact h

/-- A full cache lets at least one entry go, so that there is room for another one. -/
theorem WellFormed.length_kept_lt (h : c.WellFormed) (hcapacity : c.capacity ≠ 0) :
    c.kept.length < c.capacity := by
  have hle := h.size_le
  have hbatch : 1 ≤ c.batch := Nat.le_max_right _ _
  unfold kept
  split
  · rw [Eviction.length_drop]
    change c.size - c.batch < c.capacity
    omega
  · change c.size < c.capacity
    omega

theorem WellFormed.nodup_kept (h : c.WellFormed) : (c.kept.map Prod.fst).Nodup := by
  unfold kept
  split
  · exact Eviction.nodup_drop h.nodup _
  · exact h.nodup

/-- Entries in front of the one that is put in are those that stay, but for one of its text. -/
theorem insert_eq (henabled : c.enabled = true) (hcapacity : c.capacity ≠ 0) :
    c.insert t p =
      { c with entries := c.kept.filter (fun entry => entry.1 != t) ++ [(t, p)] } := by
  have hroom : (c.enabled && c.capacity != 0) = true := by simp [henabled, hcapacity]
  exact if_pos hroom

theorem insert_eq_self (h : c.enabled = false ∨ c.capacity = 0) : c.insert t p = c := by
  have hroom : ¬ (c.enabled && c.capacity != 0) = true := by
    rcases h with h | h <;> simp [h]
  exact if_neg hroom

theorem enabled_insert (c : Cache) (t : String) (p : Path) :
    (c.insert t p).enabled = c.enabled := by
  unfold insert
  split <;> rfl

theorem capacity_insert (c : Cache) (t : String) (p : Path) :
    (c.insert t p).capacity = c.capacity := by
  unfold insert
  split <;> rfl

theorem WellFormed.insert (h : c.WellFormed) (hp : Path.parse t = .ok p) :
    (c.insert t p).WellFormed := by
  by_cases hroom : c.enabled = false ∨ c.capacity = 0
  · rw [insert_eq_self hroom]
    exact h
  · obtain ⟨henabled, hcapacity⟩ := not_or.mp hroom
    rw [insert_eq (Bool.not_eq_false _ ▸ henabled) hcapacity]
    refine ⟨?_, ?_, ?_, fun hdisabled => absurd hdisabled henabled⟩
    · intro entry hentry
      rcases List.mem_append.mp hentry with hold | hnew
      · exact h.parse_eq entry (mem_of_mem_kept (List.mem_filter.mp hold).1)
      · obtain rfl := List.mem_singleton.mp hnew
        exact hp
    · change (List.map Prod.fst (_ ++ [(t, p)])).Nodup
      rw [List.map_append, List.nodup_append]
      refine ⟨h.nodup_kept.sublist (List.filter_sublist.map Prod.fst), by simp, ?_⟩
      rintro text hold t' hnew rfl
      obtain ⟨entry, hentry, rfl⟩ := List.mem_map.mp hold
      obtain ⟨-, hne⟩ := List.mem_filter.mp hentry
      simp_all
    · change (_ ++ [(t, p)]).length ≤ c.capacity
      have hlt := h.length_kept_lt hcapacity
      have hfilter := List.length_filter_le (fun entry => entry.1 != t) c.kept
      rw [List.length_append, List.length_singleton]
      omega

/-- What has been put in is found, for it is put in last. -/
theorem get?_insert (henabled : c.enabled = true) (hcapacity : c.capacity ≠ 0) :
    (c.insert t p).get? t = some p := by
  have hold : (c.kept.filter fun entry => entry.1 != t).lookup t = none := by
    rw [List.lookup_eq_none_iff]
    intro entry hentry
    obtain ⟨-, hne⟩ := List.mem_filter.mp hentry
    rwa [bne_comm]
  rw [insert_eq henabled hcapacity, get?, if_pos henabled]
  change List.lookup t (_ ++ [(t, p)]) = some p
  rw [List.lookup_append, hold, Option.none_or, List.lookup_cons_self]

end Cache

end Entries

namespace Resolver

variable {config : Config} {r : Resolver} {k : Nat}

section Compiling

/-- A text that is in the cache is not parsed; one that is parsed is put in, and one that cannot be
parsed leaves no trace. -/
theorem compile_text (t : String) (r : Resolver) : compile (.text t) r =
    match r.cache.get? t with
    | some p => (.ok p, { r with stats := r.stats.countCacheHit })
    | none =>
      match Path.parse t with
      | .ok p => (.ok p, { r with cache := r.cache.insert t p, stats := r.stats.countParse })
      | .error e => (.error e, r) := by
  have hcompile : compile (.text t) r = (match r.cache.get? t with
    | some p => do
      count Stats.countCacheHit
      return p
    | none => do
      let p ← Path.parse t
      count Stats.countParse
      modify fun r => { r with cache := r.cache.insert t p }
      return p : Resolving Path) r := rfl
  rw [hcompile]
  cases r.cache.get? t with
  | some p => rfl
  | none => cases Path.parse t <;> rfl

/-- The cache does not show in what a text is compiled to. -/
theorem compile_eq_parse (h : r.cache.WellFormed) (t : String) :
    (compile (.text t) r).1 = Path.parse t := by
  rw [compile_text]
  cases hget : r.cache.get? t with
  | some p => exact (h.parse_of_get? hget).symm
  | none => cases Path.parse t <;> rfl

/-- A text that has been compiled is in the cache. -/
theorem get?_compile (henabled : r.cache.enabled = true) (hcapacity : r.cache.capacity ≠ 0)
    (h : r.cache.WellFormed) {t : String} {p : Path} (hp : Path.parse t = .ok p) :
    (compile (.text t) r).2.cache.get? t = some p := by
  rw [compile_text]
  cases hget : r.cache.get? t with
  | some q =>
    have hq := h.parse_of_get? hget
    obtain rfl := Except.ok.inj (hq.symm.trans hp)
    exact hget
  | none =>
    rw [hp]
    exact Cache.get?_insert henabled hcapacity

end Compiling

section Running

/-- Another order in which the cache lets its entries go. -/
def reorder (e : Eviction) (r : Resolver) : Resolver :=
  { r with cache := { r.cache with eviction := e } }

/-- Whether a text is compiled, as a number; one that cannot be parsed is not counted. -/
def compilesOf (source : PathSource) (r : Resolver) : Nat :=
  match source with
  | .text t => if (compile (.text t) r).1.isOk then 1 else 0
  | .path _ => 0

/-- How many texts are compiled for the call. -/
def Call.compiles (c : Call) (r : Resolver) : Nat :=
  match c.source? with
  | some source => compilesOf source r
  | none => 0

/-- The states that a new resolver gets into, each with the number of texts that have been compiled
so far. The order in which the cache lets its entries go is another one whenever it likes. -/
inductive Reached (config : Config) : Resolver → Nat → Prop where
  | start (e : Eviction) : Reached config (evicting e config) 0
  | reorder {r : Resolver} {k : Nat} (h : Reached config r k) (e : Eviction) :
      Reached config (r.reorder e) k
  | clearCache {r : Resolver} {k : Nat} (h : Reached config r k) :
      Reached config (Resolver.clearCache r).2 k
  | call {r : Resolver} {k : Nat} (h : Reached config r k) (c : Call) :
      Reached config (c.after r) (k + c.compiles r)

/-- The cache is the one that the settings ask for, and the counters add up to the number of texts
that have been compiled. -/
structure Serves (config : Config) (r : Resolver) (k : Nat) : Prop where
  enabled_eq : r.cache.enabled = config.cacheEnabled
  capacity_eq : r.cache.capacity = config.cacheCapacity
  wellFormed : r.cache.WellFormed
  compiled : r.stats.parses + r.stats.cacheHits = k

theorem Serves.start (config : Config) (e : Eviction) : Serves config (evicting e config) 0 :=
  ⟨rfl, rfl, .new _ _ _, rfl⟩

theorem Serves.reorder (h : Serves config r k) (e : Eviction) : Serves config (r.reorder e) k where
  enabled_eq := h.enabled_eq
  capacity_eq := h.capacity_eq
  wellFormed := ⟨h.wellFormed.parse_eq, h.wellFormed.nodup, h.wellFormed.size_le,
    h.wellFormed.size_eq_zero⟩
  compiled := h.compiled

theorem Serves.clearCache (h : Serves config r k) : Serves config (clearCache r).2 k where
  enabled_eq := h.enabled_eq
  capacity_eq := h.capacity_eq
  wellFormed := .clear _
  compiled := h.compiled

theorem Serves.sameTexts {r' : Resolver} (h : Serves config r k) (hsame : SameTexts r r') :
    Serves config r' k where
  enabled_eq := by rw [hsame.cache_eq, h.enabled_eq]
  capacity_eq := by rw [hsame.cache_eq, h.capacity_eq]
  wellFormed := by
    rw [hsame.cache_eq]
    exact h.wellFormed
  compiled := by rw [hsame.parses_eq, hsame.cacheHits_eq, h.compiled]

/-- Every text that is compiled is counted once, as parsed or as found. -/
theorem Serves.compileText (h : Serves config r k) (t : String) :
    Serves config (compile (.text t) r).2 (k + compilesOf (.text t) r) := by
  have hcount := h.compiled
  change Serves config (compile (.text t) r).2
    (k + if (compile (.text t) r).1.isOk then 1 else 0)
  rw [compile_text]
  cases r.cache.get? t with
  | some p =>
    refine ⟨h.enabled_eq, h.capacity_eq, h.wellFormed, ?_⟩
    change r.stats.parses + (r.stats.cacheHits + 1) = k + 1
    omega
  | none =>
    cases hparse : Path.parse t with
    | ok p =>
      refine ⟨?_, ?_, h.wellFormed.insert hparse, ?_⟩
      · exact (Cache.enabled_insert _ _ _).trans h.enabled_eq
      · exact (Cache.capacity_insert _ _ _).trans h.capacity_eq
      · change r.stats.parses + 1 + r.stats.cacheHits = k + 1
        omega
    | error e => exact h

theorem Serves.compiledFor (h : Serves config r k) (c : Call) :
    Serves config (c.compiled r) (k + c.compiles r) := by
  unfold Call.compiled Call.compiles
  cases c.source? with
  | none => exact h
  | some source =>
    cases source with
    | text t => exact h.compileText t
    | path p => exact h

theorem Reached.serves (h : Reached config r k) : Serves config r k := by
  induction h with
  | start e => exact .start config e
  | reorder _ e ih => exact ih.reorder e
  | clearCache _ ih => exact ih.clearCache
  | call _ c ih => exact (ih.compiledFor c).sameTexts (c.sameTexts_compiled _)

end Running

/-- Whatever a resolver has been asked before and whichever entries its cache has let go: a text is
compiled to its own parse, which is also what the cache holds for it; the cache holds no more than
it has room for; a text that has been compiled is found in the cache from then on, until something
else is asked; and each text that has been compiled was either parsed or found. -/
theorem compile_cached (config : Config) (r : Resolver) (k : Nat) (h : Reached config r k) :
    (∀ t, (compile (.text t) r).1 = Path.parse t) ∧
    (∀ entry ∈ r.cache.entries, Path.parse entry.1 = .ok entry.2) ∧
    (r.cache.size ≤ config.cacheCapacity ∧
      (config.cacheEnabled = false ∨ config.cacheCapacity = 0 → r.cache.size = 0)) ∧
    (∀ (c : Call) (t : String) (p : Path) (e : Eviction), c.source? = some (.text t) →
      Path.parse t = .ok p → config.cacheEnabled = true → config.cacheCapacity ≠ 0 →
      let r' := (c.after r).reorder e
      compile (.text t) r' = (.ok p, { r' with stats := r'.stats.countCacheHit })) ∧
    r.stats.parses + r.stats.cacheHits = k := by
  have hr := h.serves
  refine ⟨compile_eq_parse hr.wellFormed, hr.wellFormed.parse_eq, ⟨?_, ?_⟩, ?_, hr.compiled⟩
  · exact hr.capacity_eq ▸ hr.wellFormed.size_le
  · rintro (hdisabled | hzero)
    · exact hr.wellFormed.size_eq_zero (hr.enabled_eq.trans hdisabled)
    · have hle := hr.wellFormed.size_le
      rw [hr.capacity_eq, hzero] at hle
      exact Nat.le_zero.mp hle
  · intro c t p e hsource hparse henabled hcapacity r'
    have hcompiled : c.compiled r = (compile (.text t) r).2 := by
      rw [Call.compiled, hsource]
    have hcache : (c.after r).cache.get? t = some p := by
      rw [(c.sameTexts_compiled r).cache_eq, hcompiled]
      exact get?_compile (hr.enabled_eq.trans henabled) (hr.capacity_eq ▸ hcapacity) hr.wellFormed
        hparse
    have hfound : r'.cache.get? t = some p := hcache
    rw [compile_text, hfound]

/-- A read and a write share a cache that has room for one text. When the read is asked for again,
its text is in the cache once more. -/
theorem compile_cached_evicting :
    let config : Config := { Config.default with cacheCapacity := 1 }
    let read : Call := .find Json.null (.text "a/0")
    let removal : Call := .remove Json.null (.text "b")
    let r := removal.after (read.after (evicting .oldest config))
    let r' := (read.after r).reorder .oldest
    (compile (.text "a/0") r).1 = Path.parse "a/0" ∧ r.cache.size ≤ 1 ∧
      compile (.text "a/0") r' =
        (.ok [.key "a", .index 0], { r' with stats := r'.stats.countCacheHit }) ∧
      r.stats.parses + r.stats.cacheHits = 2 := by
  intro config read removal r r'
  obtain ⟨hcompile, -, ⟨hsize, -⟩, hnext, hcounts⟩ :=
    compile_cached config r _ (((Reached.start .oldest).call read).call removal)
  have hparse : Path.parse "a/0" = .ok [.key "a", .index 0] := by cbv
  exact ⟨hcompile _, hsize, hnext read "a/0" _ .oldest rfl hparse rfl (by decide),
    hcounts.trans (by cbv)⟩

end Resolver

end TreePath

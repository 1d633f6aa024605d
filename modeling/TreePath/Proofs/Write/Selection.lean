import TreePath.Proofs.Tree.Snapshot
import TreePath.Proofs.Walk.Simulation
import TreePath.Proofs.Write.BackReferences

namespace TreePath

open TreeAccess

/-- The children at which a query holds, as a read selects them. -/
def keptEntries {ν : Type} [TreeAccess ν] (config : Config) (query : Query) (n : ν) :
    Guarded (List (ChildKey × ν)) := do
  let marked ← (entries n).mapM fun entry => return (entry, ← meets config query entry.2)
  return (marked.filter (·.2)).map (·.1)

/-- A read through a query goes on at the children that it keeps. -/
theorem follow_keptEntries {ν : Type} [TreeAccess ν] (config : Config) (query : Query) (rest : Path)
    (depth : Nat) {n : ν} (hn : kind n ≠ .leaf) :
    follow config (.predicate query :: rest) depth n =
      keptEntries config query n >>= fun children =>
        spread (kind n) children fun child => walk config rest depth child := by
  rw [follow, if_neg hn, keptEntries, bind_assoc]
  simp only [pure_bind]

/-- A write through a query goes on at the keys of the children whose values match. -/
theorem writeOn_matchingKeys {τ : Type} [TreeUpdate τ] (config : Config) (patch : Patch) (done : Path)
    (query : Query) (rest : Path) (depth : Nat) {t : τ} (hvacant : TreeUpdate.isVacant t = false)
    (hkind : TreeUpdate.kind t ≠ .leaf) :
    writeOn config patch done (.predicate query :: rest) depth t =
      (Write.walk (matchingKeys config query) >>= fun keys =>
        writeEach config patch (done.append (.predicate query)) rest depth keys) t := by
  rw [writeOn]
  simp [Write.bind_apply, Write.view, hvacant, hkind]

/-- A walk over items whose steps end in forms of what other steps end in. -/
theorem Guarded.mapM_eq_map {α β γ : Type} {f : α → Guarded β} {g : α → Guarded γ} (form : γ → β)
    {xs : List α} (h : ∀ x ∈ xs, f x = form <$> g x) :
    xs.mapM f = List.map form <$> xs.mapM g := by
  induction xs with
  | nil => rfl
  | cons x xs ih =>
    obtain ⟨hx, hrest⟩ := List.forall_mem_cons.mp h
    rw [List.mapM_cons, List.mapM_cons, hx, ih hrest]
    exact Guarded.eq_of (by simp) (by simp)

section Nodes

variable {h : Heap} {gone : Finset Nat} {i : Nat}

/-- A query that does not lead upwards holds at a live node just when it holds at its value. -/
theorem meets_snapshot (hh : h.Consistent gone) (config : Config) {query : Query}
    (hquery : queryUpward query = false) {n : HeapNode} {v : Json} (hs : SnapshotOf h gone n v) :
    meets config query n = meets config query v := by
  have hup : Allows (SnapshotOf h gone) Eq (queryUpward query) := .inr hquery
  exact meets_eq (snapshot_likeness hh) config query hup hs

/-- The keys that a write goes on at are those of the children that a read keeps. -/
theorem matchingKeys_heap (hh : h.Consistent gone) (config : Config) {query : Query}
    (hquery : queryUpward query = false) (hi : h.Live gone i) (hplain : h.Plain i) :
    matchingKeys config query (⟨h, i⟩ : HeapNode) =
      (fun children => children.map (·.1)) <$> keptEntries config query (⟨h, i⟩ : HeapNode) := by
  have hs : SnapshotOf h gone ⟨h, i⟩ (h.toJson i) := ⟨rfl, hi, hplain, rfl⟩
  have hkeys : TreeUpdate.childKeys (⟨h, i⟩ : HeapNode) = (h.content i).entries.map (·.1) := rfl
  have hentries : entries (⟨h, i⟩ : HeapNode) =
      (h.content i).entries.map fun e => (e.1, (⟨h, e.2⟩ : HeapNode)) := rfl
  rw [matchingKeys, keptEntries, hkeys, hentries, List.mapM_map, List.mapM_map]
  rw [Guarded.mapM_eq_map (fun x : (ChildKey × HeapNode) × Bool => (x.1.1, x.2))
    (g := fun e => do
      return ((e.1, (⟨h, e.2⟩ : HeapNode)), ← meets config query (⟨h, e.2⟩ : HeapNode)))]
  · refine Guarded.eq_of ?_ (by simp [Function.comp_def])
    simp [List.filter_map, Function.comp_def]
  · intro e he
    have hchild : h.child? i e.1 = some e.2 := Content.child?_of_mem_entries (hh.tidy i) he
    have hvalue : TreeUpdate.childSnapshot? (⟨h, i⟩ : HeapNode) e.1 = some (h.toJson e.2) :=
      congrArg (Option.map h.toJson) hchild
    have hmeets : meets config query (⟨h, e.2⟩ : HeapNode) = meets config query (h.toJson e.2) :=
      meets_snapshot hh config hquery (hs.child hh (List.mem_map_of_mem he))
    simp only [Function.comp_apply, hvalue, ← hmeets]
    exact Guarded.eq_of rfl rfl

theorem mem_entries_of_kept (config : Config) (query : Query) {n : HeapNode}
    {entry : ChildKey × HeapNode} (h : entry ∈ (keptEntries config query n).value) :
    entry ∈ entries n := by
  simp only [keptEntries, Guarded.value_bind, Guarded.value_pure, Guarded.value_mapM,
    List.mem_map, List.mem_filter] at h
  obtain ⟨x, ⟨⟨e, he, rfl⟩, -⟩, rfl⟩ := h
  exact he

/-- In whatever state a heap is, and whatever a query asks for that does not lead upwards: a read and
a write through the query go on at the same children of a container, the read at the nodes and the
write at their keys. -/
theorem predicate_selects (hr : Heap.Reached h gone) (hi : h.Live gone i)
    (hcontainer : h.kind i ≠ .leaf) (hplain : h.Plain i) (config : Config) {query : Query}
    (hquery : queryUpward query = false) :
    (∀ rest depth, follow config (.predicate query :: rest) depth (⟨h, i⟩ : HeapNode) =
      keptEntries config query ⟨h, i⟩ >>= fun children =>
        spread (h.kind i) children fun child => walk config rest depth child) ∧
    (∀ patch done rest depth,
      writeOn config patch done (.predicate query :: rest) depth (⟨h, i⟩ : HeapNode) =
        (Write.walk (keptEntries config query) >>= fun children =>
          writeEach config patch (done.append (.predicate query)) rest depth
            (children.map (·.1))) ⟨h, i⟩) ∧
    ∀ entry ∈ (keptEntries config query (⟨h, i⟩ : HeapNode)).value,
      child? (⟨h, i⟩ : HeapNode) entry.1 = some entry.2 := by
  have hh := hr.consistent
  refine ⟨fun rest depth => follow_keptEntries config query rest depth hcontainer, ?_, ?_⟩
  · intro patch done rest depth
    have hvacant : h.isVacant i = false := by
      unfold Heap.isVacant
      split
      · next v hcontent =>
        exact absurd (show h.kind i = .leaf by rw [Heap.kind, hcontent]; rfl) hcontainer
      · rfl
    rw [writeOn_matchingKeys config patch done query rest depth hvacant hcontainer]
    simp only [Write.bind_apply, Write.walk,
      matchingKeys_heap hh config hquery hi hplain, Guarded.value_map, Guarded.trips_map]
  · intro entry hentry
    have hmem := mem_entries_of_kept config query hentry
    simp only [entries, List.mem_map] at hmem
    obtain ⟨e, he, rfl⟩ := hmem
    have hchild : h.child? i e.1 = some e.2 := Content.child?_of_mem_entries (hh.tidy i) he
    exact congrArg (Option.map _) hchild

theorem predicate_selects_first :
    let n := HeapNode.ofJson (.arr [.obj [("k", .ofNat 1)], .obj [("k", .ofNat 2)]])
    let query : Query := [([.key "k"], .value (.ofNat 1))]
    (Heap.Reached n.heap ∅ ∧ n.heap.Live ∅ n.cell ∧ n.heap.kind n.cell ≠ .leaf ∧
      n.heap.Plain n.cell ∧ queryUpward query = false) ∧
    (keptEntries .default query n).value.map (·.1) = [.index 0] ∧
    writeOn .default (.overwrite .null) [] [.predicate query, .key "x"] 0 n =
      (Write.walk (keptEntries .default query) >>= fun children =>
        writeEach .default (.overwrite .null) (Path.append [] (.predicate query)) [.key "x"] 0
          (children.map (·.1))) n := by
  intro n query
  have hv : (Json.arr [.obj [("k", .ofNat 1)], .obj [("k", .ofNat 2)]]).WellFormed :=
    ⟨⟨Fields.ascending_single _ _, trivial, trivial⟩,
      ⟨Fields.ascending_single _ _, trivial, trivial⟩, trivial⟩
  obtain ⟨S, hholds⟩ := HeapNode.ofJson_holds hv
  have hr : Heap.Reached n.heap ∅ := .step .empty (.ofJson hv)
  have hlive : n.heap.Live ∅ n.cell := ⟨by decide, by simp⟩
  have hkind : n.heap.kind n.cell ≠ .leaf := by decide
  exact ⟨⟨hr, hlive, hkind, hholds.plain, rfl⟩, by cbv,
    (predicate_selects hr hlive hkind hholds.plain .default rfl).2.1 _ _ _ _⟩

/-- Asked for an element whose sequence starts with 1, a read keeps the 1 in `[1]`, and a write finds
nothing to write to. Asked for one with 1 at `k`, a write finds a leaf that holds such an object, and
a read, to which a leaf has no children, does not. -/
theorem predicate_not_selects :
    let n := HeapNode.ofJson (.arr [.ofNat 1])
    let above : Query := [([.tag .parent, .index 0], .value (.ofNat 1))]
    let m : HeapNode := ⟨⟨#[⟨some 1, .leaf (.obj [("k", .ofNat 1)])⟩, ⟨none, .sequence [0]⟩]⟩, 1⟩
    let below : Query := [([.key "k"], .value (.ofNat 1))]
    (Heap.Reached n.heap ∅ ∧ n.heap.Live ∅ n.cell ∧ n.heap.kind n.cell ≠ .leaf ∧
      (keptEntries .default above n).value.map (·.1) = [.index 0] ∧
      (matchingKeys .default above n).value = []) ∧
    Heap.Reached m.heap ∅ ∧ m.heap.Live ∅ m.cell ∧ m.heap.kind m.cell ≠ .leaf ∧
      (keptEntries .default below m).value.map (·.1) = [] ∧
      (matchingKeys .default below m).value = [.index 0] := by
  intro n above m below
  have hv : (Json.arr [.ofNat 1]).WellFormed := ⟨trivial, trivial⟩
  have hleaf : (Json.obj [("k", .ofNat 1)]).WellFormed :=
    ⟨Fields.ascending_single _ _, trivial, trivial⟩
  let parts : Heap := ⟨#[⟨none, .leaf (.obj [("k", .ofNat 1)])⟩, ⟨none, .sequence []⟩]⟩
  have hparts : Heap.Reached parts ∅ := .step (.step .empty (.leaf hleaf)) .sequence
  have hm : Heap.Reached m.heap ∅ := by
    have hinsertable : parts.Insertable ∅ 1 0 := {
      loose := hparts.consistent.loose_of_parent? ⟨by decide, by simp⟩ (by cbv)
      ne := by decide
      not_above := Heap.not_above_of_parent? (by cbv) }
    exact .step hparts (.push ⟨by decide, by simp⟩ hinsertable)
  exact ⟨⟨.step .empty (.ofJson hv), ⟨by decide, by simp⟩, by decide, by cbv, by cbv⟩,
    hm, ⟨by decide, by simp⟩, by decide, by cbv, by cbv⟩

end Nodes

end TreePath

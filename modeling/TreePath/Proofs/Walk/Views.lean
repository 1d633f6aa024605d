import Mathlib
import TreePath.Proofs.Walk.Ascent
import TreePath.Proofs.Walk.Agreement
import TreePath.Proofs.Write.BackReferences
import TreePath.Proofs.Tree.Snapshot

namespace TreePath

open TreeAccess

section Found

/-- A key as a value: a name, or a position as an integer. -/
def ChildKey.asJson : ChildKey → Json
  | .name n => .str n
  | .index i => .ofNat i

/-- The children of what is found; there are none where nothing is found. -/
def childrenOf (found : Option Json) : List (ChildKey × Json) := found.elim [] Json.children

/-- What is counted where something is found: the children of a container, or one scalar. -/
def countOf : Option Json → Nat
  | none => 0
  | some v => if v.kind.isContainer then v.children.length else 1

/-- The operation that asks whether there is something of a kind. -/
def Operation.isKind : NodeKind → Operation
  | .leaf => .isLeaf
  | .sequence => .isList
  | .mapping => .isDict

theorem Json.size_eq_length (v : Json) : v.size = v.children.length := by
  cases v with
  | obj fields => exact (List.length_map _).symm
  | arr items => simp [size, children]
  | null | bool | num | str => rfl

/-- The keys of a value are names in a mapping, and positions in a sequence. -/
theorem keyValue_eq {v : Json} {e : ChildKey × Json} (he : e ∈ v.children) :
    keyValue v.kind e.1 = e.1.asJson := by
  obtain ⟨key, child⟩ := e
  cases v with
  | obj fields =>
    obtain ⟨name, rfl, -⟩ := Json.mem_children_obj.mp he
    rfl
  | arr items =>
    obtain ⟨i, rfl, -⟩ := Json.mem_children_arr.mp he
    rfl
  | null | bool | num | str => cases he

theorem Guarded.value_findM? {α : Type} (f : α → Guarded Bool) (xs : List α) :
    (xs.findM? f).value = xs.find? fun x => (f x).value := by
  induction xs with
  | nil => rfl
  | cons x xs ih =>
    rw [List.findM?, Guarded.value_bind, List.find?_cons]
    cases (f x).value with
    | true => rfl
    | false => exact ih

/-- Whatever is asked for where a walk ends is told by the value `found` that it ends with. -/
structure Resolved.Shows {ν : Type} [TreeAccess ν] (config : Config) (x : Resolved ν)
    (found : Option Json) : Prop where
  toJson?_eq : x.toJson? = found
  isAbsent_eq : x.isAbsent = found.isNone
  kind?_eq : x.kind? = found.map Json.kind
  count_eq : x.count = countOf found
  keys?_eq : x.keys? = found.map fun v => v.children.map fun e => e.1.asJson
  entries_eq : x.entries = childrenOf found
  search_eq (query : Query) (hquery : queryUpward query = false) :
    (x.search config query).value =
      ((childrenOf found).find? fun e => (meets config query e.2).value).map fun e => e.1.asJson

variable {ν : Type} [TreeAccess ν] (config : Config) (v : Json)

theorem shows_absent : (Resolved.absent : Resolved ν).Shows config none :=
  ⟨rfl, rfl, rfl, rfl, rfl, rfl, fun _ _ => rfl⟩

theorem shows_value : (Resolved.value v : Resolved ν).Shows config (some v) where
  toJson?_eq := rfl
  isAbsent_eq := rfl
  kind?_eq := rfl
  count_eq := congrArg (fun size => if v.kind.isContainer then size else 1) v.size_eq_length
  keys?_eq := by
    refine congrArg some ?_
    rw [Json.childKeys, List.map_map]
    exact List.map_congr_left fun e he => keyValue_eq he
  entries_eq := rfl
  search_eq query _ := by
    have hfirst : ((Resolved.value v : Resolved ν).search config query).value =
        (v.children.findM? fun e => meets config query e.2).value.map
          fun e => keyValue v.kind e.1 := rfl
    rw [hfirst, Guarded.value_findM?]
    exact Option.map_congr fun e he => keyValue_eq (List.mem_of_find?_eq_some he)

theorem shows_node {R : ν → Json → Prop} (hR : Likeness R) {n : ν} (h : R n v) :
    (Resolved.node n).Shows config (some v) := by
  have hrel : Resolved.Rel R (.node n) (.node v) := .node h
  have hvalue := shows_value (ν := Json) config v
  refine ⟨?_, rfl, ?_, ?_, ?_, ?_, fun query hquery => ?_⟩
  · exact hrel.toJson?_eq hR
  · exact hrel.kind?_eq hR
  · exact (hrel.count_eq hR).trans hvalue.count_eq
  · rw [keys?_eq hR hrel]
    exact congrArg some (List.map_congr_left fun e he => keyValue_eq he)
  · rw [hrel.entries_eq hR]
    exact List.map_id v.children
  · have hasked : Allows R Eq (queryUpward query) := .inr hquery
    have hsearch := search_eq hR config query hasked hrel
    rw [hsearch]
    exact hvalue.search_eq query hquery

end Found

section Landing

variable {ν : Type} [TreeAccess ν] {P : ν → Prop} {n m : ν}

/-- No step from a node of the kind leads to one of another kind. -/
structure Enclosed (P : ν → Prop) : Prop where
  child {n c : ν} {key : ChildKey} : P n → child? n key = some c → P c
  entry {n : ν} {e : ChildKey × ν} : P n → e ∈ entries n → P e.2
  parent {n p : ν} : P n → parent? n = some p → P p

theorem Enclosed.all : Enclosed fun _ : ν => True :=
  ⟨fun _ _ => trivial, fun _ _ => trivial, fun _ _ => trivial⟩

theorem Enclosed.likeness (hP : Enclosed P) : Likeness fun a b : ν => a = b ∧ P a where
  kind_eq h := congrArg _ h.1
  size_eq h := congrArg _ h.1
  toJson_eq h := congrArg _ h.1
  child? := by
    rintro a _ ⟨rfl, ha⟩ key
    cases hc : TreeAccess.child? a key with
    | none => exact .none
    | some c => exact .some ⟨rfl, hP.child ha hc⟩
  entries := by
    rintro a _ ⟨rfl, ha⟩
    exact List.forall₂_same.mpr fun e he => ⟨rfl, rfl, hP.entry ha he⟩

theorem Enclosed.climbing (hP : Enclosed P) : Climbing (fun a b : ν => a = b ∧ P a) Eq where
  parent? := by
    rintro a _ ⟨rfl, ha⟩
    cases hp : TreeAccess.parent? a with
    | none => exact .none
    | some p => exact .some ⟨rfl, hP.parent ha hp⟩
  identity? := by
    rintro a _ ⟨rfl, -⟩
    cases TreeAccess.identity? a with
    | none => exact .none
    | some i => exact .some rfl
  biUnique := ⟨fun _ _ _ h h' => h.trans h'.symm, fun _ _ _ h h' => h.symm.trans h'⟩

/-- A walk leads to no node that cannot be reached by steps. -/
theorem Enclosed.walk (hP : Enclosed P) (config : Config) (path : Path) (depth : Nat) (hn : P n)
    (hm : (walk config path depth n).value = .node m) : P m := by
  have hself : n = n ∧ P n := ⟨rfl, hn⟩
  have hrel := (walk_rel hP.likeness config path (.inl hP.climbing) depth hself).value
  rw [hm] at hrel
  cases hrel with
  | node h => exact h.2

theorem Likeness.flip {μ : Type} [TreeAccess μ] {R : ν → μ → Prop} (hR : Likeness R) :
    Likeness fun m n => R n m where
  kind_eq h := (hR.kind_eq h).symm
  size_eq h := (hR.size_eq h).symm
  toJson_eq h := (hR.toJson_eq h).symm
  child? h key := by
    rcases rel_cases (hR.child? h key) with ⟨hn, hm⟩ | ⟨a, b, hn, hm, hab⟩
    · rw [hn, hm]
      exact .none
    · rw [hn, hm]
      exact .some hab
  entries h := (hR.entries h).flip.imp fun _ _ hxy => ⟨hxy.1.symm, hxy.2⟩

end Landing

section Reads

variable {ν : Type} [TreeAccess ν] {n : ν} {path : Path} {r : Resolver}

/-- The reads along the path, each of which asks for something else, are views of one result: what
`found` is. -/
structure Views (r : Resolver) (n : ν) (path : Path) (found : Option Json) : Prop where
  find : (Resolver.find n (.path path) r).1 = .ok found
  has : (Resolver.has n (.path path) r).1 = .ok found.isSome
  /-- Counts are integers of 64 bits. -/
  countAt (hsize : countOf found < UInt64.size) :
    (Resolver.countAt n (.path path) r).1 = .ok (countOf found)
  keys : (Resolver.keys n (.path path) r).1 = .ok ((childrenOf found).map fun e => e.1.asJson)
  entries : (Resolver.entries n (.path path) r).1 = .ok (childrenOf found)
  search (query : Query) (hquery : queryUpward query = false) :
    (Resolver.search n (.path path) query r).1 =
      .ok (((childrenOf found).find? fun e => (Resolver.isMatch e.2 query r).1).map
        fun e => e.1.asJson)
  kind (k : NodeKind) : (Resolver.resolve n path (.isKind k) none r).1 =
    some (.bool (found.map Json.kind == some k))
  /-- There is something of just one kind, if there is something at all. -/
  oneKind : found.isSome = true →
    ∃! k, (Resolver.resolve n path (.isKind k) none r).1 = some (.bool true)

theorem Json.asNat?_ofNat {k : Nat} (hk : k < UInt64.size) : (Json.ofNat k).asNat? = some k := by
  have hmin : min k (UInt64.size - 1) = k := Nat.min_eq_left (Nat.le_pred_of_lt hk)
  change (((min k (UInt64.size - 1) : Nat) : Int)).toNat? = some k
  rw [hmin]
  rfl

theorem Resolver.resolve_answer (hpath : path.splitOperation.2 = none) (operation : Operation) :
    (Resolver.resolve n path operation none r).1 =
      ((walk r.config path 0 n).value.answer r.config operation).value := by
  rw [Resolver.resolve_run hpath]
  exact Option.or_none

theorem resolve_isKind (hpath : path.splitOperation.2 = none) (k : NodeKind) :
    (Resolver.resolve n path (.isKind k) none r).1 =
      some (.bool ((walk r.config path 0 n).value.kind? == some k)) := by
  rw [Resolver.resolve_answer hpath]
  cases k <;> rfl

theorem Views.of_shows (hpath : path.splitOperation.2 = none) {found : Option Json}
    (h : (walk r.config path 0 n).value.Shows r.config found) : Views r n path found where
  find := by
    change Except.ok (Resolver.resolve n path .fetch none r).1 = _
    rw [Resolver.resolve_answer hpath]
    exact congrArg Except.ok h.toJson?_eq
  has := by
    change Except.ok (((Resolver.resolve n path .exists none r).1.bind Json.asBool?).getD false) = _
    rw [Resolver.resolve_answer hpath]
    change Except.ok (!(walk r.config path 0 n).value.isAbsent) = _
    rw [h.isAbsent_eq, Option.not_isNone]
  countAt hsize := by
    change Except.ok (((Resolver.resolve n path .count none r).1.bind Json.asNat?).getD 0) = _
    rw [Resolver.resolve_answer hpath]
    change Except.ok ((Json.ofNat (walk r.config path 0 n).value.count).asNat?.getD 0) = _
    rw [h.count_eq, Json.asNat?_ofNat hsize, Option.getD_some]
  keys := by
    change Except.ok (((Resolver.resolve n path .keys none r).1.bind Json.asArray?).getD []) = _
    rw [Resolver.resolve_answer hpath]
    change Except.ok ((((walk r.config path 0 n).value.keys?.map Json.arr).bind
      Json.asArray?).getD []) = _
    rw [h.keys?_eq]
    cases found <;> rfl
  entries := congrArg Except.ok h.entries_eq
  search query hquery := by
    change Except.ok (Resolver.resolve n path (.search query) none r).1 = _
    rw [Resolver.resolve_answer hpath]
    exact congrArg Except.ok (h.search_eq query hquery)
  kind k := by rw [resolve_isKind hpath, h.kind?_eq]
  oneKind hsome := by
    obtain ⟨v, rfl⟩ := Option.isSome_iff_exists.mp hsome
    have hasked : ∀ k, (Resolver.resolve n path (.isKind k) none r).1 = some (.bool true) ↔
        v.kind = k := by
      intro k
      rw [resolve_isKind hpath, h.kind?_eq]
      simp
    exact ⟨v.kind, (hasked v.kind).mpr rfl, fun k hk => ((hasked k).mp hk).symm⟩

/-- In an enclosed part of a tree whose nodes look like their values, all reads are views of what is
found. -/
theorem Views.of_enclosed {P : ν → Prop} (hP : Enclosed P) {R : ν → Json → Prop} (hR : Likeness R)
    (hlooks : ∀ m, P m → ∃ v, R m v) (hpath : path.splitOperation.2 = none) (hn : P n) :
    Views r n path (r.found n path) := by
  refine .of_shows hpath ?_
  rw [Resolver.found_eq hpath]
  cases hwalk : (walk r.config path 0 n).value with
  | absent => exact shows_absent r.config
  | value v => exact shows_value r.config v
  | node m =>
    obtain ⟨v, hv⟩ := hlooks m (hP.walk r.config path 0 hn hwalk)
    rw [Resolved.toJson?, hR.toJson_eq hv]
    exact shows_node r.config v hR hv

end Reads

section Trees

variable {h : Heap} {gone : Finset Nat} {top : Nat}

/-- The node stands in the tree below a cell. -/
structure StandsBelow (h : Heap) (top : Nat) (n : HeapNode) : Prop where
  heap_eq : n.heap = h
  below : Relation.ReflTransGen (fun i c => c ∈ (h.content i).children) top n.cell

theorem Heap.Consistent.live_of_below (hh : h.Consistent gone) (htop : h.Live gone top) {i : Nat}
    (hi : Relation.ReflTransGen (fun i c => c ∈ (h.content i).children) top i) :
    h.Live gone i := by
  induction hi with
  | refl => exact htop
  | tail _ hc ih => exact hh.closed ih hc

/-- The tree below a top has all that is above its nodes in it. -/
theorem enclosed_standsBelow (hh : h.Consistent gone) (htop : h.Live gone top)
    (habove : h.parent? top = none) : Enclosed (StandsBelow h top) where
  child := by
    rintro ⟨_, i⟩ c key hn hc
    obtain rfl := hn.heap_eq
    obtain ⟨j, hj, rfl⟩ := Option.map_eq_some_iff.mp hc
    exact ⟨rfl, hn.below.tail (Heap.mem_children_of_child? hj)⟩
  entry := by
    rintro ⟨_, i⟩ e hn he
    obtain rfl := hn.heap_eq
    obtain ⟨entry, hentry, rfl⟩ := List.mem_map.mp he
    exact ⟨rfl, hn.below.tail (List.mem_map_of_mem hentry)⟩
  parent := by
    rintro ⟨_, i⟩ p hn hp
    obtain rfl := hn.heap_eq
    obtain ⟨j, hj, rfl⟩ := Option.map_eq_some_iff.mp hp
    rcases hn.below.cases_tail with hi | ⟨q, hq, hi⟩
    · rw [hi, habove] at hj
      cases hj
    · have hlive := hh.live_of_below htop hq
      have hparent := (hh.linked hlive (hh.closed hlive hi)).mp hi
      obtain rfl := Option.some.inj (hparent.symm.trans hj)
      exact ⟨rfl, hq⟩

end Trees

/-- Whatever is read along a path, from a plain value, from a cursor, or from a node of a tree in
which no leaf holds a container, is a view of what is found there. -/
theorem reads_are_views (r : Resolver) (path : Path) (hpath : path.splitOperation.2 = none) :
    (∀ v : Json, Views r v path (r.found v path)) ∧
    (∀ c : Cursor, Views r c path (r.found c path)) ∧
    ∀ (h : Heap) (gone : Finset Nat) (top : Nat) (n : HeapNode), h.Reached gone →
      h.Live gone top → h.parent? top = none → h.Plain top → StandsBelow h top n →
      Views r n path (r.found n path) := by
  refine ⟨fun v => ?_, fun c => ?_, fun h gone top n hr htop habove hplain hn => ?_⟩
  · exact .of_enclosed .all Enclosed.all.likeness (fun v _ => ⟨v, rfl, trivial⟩) hpath trivial
  · exact .of_enclosed .all under_matching.toLikeness.flip (fun c _ => ⟨c.node, rfl⟩) hpath trivial
  · have hh := hr.consistent
    refine .of_enclosed (enclosed_standsBelow hh htop habove) (snapshot_likeness hh)
      (fun m hm => ⟨h.toJson m.cell, hm.heap_eq, hh.live_of_below htop hm.below, ?_, rfl⟩) hpath hn
    exact fun j hj => hplain j (hm.below.trans hj)

/-- A sequence that is found beside a node, a mapping that is put together, and nothing; and a field
of a node that has outlived its parent, and has become the root of what is below it. -/
theorem reads_are_views_nested :
    let v : Json := .obj [("a", .obj [("x", .ofNat 1)]), ("b", .arr [.ofNat 2, .ofNat 3])]
    let top : HeapNode := .ofJson v
    let orphan : HeapNode := ⟨top.heap.forget {top.cell}, 1⟩
    let r : Resolver := .new .default
    Views r (top.goto 1) [.tag .parent, .key "b"] (some (.arr [.ofNat 2, .ofNat 3])) ∧
      Views r v [.tag .children, .key "x"] (some (.obj [("a", .ofNat 1), ("b", .null)])) ∧
      Views r (Cursor.top v) [.key "c"] none ∧
      Views r orphan [.tag .root, .key "x"] (some (.ofNat 1)) := by
  intro v top orphan r
  have hv : v.WellFormed :=
    ⟨Fields.ascending_pair (by decide) _ _, ⟨Fields.ascending_single _ _, trivial, trivial⟩,
      ⟨trivial, trivial, trivial⟩, trivial⟩
  obtain ⟨S, hholds⟩ := HeapNode.ofJson_holds hv
  have hbelow : StandsBelow top.heap top.cell (top.goto 1) := ⟨rfl, .single (by decide)⟩
  obtain ⟨-, -, hheap⟩ := reads_are_views r [.tag .parent, .key "b"] rfl
  obtain ⟨hvalue, -, -⟩ := reads_are_views r [.tag .children, .key "x"] rfl
  obtain ⟨-, hcursor, -⟩ := reads_are_views r [.key "c"] rfl
  obtain ⟨-, -, horphan⟩ := reads_are_views r [.tag .root, .key "x"] rfl
  have hreached : top.heap.Reached ∅ := .step .empty (.ofJson hv)
  have hnode := hheap top.heap ∅ top.cell _ hreached ⟨by decide, by decide⟩ (by cbv) hholds.plain
    hbelow
  have hheld : ∀ n, top.heap.Live {5} n → ∀ c ∈ (top.heap.content n).children,
      top.heap.Live {5} c := by
    intro n hn c hc
    have hlive : top.heap.Live ∅ n := ⟨hn.1, Finset.notMem_empty n⟩
    have hchild := hreached.consistent.closed hlive hc
    refine ⟨hchild.1, fun hgone => ?_⟩
    obtain rfl := Finset.mem_singleton.mp hgone
    have hparent := (hreached.consistent.linked hlive hchild).mp hc
    cases hparent
  have hplain : orphan.heap.Plain 1 := by
    have hchild := hholds.plain.of_mem_children (c := 1) (by decide)
    simpa [Heap.Plain, orphan] using hchild
  have hroot := horphan orphan.heap {5} 1 orphan
    (.drop hreached (Finset.empty_subset _) (by decide) hheld)
    (Heap.live_forget.mpr ⟨by decide, by decide⟩) (by cbv) hplain ⟨rfl, .refl⟩
  have hfound : r.found (top.goto 1) [.tag .parent, .key "b"] =
      some (.arr [.ofNat 2, .ofNat 3]) := by cbv
  have hspread : r.found v [.tag .children, .key "x"] =
      some (.obj [("a", .ofNat 1), ("b", .null)]) := by cbv
  have hnone : r.found (Cursor.top v) [.key "c"] = none := by cbv
  have hown : r.found orphan [.tag .root, .key "x"] = some (.ofNat 1) := by cbv
  exact ⟨hfound ▸ hnode, hspread ▸ hvalue v, hnone ▸ hcursor _, hown ▸ hroot⟩

/-- A leaf that holds a sequence: the sequence is found, but nothing is said to be in it. -/
theorem reads_not_views :
    let n : HeapNode := ⟨(Heap.empty.alloc (.leaf (.arr [.ofNat 1, .ofNat 2]))).2, 0⟩
    let r : Resolver := .new .default
    (Heap.Reached n.heap ∅ ∧ n.heap.Live ∅ n.cell ∧ n.heap.parent? n.cell = none) ∧
      (Resolver.find n (.path []) r).1 = .ok (some (.arr [.ofNat 1, .ofNat 2])) ∧
      (Resolver.countAt n (.path []) r).1 = .ok 1 ∧ (Resolver.keys n (.path []) r).1 = .ok [] ∧
      ¬∃ found, Views r n [] found := by
  intro n r
  have hv : (Json.arr [.ofNat 1, .ofNat 2]).WellFormed := ⟨trivial, trivial, trivial⟩
  have hfind : (Resolver.find n (.path []) r).1 =
      .ok (some (.arr [.ofNat 1, .ofNat 2])) := by cbv
  have hkeys : (Resolver.keys n (.path []) r).1 = .ok [] := by cbv
  refine ⟨⟨.step .empty (.leaf hv), ⟨by decide, by decide⟩, by cbv⟩, hfind, by cbv, hkeys, ?_⟩
  rintro ⟨found, hviews⟩
  obtain rfl := Except.ok.inj (hfind.symm.trans hviews.find)
  cases Except.ok.inj (hkeys.symm.trans hviews.keys)

end TreePath

import Mathlib
import TreePath.Proofs.Walk.Absolute
import TreePath.Proofs.Walk.Mirror
import TreePath.Proofs.Write.BackReferences
import TreePath.Proofs.Write.Place

namespace TreePath

open TreeAccess

section Nodes

variable {ν : Type} [TreeAccess ν] {n p : ν} {key : ChildKey} {before after : List (ChildKey × ν)}

/-- A node with children is no leaf, they are told apart by their identities, and the names of a
mapping stand in ascending order. -/
structure ChildrenApart (p : ν) : Prop where
  inner : entries p ≠ [] → kind p ≠ .leaf
  nodup : ((entries p).map fun e => identity? e.2).Nodup
  ascending : kind p = .mapping → ((entries p).map fun e => e.1.asName).Pairwise (· < ·)

/-- The siblings of a node are the children in front of it and those behind it. -/
theorem siblings_eq (hnodup : ((entries p).map fun e => identity? e.2).Nodup)
    (hentries : entries p = before ++ (key, n) :: after) {i : Identity}
    (hi : identity? n = some i) : siblings n p = before ++ after := by
  rw [hentries, List.map_append, List.map_cons, List.nodup_middle, List.nodup_cons,
    ← List.map_append] at hnodup
  have hother : ∀ e ∈ before ++ after, identity? e.2 ≠ some i := by
    rintro e he hsame
    exact hnodup.1 (List.mem_map.mpr ⟨e, he, hsame.trans hi.symm⟩)
  have hkept : ∀ es : List (ChildKey × ν), (∀ e ∈ es, identity? e.2 ≠ some i) →
      es.filter (fun e => identity? e.2 != some i) = es := fun es hes =>
    List.filter_eq_self.mpr fun e he => bne_iff_ne.mpr (hes e he)
  rw [siblings, hi, hentries]
  simp only [List.filter_append, List.filter_cons, hi, bne_self_eq_false, Bool.false_eq_true,
    if_false]
  rw [← List.filter_append, hkept _ hother]

/-- A mapping is put together from results that stand in the order of their names. -/
theorem assemble_mapping {results : List (ChildKey × Json)}
    (h : (results.map fun e => e.1.asName).Pairwise (· < ·)) :
    assemble .mapping results = .obj (results.map fun e => (e.1.asName, e.2)) := by
  have hascending : Fields.Ascending (results.map fun e => (e.1.asName, e.2)) :=
    List.pairwise_map.mpr (List.pairwise_map.mp h)
  exact congrArg Json.obj (Fields.ofList_ascending hascending)

variable {r : Resolver} {rest : Path}

/-- What the rest of the path finds at a child; null stands for nothing. -/
def Resolver.slotAt (r : Resolver) (rest : Path) (e : ChildKey × ν) : Json :=
  (r.found e.2 rest).getD .null

/-- Behind the siblings tag, the rest of the path is read at every child of the parent `p` but for
the one that is `n`: for a mapping, a mapping of the results at the other names is found, and for a
sequence, a sequence of the results at the other positions. -/
def FindsSiblings (r : Resolver) (rest : Path) (n p : ν) : Prop :=
  ∃ before key after, entries p = before ++ (key, n) :: after ∧
    ((kind p = .mapping ∧ (Resolver.find n (.path (.tag .siblings :: rest)) r).1 =
        .ok (some (.obj ((before ++ after).map fun e => (e.1.asName, r.slotAt rest e))))) ∨
      (kind p = .sequence ∧ (Resolver.find n (.path (.tag .siblings :: rest)) r).1 =
        .ok (some (.arr ((before ++ after).map (r.slotAt rest))))))

theorem found_siblings (hrest : rest.splitOperation.2 = none) (hp : parent? n = some p)
    (hkind : kind p ≠ .leaf) : r.found n (.tag .siblings :: rest) =
      some (assemble (kind p) ((siblings n p).map fun e => (e.1, r.slotAt rest e))) := by
  have hpath : (Path.splitOperation (.tag .siblings :: rest)).2 = none :=
    Path.splitOperation_append (p := [.tag .siblings]) rfl hrest
  have hwalk : walk r.config (.tag .siblings :: rest) 0 n =
      spread (kind p) (siblings n p) fun child => walk r.config rest 0 child := by
    rw [walk_zero, follow, hp]
    exact if_neg hkind
  have hslot : ∀ e : ChildKey × ν, (walk r.config rest 0 e.2).value.slot = r.slotAt rest e := by
    intro e
    rw [Resolver.slotAt, Resolver.found_eq hrest]
    rfl
  rw [Resolver.found_eq hpath, hwalk, value_spread]
  simp only [hslot]
  rfl

/-- It is enough that the children of the parent are told apart. -/
theorem FindsSiblings.of_apart (hrest : rest.splitOperation.2 = none) (hp : parent? n = some p)
    (hmem : (key, n) ∈ entries p) (hapart : ChildrenApart p) {i : Identity}
    (hi : identity? n = some i) : FindsSiblings r rest n p := by
  have hkind := hapart.inner (List.ne_nil_of_mem hmem)
  obtain ⟨before, after, hentries⟩ := List.append_of_mem hmem
  refine ⟨before, key, after, hentries, ?_⟩
  have hfound := found_siblings (r := r) hrest hp hkind
  rw [siblings_eq hapart.nodup hentries hi] at hfound
  rw [Resolver.find_path, hfound]
  cases hk : kind p with
  | leaf => exact absurd hk hkind
  | sequence => exact .inr ⟨rfl, by simp [assemble, Function.comp_def]⟩
  | mapping =>
    have hothers : (before ++ after).Sublist (entries p) := by
      rw [hentries]
      exact (List.sublist_cons_self _ _).append_left before
    have hnames := (hapart.ascending hk).sublist (hothers.map fun e => e.1.asName)
    rw [assemble_mapping (by rwa [List.map_map]), List.map_map]
    exact .inl ⟨rfl, rfl⟩

end Nodes

section Cursors

variable {c d : Cursor}

/-- The child at a key is listed at its position. -/
theorem Json.children_getElem? {t v : Json} {key : ChildKey} {k : Nat}
    (hv : t.child? key = some v) (hk : t.position? key = some k) :
    ∃ listed, t.children[k]? = some (listed, v) := by
  cases t with
  | obj fields =>
    have hposition : Fields.position? fields key.asName = some k := by cases key <;> exact hk
    have hfound : Fields.find? fields key.asName = some v := by cases key <;> exact hv
    rw [Fields.find?_eq_bind, hposition] at hfound
    obtain ⟨field, hfield, rfl⟩ := Option.map_eq_some_iff.mp hfound
    exact ⟨.name field.1, by rw [children, List.getElem?_map, hfield]; rfl⟩
  | arr items =>
    cases key with
    | name n => cases hv
    | index i =>
      simp only [position?, Option.ite_none_right_eq_some, Option.some.injEq] at hk
      obtain ⟨-, rfl⟩ := hk
      have hitem : items[i]? = some v := hv
      exact ⟨.index i, by simp [children, hitem]⟩
  | null | bool | num | str => cases key <;> cases hv

theorem Cursor.mem_entries_of_child? {key : ChildKey} (h : c.child? key = some d) :
    ∃ listed, (listed, d) ∈ c.entries := by
  unfold child? at h
  split at h
  · next v k hv hk =>
    obtain rfl := Option.some.inj h
    obtain ⟨listed, hlisted⟩ := Json.children_getElem? hv hk
    have hplaced : ((listed, v), k) ∈ c.node.children.zipIdx :=
      List.mem_zipIdx_iff_getElem?.mpr hlisted
    exact ⟨listed, List.mem_map_of_mem hplaced⟩
  · cases h

theorem Cursor.childrenApart (hc : c.node.WellFormed) : ChildrenApart c where
  inner hentries hkind := by
    have hnone := (Json.of_kind_leaf hkind).2.1
    exact hentries (by change List.map _ _ = _; rw [hnone]; rfl)
  nodup := by
    have hidentities : ((TreeAccess.entries c).map fun e => identity? e.2) =
        (c.node.children.zipIdx.map Prod.snd).map fun position => some (position :: c.place) := by
      change List.map _ (List.map _ _) = _
      rw [List.map_map, List.map_map]
      rfl
    rw [hidentities, List.zipIdx_map_snd]
    refine List.Nodup.map (fun i j hij => ?_) List.nodup_range'
    exact (List.cons.inj (Option.some.inj hij)).1
  ascending hkind := by
    obtain ⟨node, trail⟩ := c
    cases node with
    | obj fields =>
      have hnames : ((TreeAccess.entries (⟨.obj fields, trail⟩ : Cursor)).map
          fun e => e.1.asName) =
            ((fields.map fun field => (ChildKey.name field.1, field.2)).zipIdx.map Prod.fst).map
              fun e => e.1.asName := by
        change List.map _ (List.map _ _) = _
        rw [List.map_map, List.map_map]
        rfl
      rw [hnames, List.zipIdx_map_fst, List.map_map]
      exact List.pairwise_map.mpr hc.1
    | arr | null | bool | num | str => cases hkind

/-- A cursor that is a child of the one above it, in a value whose names are in order. -/
structure Cursor.Placed (c : Cursor) : Prop where
  wellFormed : c.node.WellFormed
  above : ∀ p, c.parent? = some p → p.node.WellFormed ∧ ∃ key, (key, c) ∈ p.entries

theorem Cursor.Placed.child {key : ChildKey} (hc : c.Placed) (hd : c.child? key = some d) :
    d.Placed where
  wellFormed := by
    unfold child? at hd
    split at hd
    · next hv _ =>
      obtain rfl := Option.some.inj hd
      exact Json.wellFormed_child? hc.wellFormed hv
    · cases hd
  above p hp := by
    obtain rfl := Option.some.inj ((parent?_of_child? hd).symm.trans hp)
    exact ⟨hc.wellFormed, mem_entries_of_child? hd⟩

theorem Cursor.Placed.descend {keys : List ChildKey} (hc : c.Placed)
    (hd : c.descend? keys = some d) : d.Placed := by
  induction keys generalizing c with
  | nil =>
    obtain rfl := Option.some.inj hd
    exact hc
  | cons key keys ih =>
    obtain ⟨e, he, hd⟩ := Option.bind_eq_some_iff.mp hd
    exact ih (hc.child he) hd

theorem Cursor.placed_top {v : Json} (hv : v.WellFormed) : (top v).Placed := ⟨hv, nofun⟩

end Cursors

section Heaps

variable {h : Heap} {gone : Finset Nat} {i : Nat}

theorem Heap.Consistent.childrenApart (hh : h.Consistent gone) (hi : h.Live gone i) :
    ChildrenApart (⟨h, i⟩ : HeapNode) where
  inner hentries hkind := by
    change (h.content i).kind = .leaf at hkind
    change (h.content i).entries.map _ ≠ [] at hentries
    cases hcontent : h.content i with
    | mapping | sequence => simp [hcontent, Content.kind] at hkind
    | leaf | function => simp [hcontent, Content.entries] at hentries
  nodup := by
    have hidentities : ((entries (⟨h, i⟩ : HeapNode)).map fun e => identity? e.2) =
        (h.content i).children.map fun c => some [c] := by
      change List.map _ (List.map _ _) = List.map _ (List.map _ _)
      rw [List.map_map, List.map_map]
      rfl
    rw [hidentities]
    refine (hh.nodup hi).map fun c d hcd => ?_
    exact (List.cons.inj (Option.some.inj hcd)).1
  ascending hkind := by
    have htidy := hh.tidy i
    change (h.content i).kind = .mapping at hkind
    change (List.map _ (List.map _ (h.content i).entries)).Pairwise _
    cases hcontent : h.content i with
    | mapping fields =>
      rw [hcontent] at htidy
      rw [Content.entries, List.map_map, List.map_map]
      exact List.pairwise_map.mpr htidy
    | sequence | leaf | function => simp [hcontent, Content.kind] at hkind

end Heaps

/-- The siblings tag, at any place in a value but its top and at any live node with a parent, finds
what the rest of the path finds at all the other children of the parent. -/
theorem find_siblings (r : Resolver) (rest : Path) (hrest : rest.splitOperation.2 = none) :
    (∀ (v : Json) (keys : List ChildKey) (c p : Cursor), v.WellFormed →
      (Cursor.top v).descend? keys = some c → c.parent? = some p → FindsSiblings r rest c p) ∧
    ∀ (h : Heap) (gone : Finset Nat) (i p : Nat), h.Reached gone → h.Live gone i →
      h.liveParent? gone i = some p →
      FindsSiblings r rest (⟨h, i⟩ : HeapNode) (⟨h, p⟩ : HeapNode) := by
  constructor
  · intro v keys c p hv hc hp
    obtain ⟨hnode, key, hmem⟩ := ((Cursor.placed_top hv).descend hc).above p hp
    exact .of_apart hrest hp hmem (Cursor.childrenApart hnode) rfl
  · intro h gone i p hr hi hp
    have hh := hr.consistent
    rw [hh.liveParent?_eq] at hp
    have hlive := hh.parent_live hp
    have hchild := (hh.linked hlive hi).mpr hp
    obtain ⟨entry, hentry, rfl⟩ := List.mem_map.mp hchild
    have hup : parent? (⟨h, entry.2⟩ : HeapNode) = some ⟨h, p⟩ := by
      change (h.parent? entry.2).map _ = _
      rw [hp]
      rfl
    exact .of_apart hrest hup (List.mem_map_of_mem hentry) (hh.childrenApart hlive) rfl

/-- The second of three equal elements, under a cursor, and a field that holds the same as the other
one, on a heap. -/
theorem find_siblings_equal :
    let list : Json := .arr [.bool true, .bool true, .bool true]
    let v : Json := .obj [("a", list), ("b", list)]
    let p : Cursor := ⟨list, [(v, 1)]⟩
    let c : Cursor := p.down 1 (.bool true)
    let top : HeapNode := .ofJson v
    let r : Resolver := .new .default
    FindsSiblings r [] c p ∧
      (Resolver.find c (.path [.tag .siblings]) r).1 =
        .ok (some (.arr [.bool true, .bool true])) ∧
      FindsSiblings r [.index 3] (top.goto 3) top ∧
      (Resolver.find (top.goto 3) (.path [.tag .siblings, .index 3]) r).1 =
        .ok (some (.obj [("b", .null)])) := by
  intro list v p c top r
  have hv : v.WellFormed :=
    ⟨Fields.ascending_pair (by decide) _ _, ⟨trivial, trivial, trivial, trivial⟩,
      ⟨trivial, trivial, trivial, trivial⟩, trivial⟩
  obtain ⟨hcursor, -⟩ := find_siblings r [] rfl
  obtain ⟨-, hheap⟩ := find_siblings r [.index 3] rfl
  exact ⟨hcursor v [.name "b", .index 1] c p hv (by cbv) rfl, by cbv,
    hheap top.heap ∅ 3 top.cell (.step .empty (.ofJson hv)) ⟨by decide, by decide⟩ (by cbv),
    by cbv⟩

end TreePath

import Mathlib
import TreePath.Proofs.Tree.Children
import TreePath.Proofs.Tree.Growth
import TreePath.Proofs.Walk.Simulation
import TreePath.Tree.Cursor

namespace TreePath

open TreeAccess

section Values

/-- The value is the one under the cursor. -/
def Under (v : Json) (c : Cursor) : Prop := c.node = v

theorem under_matching : Matching Under where
  kind_eq h := congrArg Json.kind h.symm
  size_eq h := congrArg Json.size h.symm
  toJson_eq h := h.symm
  call?_eq _ := rfl
  child? := by
    intro v c hunder key
    obtain rfl := hunder
    change Option.Rel Under (c.node.child? key) (c.child? key)
    unfold Cursor.child?
    rcases c.node.child?_position? key with ⟨hnone, -⟩ | ⟨w, k, hw, hk⟩
    · rw [hnone]
      exact .none
    · rw [hw, hk]
      exact .some rfl
  entries := by
    intro v c hunder
    obtain rfl := hunder
    have hsame : List.Forall₂ Eq c.node.children c.node.children :=
      List.forall₂_same.mpr fun _ _ => rfl
    have hplaced : List.Forall₂ (EntryRel Under) (c.node.children.zipIdx.map Prod.fst)
        (c.node.children.zipIdx.map fun y => (y.1.1, c.down y.2 y.1.2)) :=
      List.rel_map (fun x y hxy => ⟨congrArg Prod.fst hxy.1, congrArg Prod.snd hxy.1.symm⟩)
        (forall₂_zipIdx hsame)
    rw [List.zipIdx_map_fst] at hplaced
    exact hplaced

end Values

section Nodes

variable {h : Heap} {top : Nat}

/-- The cell is the one to which the positions on the cursor's trail lead from the top. -/
inductive Traces (h : Heap) (top : Nat) : Cursor → Nat → Prop
  | top {v : Json} {S : Finset Nat} (hv : Holds h v top S) : Traces h top (.top v) top
  | down {c : Cursor} {i : Nat} {position : Nat} {v : Json} {j : Nat} {S : Finset Nat}
      (hc : Traces h top c i) (hj : (h.content i).children[position]? = some j)
      (hv : Holds h v j S) : Traces h top (c.down position v) j

theorem Traces.holds {c : Cursor} {i : Nat} (ht : Traces h top c i) :
    ∃ S, Holds h c.node i S := by
  cases ht with
  | top hv => exact ⟨_, hv⟩
  | down _ _ hv => exact ⟨_, hv⟩

theorem Traces.parent? (hl : h.Linked) (htop : h.parent? top = none) {c : Cursor} {i : Nat}
    (ht : Traces h top c i) : Option.Rel (Traces h top) c.parent? (h.parent? i) := by
  cases ht with
  | top hv =>
    rw [htop]
    exact .none
  | down hc hj hv =>
    rw [hl _ _ (List.mem_of_getElem? hj)]
    exact .some hc

/-- In a tree, the positions that lead to a cell and the cell itself determine each other. -/
theorem Traces.place_eq_iff (hl : h.Linked) (htop : h.parent? top = none) {c d : Cursor}
    {i j : Nat} (hc : Traces h top c i) (hd : Traces h top d j) : c.place = d.place ↔ i = j := by
  induction hc generalizing d j with
  | top hv =>
    cases hd with
    | top hw => exact ⟨fun _ => rfl, fun _ => rfl⟩
    | down hd hj hw =>
      have habove := hl _ _ (List.mem_of_getElem? hj)
      refine ⟨fun hplace => ?_, fun hij => ?_⟩
      · cases hplace
      · rw [← hij, htop] at habove
        cases habove
  | @down c i k v i' S hc hi hv ih =>
    have habove := hl _ _ (List.mem_of_getElem? hi)
    cases hd with
    | top hw =>
      refine ⟨fun hplace => ?_, fun hij => ?_⟩
      · cases hplace
      · rw [hij, htop] at habove
        cases habove
    | @down d j l w j' T hd hj hw =>
      have hcons : (c.down k v).place = (d.down l w).place ↔ k = l ∧ c.place = d.place :=
        List.cons.injEq _ _ _ _ ▸ Iff.rfl
      rw [hcons, ih hd]
      refine ⟨?_, ?_⟩
      · intro hboth
        obtain ⟨rfl, rfl⟩ := hboth
        exact Option.some.inj (hi.symm.trans hj)
      · intro hsame
        obtain rfl := hsame
        have hparents : i = j :=
          Option.some.inj (habove.symm.trans (hl _ _ (List.mem_of_getElem? hj)))
        subst hparents
        obtain ⟨S', hh⟩ := hc.holds
        obtain ⟨U, -, -, -, hbelow⟩ := hh.content_below
        obtain ⟨hk, -⟩ := List.getElem?_eq_some_iff.mp hi
        exact ⟨(List.getElem?_inj hk hbelow.cells.2).mp (hi.trans hj.symm), rfl⟩

theorem Traces.child? {c : Cursor} {i : Nat} (ht : Traces h top c i) (key : ChildKey) :
    Option.Rel (Traces h top) (c.child? key) (h.child? i key) := by
  obtain ⟨S, hh⟩ := ht.holds
  obtain ⟨T, -, -, -, hbelow⟩ := hh.content_below
  unfold Cursor.child?
  rcases c.node.child?_position? key with ⟨hnone, -⟩ | ⟨v, k, hv, hk⟩
  · rw [hnone, hh.child?_eq_none hnone]
    exact .none
  · obtain ⟨j, U, hj, hchild, -⟩ := hh.at_child hv
    have hplace : (h.content i).children[k]? = some j := hbelow.children_getElem? hk hj
    rw [hv, hk, hj]
    exact .some (.down ht hplace hchild)

theorem Traces.entries {c : Cursor} {i : Nat} (ht : Traces h top c i) :
    List.Forall₂ (fun x y => x.1 = y.1 ∧ Traces h top x.2 y.2) c.entries
      (h.content i).entries := by
  obtain ⟨S, hh⟩ := ht.holds
  obtain ⟨T, -, -, -, hbelow⟩ := hh.content_below
  have hplaced : List.Forall₂ (fun x y => x.1 = y.1 ∧ Traces h top x.2 y.2)
      (c.node.children.zipIdx.map fun x => (x.1.1, c.down x.2 x.1.2))
      ((h.content i).entries.zipIdx.map Prod.fst) := by
    refine List.rel_map ?_ (forall₂_zipIdx hbelow.cells.1)
    intro x y hxy
    obtain ⟨⟨hkey, U, hchild⟩, hposition, hy⟩ := hxy
    have hplace : (h.content i).children[x.2]? = some y.1.2 := by
      rw [hposition, Content.children, List.getElem?_map, hy]
      rfl
    exact ⟨hkey, .down ht hplace hchild⟩
  rw [List.zipIdx_map_fst] at hplaced
  exact hplaced

/-- A cursor and a node of the heap that stand at the same place. -/
def Stands (h : Heap) (top : Nat) (c : Cursor) (n : HeapNode) : Prop :=
  n.heap = h ∧ Traces h top c n.cell

/-- The identities of a cursor and of a node at the same place. -/
def SamePlace (h : Heap) (top : Nat) (a b : Identity) : Prop :=
  ∃ c i, Traces h top c i ∧ a = c.place ∧ b = [i]

theorem stands_matching : Matching (Stands h top) where
  kind_eq := by
    intro c n hstands
    obtain ⟨_, i⟩ := n
    obtain ⟨rfl, ht⟩ := hstands
    obtain ⟨S, hh⟩ := ht.holds
    exact hh.kind_eq.symm
  size_eq := by
    intro c n hstands
    obtain ⟨_, i⟩ := n
    obtain ⟨rfl, ht⟩ := hstands
    obtain ⟨S, hh⟩ := ht.holds
    exact hh.size_eq.symm
  toJson_eq := by
    intro c n hstands
    obtain ⟨_, i⟩ := n
    obtain ⟨rfl, ht⟩ := hstands
    obtain ⟨S, hh⟩ := ht.holds
    exact hh.toJson.symm
  call?_eq := by
    intro c n hstands
    obtain ⟨h, i⟩ := n
    obtain ⟨rfl, ht⟩ := hstands
    obtain ⟨S, hh⟩ := ht.holds
    obtain ⟨T, -, -, -, hbelow⟩ := hh.content_below
    funext args
    simp only [call?]
    generalize h.content i = content at hbelow ⊢
    generalize c.node = v at hbelow
    cases hbelow <;> rfl
  child? := by
    intro c n hstands key
    obtain ⟨_, i⟩ := n
    obtain ⟨rfl, ht⟩ := hstands
    change Option.Rel _ (c.child? key) (Option.map _ (Heap.child? _ i key))
    rcases rel_cases (ht.child? key) with ⟨hc, hi⟩ | ⟨d, j, hc, hi, hd⟩
    · rw [hc, hi]
      exact .none
    · rw [hc, hi]
      exact .some ⟨rfl, hd⟩
  entries := by
    intro c n hstands
    obtain ⟨_, i⟩ := n
    obtain ⟨rfl, ht⟩ := hstands
    change List.Forall₂ _ c.entries (List.map _ _)
    rw [List.forall₂_map_right_iff]
    exact ht.entries.imp fun x y hxy => ⟨hxy.1, rfl, hxy.2⟩

theorem stands_climbing (hl : h.Linked) (htop : h.parent? top = none) :
    Climbing (Stands h top) (SamePlace h top) where
  parent? := by
    intro c n hstands
    obtain ⟨_, i⟩ := n
    obtain ⟨rfl, ht⟩ := hstands
    change Option.Rel _ c.parent? (Option.map _ (Heap.parent? _ i))
    rcases rel_cases (ht.parent? hl htop) with ⟨hc, hi⟩ | ⟨d, j, hc, hi, hd⟩
    · rw [hc, hi]
      exact .none
    · rw [hc, hi]
      exact .some ⟨rfl, hd⟩
  identity? := by
    intro c n hstands
    obtain ⟨_, i⟩ := n
    obtain ⟨rfl, ht⟩ := hstands
    exact .some ⟨c, i, ht, rfl, rfl⟩
  biUnique := by
    refine ⟨?_, ?_⟩
    · intro a b x ha hb
      obtain ⟨c, i, hc, rfl, rfl⟩ := ha
      obtain ⟨d, j, hd, rfl, hij⟩ := hb
      exact (hc.place_eq_iff hl htop hd).mpr (List.singleton_inj.mp hij)
    · intro x a b ha hb
      obtain ⟨c, i, hc, rfl, rfl⟩ := ha
      obtain ⟨d, j, hd, hplace, rfl⟩ := hb
      exact List.singleton_inj.mpr ((hc.place_eq_iff hl htop hd).mp hplace)

end Nodes

section Reading

/-- The top of a value under a cursor and the top of its tree on a heap stand at the same place. -/
theorem stands_top {v : Json} (hv : v.WellFormed) :
    Stands (HeapNode.ofJson v).heap (HeapNode.ofJson v).cell (.top v) (HeapNode.ofJson v) := by
  obtain ⟨S, hh⟩ := HeapNode.ofJson_holds hv
  exact ⟨rfl, .top hh⟩

/-- Every operation at the end of every path has the same answer under a cursor and on a heap, by
all settings, and every query matches alike. On a plain value that holds as well, where neither the
path nor the query that is asked for leads upwards. The resolvers count the same, too. -/
theorem resolve_agrees {v : Json} (hv : v.WellFormed) (p : Path) (op : Operation)
    (default : Option Json) (query : Query) :
    Resolver.resolve (Cursor.top v) p op default =
        Resolver.resolve (HeapNode.ofJson v) p op default ∧
      Resolver.isMatch (Cursor.top v) query = Resolver.isMatch (HeapNode.ofJson v) query ∧
      (pathUpward p = false → op.isUpward = false →
        Resolver.resolve v p op default = Resolver.resolve (Cursor.top v) p op default) ∧
      (queryUpward query = false →
        Resolver.isMatch v query = Resolver.isMatch (Cursor.top v) query) := by
  have htop := stands_top hv
  have hclimb := stands_climbing (HeapNode.ofJson_linked v) (HeapNode.parent?_ofJson v)
  have hunder : Under v (.top v) := rfl
  refine ⟨?_, ?_, fun hp hop => ?_, fun hquery => ?_⟩
  · exact resolve_eq stands_matching htop p op (.inl hclimb) (.inl hclimb) default
  · exact isMatch_eq stands_matching htop query (.inl hclimb)
  · have hpath : Allows Under Eq (pathUpward p) := .inr hp
    exact resolve_eq under_matching hunder p op hpath (.inr hop) default
  · have hasked : Allows Under Eq (queryUpward query) := .inr hquery
    exact isMatch_eq under_matching hunder query hasked

theorem resolve_agrees_nested :
    let v : Json := .obj [("a", .obj [("x", .ofNat 1)]), ("k", .arr [.null, .str "b"])]
    let p : Path := [.union [[.tag .children, .key "x"], [.key "k", .index (-1)]] true]
    let query : Query := [([.tuple [.key "a", .key "x"]], .value (.ofNat 1))]
    Resolver.resolve (Cursor.top v) p (.search query) none =
        Resolver.resolve (HeapNode.ofJson v) p (.search query) none ∧
      Resolver.isMatch (Cursor.top v) query = Resolver.isMatch (HeapNode.ofJson v) query ∧
      Resolver.resolve v p (.search query) none =
        Resolver.resolve (Cursor.top v) p (.search query) none ∧
      Resolver.isMatch v query = Resolver.isMatch (Cursor.top v) query := by
  intro v p query
  have hv : v.WellFormed :=
    ⟨Fields.ascending_pair (by decide) _ _, ⟨Fields.ascending_single _ _, trivial, trivial⟩,
      ⟨trivial, trivial, trivial⟩, trivial⟩
  obtain ⟨hresolve, hmatch, hplain, hplainMatch⟩ := resolve_agrees hv p (.search query) none query
  exact ⟨hresolve, hmatch, hplain rfl rfl, hplainMatch rfl⟩

/-- The query of a search is one more place from which a path may lead upwards. Asked for the child
next to which there is a field `k` with 5, a cursor finds `a`, and a plain value finds nothing. -/
theorem search_not_agrees :
    ¬ ∀ (v : Json) (p : Path) (op : Operation) (r : Resolver), v.WellFormed →
      pathUpward p = false →
      (Resolver.resolve v p op none r).1 = (Resolver.resolve (Cursor.top v) p op none r).1 := by
  intro hall
  have hv : (Json.obj [("a", .obj [("x", .ofNat 1)]), ("k", .ofNat 5)]).WellFormed :=
    ⟨Fields.ascending_pair (by decide) _ _, ⟨Fields.ascending_single _ _, trivial, trivial⟩,
      trivial, trivial⟩
  have hsame := hall _ [] (.search [([.tag .parent, .key "k"], .value (.ofNat 5))])
    (.new .default) hv rfl
  have hplain : (Resolver.resolve
      (Json.obj [("a", .obj [("x", .ofNat 1)]), ("k", .ofNat 5)]) []
      (.search [([.tag .parent, .key "k"], .value (.ofNat 5))]) none (.new .default)).1 = none := by
    cbv
  have hcursor : (Resolver.resolve
      (Cursor.top (.obj [("a", .obj [("x", .ofNat 1)]), ("k", .ofNat 5)])) []
      (.search [([.tag .parent, .key "k"], .value (.ofNat 5))]) none (.new .default)).1 =
        some (.str "a") := by
    cbv
  rw [hplain, hcursor] at hsame
  cases hsame

end Reading

end TreePath

import Mathlib.Logic.Relation
import TreePath.Proofs.Tree.Location
import TreePath.Proofs.Tree.Snapshot

namespace TreePath.Heap

open Relation

variable {h h' : Heap} {root a b p c d x : Nat}

section Ways

def HasChild (h : Heap) (p c : Nat) : Prop := c ∈ (h.content p).children

instance : Decidable (h.HasChild p c) := inferInstanceAs (Decidable (c ∈ (h.content p).children))

/-- Going down from child to child, one comes from `a` to `x`. -/
def LeadsTo (h : Heap) (a x : Nat) : Prop := ReflTransGen h.HasChild a x

/-- The cell at a location below another one. -/
def at? (h : Heap) (i : Nat) (l : Location) : Option Nat :=
  match l with
  | [] => some i
  | key :: rest => (h.child? i key).bind fun c => h.at? c rest

theorem LeadsTo.refl (a : Nat) : h.LeadsTo a a := ReflTransGen.refl

theorem LeadsTo.trans (hab : h.LeadsTo a b) (hbx : h.LeadsTo b x) : h.LeadsTo a x :=
  ReflTransGen.trans hab hbx

theorem LeadsTo.tail (hap : h.LeadsTo a p) (hc : h.HasChild p c) : h.LeadsTo a c :=
  ReflTransGen.tail hap hc

theorem HasChild.leadsTo (hc : h.HasChild p c) : h.LeadsTo p c := ReflTransGen.single hc

theorem HasChild.lt_size (hc : h.HasChild p c) : p < h.cells.size := lt_size_of_mem_children hc

theorem hasChild_of_child? {key : ChildKey} (hc : h.child? p key = some c) : h.HasChild p c :=
  mem_children_of_child? hc

theorem leadsTo_of_at? {l : Location} (hx : h.at? a l = some x) : h.LeadsTo a x := by
  induction l generalizing a with
  | nil =>
    obtain rfl := Option.some.inj hx
    exact .refl a
  | cons key rest ih =>
    obtain ⟨c, hc, hrest⟩ := Option.bind_eq_some_iff.mp hx
    exact (hasChild_of_child? hc).leadsTo.trans (ih hrest)

theorem at?_append (i : Nat) (l m : Location) :
    h.at? i (l ++ m) = (h.at? i l).bind fun p => h.at? p m := by
  induction l generalizing i with
  | nil => rfl
  | cons key rest ih =>
    change (h.child? i key).bind (fun c => h.at? c (rest ++ m)) =
      ((h.child? i key).bind fun c => h.at? c rest).bind _
    rw [Option.bind_assoc]
    exact Option.bind_congr fun c _ => ih c

/-- What stands at a longer location is below what stands at a shorter one. -/
theorem exists_child_of_at? {l m : Location} (hml : m <+: l) (hne : m ≠ l)
    (hx : h.at? a l = some x) (hp : h.at? a m = some p) :
    ∃ c, h.HasChild p c ∧ h.LeadsTo c x := by
  obtain ⟨rest, rfl⟩ := hml
  rw [at?_append, hp, Option.bind_some] at hx
  cases rest with
  | nil => exact absurd (List.append_nil m).symm hne
  | cons key rest =>
    obtain ⟨c, hc, hrest⟩ := Option.bind_eq_some_iff.mp hx
    exact ⟨c, hasChild_of_child? hc, leadsTo_of_at? hrest⟩

/-- What stands at a location further down has a parent at the location right above. -/
theorem exists_parent_of_at? {l : Location} (hl : l ≠ []) (hx : h.at? a l = some x) :
    ∃ m p, m <+: l ∧ m ≠ l ∧ h.at? a m = some p ∧ h.HasChild p x := by
  obtain ⟨m, key, rfl⟩ := (List.eq_nil_or_concat' l).resolve_left hl
  rw [at?_append] at hx
  obtain ⟨p, hp, hrest⟩ := Option.bind_eq_some_iff.mp hx
  obtain ⟨c, hc, hcx⟩ := Option.bind_eq_some_iff.mp hrest
  obtain rfl := Option.some.inj hcx
  exact ⟨m, p, List.prefix_append _ _, by simp, hp, hasChild_of_child? hc⟩

end Ways

section Trees

/-- What is below the root is a finite tree: each node stands in one place, and no way down comes
back. -/
structure IsTree (h : Heap) (root : Nat) : Prop where
  lt_size : ∀ {x}, h.LeadsTo root x → x < h.cells.size
  unique : ∀ {p q c}, h.LeadsTo root p → h.LeadsTo root q → h.HasChild p c → h.HasChild q c → p = q
  nodup : ∀ {p}, h.LeadsTo root p → (h.content p).children.Nodup
  acyclic : ∀ {p c}, h.LeadsTo root p → h.HasChild p c → ¬ h.LeadsTo c p

namespace IsTree

theorem below (ht : h.IsTree root) (ha : h.LeadsTo root a) : h.IsTree a where
  lt_size hx := ht.lt_size (ha.trans hx)
  unique hp hq := ht.unique (ha.trans hp) (ha.trans hq)
  nodup hp := ht.nodup (ha.trans hp)
  acyclic hp := ht.acyclic (ha.trans hp)

/-- Of two nodes that lead to a third one, one leads to the other. -/
theorem linear (ht : h.IsTree root) (ha : h.LeadsTo root a) (hb : h.LeadsTo root b)
    (hax : h.LeadsTo a x) (hbx : h.LeadsTo b x) : h.LeadsTo a b ∨ h.LeadsTo b a := by
  induction hax with
  | refl => exact .inr hbx
  | @tail p x hap hx ih =>
    cases hbx with
    | refl => exact .inl (LeadsTo.tail hap hx)
    | @tail q _ hbq hx' =>
      obtain rfl : p = q := ht.unique (ha.trans hap) (hb.trans hbq) hx hx'
      exact ih hbq

/-- No child leads to a sibling. -/
theorem not_leadsTo_sibling (ht : h.IsTree root) (hp : h.LeadsTo root p) (hc : h.HasChild p c)
    (hd : h.HasChild p d) (hne : c ≠ d) : ¬ h.LeadsTo c d := by
  intro hcd
  cases hcd with
  | refl => exact hne rfl
  | @tail q _ hcq hd' =>
    obtain rfl : q = p := ht.unique (hp.trans (hc.leadsTo.trans hcq)) hp hd' hd
    exact ht.acyclic hp hc hcq

/-- What is below one child is not below another one. -/
theorem apart (ht : h.IsTree root) (hp : h.LeadsTo root p) (hc : h.HasChild p c)
    (hd : h.HasChild p d) (hne : c ≠ d) (hx : h.LeadsTo c x) : ¬ h.LeadsTo d x := by
  intro hx'
  rcases ht.linear (hp.tail hc) (hp.tail hd) hx hx' with hcd | hdc
  · exact ht.not_leadsTo_sibling hp hc hd hne hcd
  · exact ht.not_leadsTo_sibling hp hd hc hne.symm hdc

/-- Different names lead to different children. -/
theorem child_ne (ht : h.IsTree root) (hp : h.LeadsTo root p) {name other : String}
    (hc : h.child? p (.name name) = some c) (hd : h.child? p (.name other) = some d)
    (hne : name ≠ other) : c ≠ d := by
  rintro rfl
  have hnodup := ht.nodup hp
  unfold child? at hc hd
  cases hcontent : h.content p with
  | mapping fields =>
    rw [hcontent] at hc hd hnodup
    rw [Content.children_mapping] at hnodup
    have hsame := List.inj_on_of_nodup_map hnodup (Fields.mem_of_find? hc) (Fields.mem_of_find? hd)
      rfl
    exact hne (Prod.mk.inj hsame).1
  | sequence | leaf | function =>
    rw [hcontent] at hc
    cases hc

end IsTree

/-- On a consistent heap, what is below a live node is a tree. -/
theorem Consistent.isTree {gone : Finset Nat} (hh : h.Consistent gone) (hroot : h.Live gone root) :
    h.IsTree root := by
  have hlive : ∀ {x}, h.LeadsTo root x → h.Live gone x := by
    intro x hx
    induction hx with
    | refl => exact hroot
    | tail _ hc ih => exact hh.closed ih hc
  have habove : ∀ {p x}, h.LeadsTo root p → h.LeadsTo p x → ReflTransGen (h.ParentOf gone) p x := by
    intro p x hp hx
    induction hx with
    | refl => exact .refl
    | @tail q x hq hx ih => exact ih.tail (hh.parentOf_of_mem_children (hlive (hp.trans hq)) hx)
  refine ⟨fun hx => (hlive hx).1, fun hp hq hpc hqc => ?_, fun hp => hh.nodup (hlive hp),
    fun hp hc hback => ?_⟩
  · have hc := hh.closed (hlive hp) hpc
    exact Option.some.inj (((hh.linked (hlive hp) hc).mp hpc).symm.trans
      ((hh.linked (hlive hq) hc).mp hqc))
  · have hcycle := TransGen.head' (hh.parentOf_of_mem_children (hlive hp) hc)
      (habove (hp.tail hc) hback)
    exact hh.grounded.transGen.asymmetric _ _ hcycle hcycle

/-- A new tree is one. -/
theorem ofJson_isTree {v : Json} (hv : v.WellFormed) :
    (HeapNode.ofJson v).heap.IsTree (HeapNode.ofJson v).cell := by
  have hbuilt := ofJson_built Consistent.empty hv
  exact hbuilt.consistent.isTree ⟨(hbuilt.builds.orphaned _ (List.mem_singleton_self _)).2.1,
    Finset.notMem_empty _⟩

end Trees

section Agreement

/-- Everything below `a` is on `h'` what it is on `h`. -/
def SameBelow (h h' : Heap) (a : Nat) : Prop := ∀ x, h.LeadsTo a x → h'.content x = h.content x

namespace SameBelow

variable (hs : SameBelow h h' a)

include hs

theorem hasChild_iff (hp : h.LeadsTo a p) : h'.HasChild p c ↔ h.HasChild p c := by
  unfold HasChild
  rw [hs p hp]

theorem child?_eq (hp : h.LeadsTo a p) (key : ChildKey) : h'.child? p key = h.child? p key := by
  unfold child?
  rw [hs p hp]

theorem kind_eq (hp : h.LeadsTo a p) : h'.kind p = h.kind p := congrArg Content.kind (hs p hp)

theorem below (hb : h.LeadsTo a b) : SameBelow h h' b := fun x hx => hs x (hb.trans hx)

theorem leadsTo_iff : h'.LeadsTo a x ↔ h.LeadsTo a x := by
  constructor
  · intro hx
    induction hx with
    | refl => exact .refl a
    | tail _ hc ih => exact ih.tail ((hs.hasChild_iff ih).mp hc)
  · intro hx
    induction hx with
    | refl => exact .refl a
    | tail hp hc ih => exact ih.tail ((hs.hasChild_iff hp).mpr hc)

theorem symm : SameBelow h' h a := fun x hx => (hs x (hs.leadsTo_iff.mp hx)).symm

theorem isTree (ht : h.IsTree a) (hsize : h.cells.size ≤ h'.cells.size) : h'.IsTree a where
  lt_size hx := Nat.lt_of_lt_of_le (ht.lt_size (hs.leadsTo_iff.mp hx)) hsize
  unique hp hq hpc hqc := by
    have hp := hs.leadsTo_iff.mp hp
    have hq := hs.leadsTo_iff.mp hq
    exact ht.unique hp hq ((hs.hasChild_iff hp).mp hpc) ((hs.hasChild_iff hq).mp hqc)
  nodup hp := by
    have hp := hs.leadsTo_iff.mp hp
    rw [hs _ hp]
    exact ht.nodup hp
  acyclic hp hc := by
    have hp := hs.leadsTo_iff.mp hp
    have hc := (hs.hasChild_iff hp).mp hc
    rw [(hs.below (hp.tail hc)).leadsTo_iff]
    exact ht.acyclic hp hc

end SameBelow

end Agreement

end TreePath.Heap

import TreePath.Proofs.Tree.Descent

namespace TreePath.Heap

variable {h h' h'' : Heap} {touched renewed : Nat → Prop} {i c : Nat}

section Growing

/-- New cells have been made, which hold no old ones. -/
structure Grows (h h' : Heap) (orphans : List Nat) : Prop where
  builds : Builds h h' orphans
  content_eq : ∀ j < h.cells.size, h'.content j = h.content j
  fresh : ∀ {j c}, h.cells.size ≤ j → h'.HasChild j c → h.cells.size ≤ c

namespace Grows

theorem refl (h : Heap) : Grows h h [] where
  builds := .refl h
  content_eq _ _ := rfl
  fresh hj hc := absurd hc.lt_size (Nat.not_lt_of_le hj)

theorem alloc {content : Content} (hg : Grows h h' content.children) :
    Grows h (h'.alloc content).2 [(h'.alloc content).1] where
  builds := hg.builds.alloc
  content_eq j hj := by
    rw [h'.content_alloc_of_lt content (Nat.lt_of_lt_of_le hj hg.builds.size_le)]
    exact hg.content_eq j hj
  fresh {j c} hj hc := by
    unfold HasChild at hc
    rcases Nat.lt_trichotomy j h'.cells.size with hlt | rfl | hgt
    · rw [h'.content_alloc_of_lt content hlt] at hc
      exact hg.fresh hj hc
    · rw [content_alloc_self] at hc
      exact (hg.builds.orphaned c hc).1
    · rw [content_of_size_le _ (by rw [size_alloc]; exact hgt)] at hc
      cases hc

theorem append {xs ys : List Nat} (hf : Grows h h' xs) (hg : Grows h' h'' ys) :
    Grows h h'' (xs ++ ys) where
  builds := hf.builds.append hg.builds
  content_eq j hj := by
    rw [hg.content_eq j (Nat.lt_of_lt_of_le hj hf.builds.size_le), hf.content_eq j hj]
  fresh {j c} hj hc := by
    rcases Nat.lt_or_ge j h'.cells.size with hlt | hge
    · refine hf.fresh hj ?_
      unfold HasChild
      rwa [← hg.content_eq j hlt]
    · exact Nat.le_trans hf.builds.size_le (hg.fresh hge hc)

theorem laws : BuildingLaws Grows := ⟨.refl, .alloc, .append⟩

end Grows

end Growing

section Grafting

/-- A step that puts new cells into a tree. Among the old cells, only those that are touched hold
anything else than before. A cell that is renewed lets all of its children go, and they have no
parent any more; every other cell keeps its children, and they keep theirs. -/
structure Grafts (h : Heap) (touched renewed : Nat → Prop) (h' : Heap) : Prop where
  size_le : h.cells.size ≤ h'.cells.size
  content_eq : ∀ j < h.cells.size, ¬ touched j → h'.content j = h.content j
  child?_eq : ∀ {j key c}, ¬ renewed j → h.child? j key = some c → h'.child? j key = some c
  hasChild : ∀ {j c}, ¬ renewed j → h.HasChild j c → h'.HasChild j c
  old : ∀ {j c}, c < h.cells.size → h'.HasChild j c → h.HasChild j c ∧ ¬ renewed j
  parent?_none : ∀ {j c}, c < h.cells.size → renewed j → h.HasChild j c → h'.parent? c = none
  parent?_eq : ∀ {c}, c < h.cells.size → (∀ j, renewed j → ¬ h.HasChild j c) →
    h'.parent? c = h.parent? c

namespace Grafts

theorem refl (h : Heap) : Grafts h (fun _ => False) (fun _ => False) h where
  size_le := Nat.le_refl _
  content_eq _ _ _ := rfl
  child?_eq _ hc := hc
  hasChild _ hc := hc
  old _ hc := ⟨hc, id⟩
  parent?_none _ hj := hj.elim
  parent?_eq _ _ := rfl

theorem trans {touched' renewed' : Nat → Prop} (hf : Grafts h touched renewed h')
    (hg : Grafts h' touched' renewed' h'') :
    Grafts h (fun j => touched j ∨ touched' j) (fun j => renewed j ∨ renewed' j) h'' where
  size_le := Nat.le_trans hf.size_le hg.size_le
  content_eq j hj hout := by
    obtain ⟨hout, hout'⟩ := not_or.mp hout
    rw [hg.content_eq j (Nat.lt_of_lt_of_le hj hf.size_le) hout', hf.content_eq j hj hout]
  child?_eq hout hc := by
    obtain ⟨hout, hout'⟩ := not_or.mp hout
    exact hg.child?_eq hout' (hf.child?_eq hout hc)
  hasChild hout hc := by
    obtain ⟨hout, hout'⟩ := not_or.mp hout
    exact hg.hasChild hout' (hf.hasChild hout hc)
  old hlt hc := by
    obtain ⟨hbetween, hout'⟩ := hg.old (Nat.lt_of_lt_of_le hlt hf.size_le) hc
    obtain ⟨hbefore, hout⟩ := hf.old hlt hbetween
    exact ⟨hbefore, not_or.mpr ⟨hout, hout'⟩⟩
  parent?_none {j c} hlt hj hc := by
    have hlt' := Nat.lt_of_lt_of_le hlt hf.size_le
    by_cases hagain : ∃ k, renewed' k ∧ h'.HasChild k c
    · obtain ⟨k, hk, hkc⟩ := hagain
      exact hg.parent?_none hlt' hk hkc
    · -- the second step has found `c` nowhere, so the first one has let it go
      have hkept := hg.parent?_eq hlt' fun k hk hkc => hagain ⟨k, hk, hkc⟩
      by_cases hfirst : renewed j
      · rw [hkept, hf.parent?_none hlt hfirst hc]
      · exact absurd ⟨j, hj.resolve_left hfirst, hf.hasChild hfirst hc⟩ hagain
  parent?_eq {c} hlt hout := by
    have hlt' := Nat.lt_of_lt_of_le hlt hf.size_le
    rw [hg.parent?_eq hlt' fun j hj hc => hout j (.inr hj) (hf.old hlt hc).1,
      hf.parent?_eq hlt fun j hj => hout j (.inl hj)]

/-- More may count as touched, and what is renewed may be told in other words. -/
theorem imp {touched' renewed' : Nat → Prop} (hf : Grafts h touched renewed h')
    (htouched : ∀ j, touched j → touched' j) (hrenewed : ∀ j, renewed j ↔ renewed' j) :
    Grafts h touched' renewed' h' := by
  obtain rfl : renewed = renewed' := funext fun j => propext (hrenewed j)
  exact { hf with content_eq := fun j hj hout => hf.content_eq j hj fun ht => hout (htouched j ht) }

/-- A way to an old cell leads through old cells alone, and none of those above it is renewed. -/
theorem leadsTo_of_lt (hf : Grafts h touched renewed h') {a x : Nat} (hx : h'.LeadsTo a x)
    (hlt : x < h.cells.size) : h.LeadsTo a x := by
  induction hx with
  | refl => exact .refl a
  | tail _ hc ih =>
    obtain ⟨hbefore, -⟩ := hf.old hlt hc
    exact (ih hbefore.lt_size).tail hbefore

/-- What no renewed cell stands above is where it was. -/
theorem at?_eq (hf : Grafts h touched renewed h') {a x : Nat} {l : Location}
    (hx : h.at? a l = some x)
    (hkept : ∀ m z, m <+: l → m ≠ l → h.at? a m = some z → ¬ renewed z) :
    h'.at? a l = some x := by
  induction l generalizing a with
  | nil => exact hx
  | cons key rest ih =>
    obtain ⟨c, hc, hrest⟩ := Option.bind_eq_some_iff.mp hx
    have hhere : ¬ renewed a := hkept [] a List.nil_prefix nofun rfl
    unfold at?
    rw [hf.child?_eq hhere hc]
    refine ih hrest fun m z hm hne hz => hkept (key :: m) z (List.cons_prefix_cons.mpr ⟨rfl, hm⟩)
      (fun hsame => hne (List.cons.inj hsame).2) ?_
    unfold at?
    rw [hc]
    exact hz

/-- The place that the renewed cells are below of is where it was. -/
theorem at?_place (hf : Grafts h touched renewed h') {root a : Nat} (ht : h.IsTree root)
    (hbelow : ∀ z, renewed z → h.LeadsTo a z) {l : Location} (hl : h.at? root l = some a) :
    h'.at? root l = some a := by
  refine hf.at?_eq hl fun m z hm hne hz hrenewed => ?_
  obtain ⟨c, hc, hca⟩ := exists_child_of_at? hm hne hl hz
  exact ht.acyclic (leadsTo_of_at? hz) hc (hca.trans (hbelow z hrenewed))

section InTrees

variable {root a x y z d : Nat} {l : Location} (hf : Grafts h touched renewed h')
  (ht : h.IsTree root) (ha : h.LeadsTo root a) (hbelow : ∀ z, renewed z → h.LeadsTo a z)

include hf ht ha hbelow

/-- What no renewed cell stands above has the parent that it had. -/
theorem parent?_at (hx : h.at? a l = some x)
    (hkept : ∀ m z, m <+: l → m ≠ l → h.at? a m = some z → ¬ renewed z) :
    h'.parent? x = h.parent? x := by
  refine hf.parent?_eq (ht.lt_size (ha.trans (leadsTo_of_at? hx))) fun z hz hzx => ?_
  have hroot := ha.trans (hbelow z hz)
  by_cases hl : l = []
  · subst hl
    obtain rfl := Option.some.inj hx
    exact ht.acyclic hroot hzx (hbelow z hz)
  · obtain ⟨m, p, hm, hne, hp, hpx⟩ := exists_parent_of_at? hl hx
    obtain rfl := ht.unique (ha.trans (leadsTo_of_at? hp)) hroot hpx hzx
    exact hkept m p hm hne hp hz

/-- No way from the root comes to what was below a renewed cell. -/
theorem lost (hz : renewed z) (hzd : h.HasChild z d) (hdy : h.LeadsTo d y) :
    ¬ h'.LeadsTo root y := by
  have hroot := ha.trans (hbelow z hz)
  -- an old cell can only be reached through the parent that it had, if that has kept it
  have hplace : ∀ {p c}, h.LeadsTo root p → h.HasChild p c → h'.LeadsTo root c →
      h'.LeadsTo root p ∧ ¬ renewed p := by
    intro p c hp hpc hc
    cases hc with
    | refl => exact absurd hp (ht.acyclic hp hpc)
    | @tail q _ hq hqc =>
      obtain ⟨hbefore, hout⟩ := hf.old (ht.lt_size (hp.tail hpc)) hqc
      obtain rfl := ht.unique (hf.leadsTo_of_lt hq hbefore.lt_size) hp hbefore hpc
      exact ⟨hq, hout⟩
  induction hdy with
  | refl => exact fun hd => (hplace hroot hzd hd).2 hz
  | tail hdp hpc ih => exact fun hc => ih (hplace (hroot.trans (hzd.leadsTo.trans hdp)) hpc hc).1

end InTrees

end Grafts

end Grafting

section Steps

/-- Apart from cell `i`, old cells hold what they held, and new ones hold no old ones. -/
structure GrownAt (h : Heap) (i : Nat) (h' : Heap) : Prop where
  size_le : h.cells.size ≤ h'.cells.size
  content_eq : ∀ j < h.cells.size, j ≠ i → h'.content j = h.content j
  fresh : ∀ {j c}, h.cells.size ≤ j → h'.HasChild j c → h.cells.size ≤ c

theorem Grows.grownAt {cs : List Nat} (hg : Grows h h' cs) (hi : i < h.cells.size)
    (hsize : h''.cells.size = h'.cells.size) (hcontent : ∀ j ≠ i, h''.content j = h'.content j) :
    GrownAt h i h'' where
  size_le := hsize ▸ hg.builds.size_le
  content_eq j hj hne := (hcontent j hne).trans (hg.content_eq j hj)
  fresh {j c} hj hc := by
    unfold HasChild at hc
    rw [hcontent j (Nat.ne_of_gt (Nat.lt_of_lt_of_le hi hj))] at hc
    exact hg.fresh hj hc

/-- What is left to be said is what becomes of the cell itself, and of the parents. -/
theorem GrownAt.grafts (hg : GrownAt h i h') (hrenewed : ∀ j, renewed j → j = i)
    (hchild : ¬ renewed i → ∀ {key c}, h.child? i key = some c → h'.child? i key = some c)
    (hhas : ¬ renewed i → ∀ {c}, h.HasChild i c → h'.HasChild i c)
    (hold : ∀ {c}, c < h.cells.size → h'.HasChild i c → h.HasChild i c ∧ ¬ renewed i)
    (hnone : ∀ {c}, c < h.cells.size → renewed i → h.HasChild i c → h'.parent? c = none)
    (heq : ∀ {c}, c < h.cells.size → (renewed i → ¬ h.HasChild i c) → h'.parent? c = h.parent? c) :
    Grafts h (· = i) renewed h' where
  size_le := hg.size_le
  content_eq := hg.content_eq
  child?_eq {j key c} hj hc := by
    by_cases hji : j = i
    · subst hji
      exact hchild hj hc
    · unfold child?
      rw [hg.content_eq j (hasChild_of_child? hc).lt_size hji]
      exact hc
  hasChild {j c} hj hc := by
    by_cases hji : j = i
    · subst hji
      exact hhas hj hc
    · unfold HasChild
      rw [hg.content_eq j hc.lt_size hji]
      exact hc
  old {j c} hlt hc := by
    by_cases hji : j = i
    · subst hji
      exact hold hlt hc
    · refine ⟨?_, fun hj => hji (hrenewed j hj)⟩
      rcases Nat.lt_or_ge j h.cells.size with hj | hj
      · unfold HasChild at hc
        rw [hg.content_eq j hj hji] at hc
        exact hc
      · exact absurd hlt (Nat.not_lt_of_le (hg.fresh hj hc))
  parent?_none hlt hj hc := by
    obtain rfl := hrenewed _ hj
    exact hnone hlt hj hc
  parent?_eq hlt hout := heq hlt (hout i)

/-- Replacing what a cell holds renews that cell. -/
theorem grafts_set (h : Heap) (hc : c < h.cells.size) (v : Json) :
    Grafts h (· = c) (· = c) (h.set c v) := by
  have hg := Grows.laws.contentOf h v
  have hself : (h.set c v).content c = (h.contentOf v).1 :=
    content_replaceContent_self _ _ (Nat.lt_of_lt_of_le hc hg.builds.size_le)
  have hparent : ∀ {j}, j < h.cells.size → (h.set c v).parent? j =
      if j ∈ (h.content c).children then none else h.parent? j := by
    intro j hj
    have hnew : ¬ (j ∈ (h.contentOf v).1.children ∧ j < (h.contentOf v).2.cells.size) :=
      fun hboth => Nat.not_le_of_lt hj (hg.builds.orphaned j hboth.1).1
    unfold set replaceContent
    rw [parent?_detach, parent?_setContent, parent?_attach, if_neg hnew, hg.content_eq c hc,
      hg.builds.parent?_eq j hj]
  have hgrown : GrownAt h c (h.set c v) := hg.grownAt hc (size_replaceContent _ _ _)
    fun j hj => content_replaceContent_of_ne _ _ hj
  refine hgrown.grafts (fun _ hj => hj)
    (fun hne => absurd rfl hne) (fun hne => absurd rfl hne) (fun {d} hlt hd => ?_)
    (fun hlt _ hd => (hparent hlt).trans (if_pos hd))
    (fun hlt hout => (hparent hlt).trans (if_neg (hout rfl)))
  unfold HasChild at hd
  rw [hself] at hd
  exact absurd hlt (Nat.not_lt_of_le (hg.builds.orphaned d hd).1)

end Steps

section Putting

variable {fields : List (String × Nat)} {key : ChildKey}

theorem hasChild_mapping (hcontent : h.content i = .mapping fields) :
    h.HasChild i c ↔ ∃ name, (name, c) ∈ fields := by
  unfold HasChild
  rw [hcontent, Content.children_mapping, List.mem_map]
  constructor
  · rintro ⟨⟨name, c⟩, hfield, rfl⟩
    exact ⟨name, hfield⟩
  · rintro ⟨name, hfield⟩
    exact ⟨(name, c), hfield, rfl⟩

variable (hcontent : h.content i = .mapping fields) (hnone : h.child? i key = none) (v : Json)

include hcontent hnone

theorem putNew_mapping : h.putNew key v i =
    (1, (((h.ofJson v).2.attach i [(h.ofJson v).1]).setContent i
      (.mapping (Fields.insert fields key.asName (h.ofJson v).1))).detach []) := by
  have hg := Grows.laws.ofJson h v
  rw [child?_mapping hcontent] at hnone
  unfold putNew
  rw [hcontent]
  simp only
  rw [insert_mapping ((hg.content_eq i (lt_size_of_mapping hcontent)).trans hcontent), hnone]
  rfl

theorem content_putNew_self : (h.putNew key v i).2.content i =
    .mapping (Fields.insert fields key.asName (h.ofJson v).1) := by
  rw [putNew_mapping hcontent hnone]
  refine content_setContent_self _ _ ?_
  rw [size_attach]
  exact Nat.lt_of_lt_of_le (lt_size_of_mapping hcontent) (Grows.laws.ofJson h v).builds.size_le

theorem grownAt_putNew : GrownAt h i (h.putNew key v i).2 := by
  rw [putNew_mapping hcontent hnone]
  refine (Grows.laws.ofJson h v).grownAt (lt_size_of_mapping hcontent) ?_ fun j hj => ?_
  · simp [detach]
  · simp [detach, content_setContent_of_ne _ _ hj]

theorem parent?_putNew {j : Nat} (hj : j < h.cells.size) :
    (h.putNew key v i).2.parent? j = h.parent? j := by
  have hb := (Grows.laws.ofJson h v).builds
  have hne : ¬ (j ∈ [(h.ofJson v).1] ∧ j < (h.ofJson v).2.cells.size) := fun hboth =>
    Nat.not_le_of_lt hj (hb.orphaned j hboth.1).1
  rw [putNew_mapping hcontent hnone, parent?_detach, if_neg List.not_mem_nil, parent?_setContent,
    parent?_attach, if_neg hne, hb.parent?_eq j hj]

theorem child?_putNew_of_ne {other : ChildKey} (hne : other.asName ≠ key.asName) :
    (h.putNew key v i).2.child? i other = h.child? i other := by
  rw [child?_mapping (content_putNew_self hcontent hnone v), child?_mapping hcontent,
    Fields.find?_insert_of_ne _ hne]

/-- Putting a new tree into a mapping, at a name that is not there yet, renews nothing. -/
theorem grafts_putNew : Grafts h (· = i) (fun _ => False) (h.putNew key v i).2 := by
  have hself := content_putNew_self hcontent hnone v
  refine (grownAt_putNew hcontent hnone v).grafts (fun _ => False.elim) (fun _ {k d} hd => ?_)
    (fun _ {d} hd => ?_) (fun {d} hlt hd => ⟨?_, id⟩) (fun _ => False.elim)
    (fun hlt _ => parent?_putNew hcontent hnone v hlt)
  · have hne : k.asName ≠ key.asName := by
      intro hsame
      rw [child?_mapping hcontent, hsame, ← child?_mapping hcontent, hnone] at hd
      cases hd
    rw [child?_putNew_of_ne hcontent hnone v hne, hd]
  · obtain ⟨name, hfield⟩ := (hasChild_mapping hcontent).mp hd
    have hne : name ≠ key.asName := by
      rintro rfl
      have hfound := Fields.mem_names_iff.mp (List.mem_map_of_mem (f := Prod.fst) hfield)
      rw [← child?_mapping hcontent, hnone] at hfound
      cases hfound
    exact (hasChild_mapping hself).mpr ⟨name, Fields.mem_insert_of_ne hfield hne _⟩
  · obtain ⟨name, hfield⟩ := (hasChild_mapping hself).mp hd
    rcases Fields.mem_insert hfield with hnew | hold
    · obtain rfl := (Prod.mk.inj hnew).2
      have horphan := (Grows.laws.ofJson h v).builds.orphaned _ (List.mem_singleton_self _)
      exact absurd hlt (Nat.not_lt_of_le horphan.1)
    · exact (hasChild_mapping hcontent).mpr ⟨name, hold⟩

end Putting

end TreePath.Heap

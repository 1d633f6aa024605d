import TreePath.Proofs.Tree.Building
import TreePath.Proofs.Tree.Steps

namespace TreePath

namespace Heap

variable {h h' h'' : Heap} {gone : Finset Nat} {i c : Nat}

section Nodes

/-- Nodes are attached and the content is changed before those that leave are detached. -/
theorem exchanged_steps {content : Content} {taken left : List Nat} (hi : i < h.cells.size)
    (htaken : ∀ c ∈ taken, c < h.cells.size)
    (hperm : (left ++ content.children).Perm (taken ++ (h.content i).children)) :
    Exchanged h i taken left (((h.attach i taken).setContent i content).detach left) where
  size_eq := by simp
  content_eq j hj := by
    rw [content_detach, content_setContent_of_ne _ _ hj, content_attach]
  perm := by
    rw [content_detach, content_setContent_self _ _ (by simpa using hi)]
    exact hperm
  parent?_eq j := by
    rw [parent?_detach, parent?_setContent, parent?_attach]
    by_cases hmem : j ∈ taken
    · simp [hmem, htaken j hmem]
    · simp [hmem]

/-- A cell gets a value in the place of what it held. -/
theorem Consistent.set (hh : h.Consistent gone) (hi : h.Live gone i) {v : Json}
    (hv : v.WellFormed) : Kept gone h (h.set i v) := by
  obtain ⟨hb, htidy⟩ := contentOf_built hh v hv
  have hlive := hb.kept.live hi
  have he : SoundExchange (h.contentOf v).2 gone i (h.contentOf v).1.children
      ((h.contentOf v).2.content i).children (h.set i v) := {
    consistent := hb.consistent
    live := hlive
    insertable := hb.insertable hh hi
    nodup := hb.nodup
    exchanged := exchanged_steps hlive.1 (fun c hc => (hb.builds.orphaned c hc).2.1)
      List.perm_append_comm }
  refine hb.kept.trans (he.kept ?_)
  have hcontent : (h.set i v).content i = (h.contentOf v).1 :=
    content_replaceContent_self _ _ hlive.1
  rw [hcontent]
  exact htidy

theorem content_of_isVacant (h : Heap) (hvacant : h.isVacant i = true) :
    (h.content i).children = [] := by
  unfold isVacant at hvacant
  cases hcontent : h.content i with
  | leaf v => rfl
  | mapping | sequence | function => simp [hcontent] at hvacant

/-- A vacant node that becomes an empty container. -/
theorem sameLinks_replaceContent (hi : i < h.cells.size) {content : Content}
    (hnone : content.children = []) (hvacant : h.isVacant i = true) :
    SameLinks h (h.replaceContent i content) where
  size_le := by simp
  parent?_eq j := by
    unfold replaceContent
    rw [hnone, content_of_isVacant h hvacant, parent?_detach, if_neg List.not_mem_nil,
      parent?_setContent]
    rfl
  children_eq j := by
    by_cases hij : j = i
    · subst hij
      rw [content_replaceContent_self _ _ hi, hnone, content_of_isVacant h hvacant]
    · rw [content_replaceContent_of_ne _ _ hij]

/-- Only a vacant node is made a container, so that nothing is lost and what could become a child
still can. -/
theorem Consistent.opened (hh : h.Consistent gone) (hi : h.Live gone i) (content : Content)
    (hnone : content.children = []) (htidy : content.Tidy) :
    let h' := if h.isVacant i then h.replaceContent i content else h
    Kept gone h h' ∧ ∀ c, h.Insertable gone i c → h'.Insertable gone i c := by
  cases hvacant : h.isVacant i with
  | false => exact ⟨hh.kept, fun _ hc => hc⟩
  | true =>
    have hlinks := sameLinks_replaceContent hi.1 hnone hvacant
    refine ⟨⟨hlinks.size_le, hlinks.consistent hh fun j => ?_⟩, fun _ hc => hlinks.insertable hc⟩
    by_cases hij : j = i
    · rw [hij, content_replaceContent_self _ _ hi.1]
      exact htidy
    · rw [content_replaceContent_of_ne _ _ hij]
      exact hh.tidy j

theorem Consistent.exchange (hh : h.Consistent gone) (hi : h.Live gone i)
    (hc : h.Insertable gone i c) {left : List Nat} (he : Exchanged h i [c] left h')
    (htidy : (h'.content i).Tidy) : Kept gone h h' :=
  SoundExchange.kept ⟨hh, hi, fun _ hmem => List.mem_singleton.mp hmem ▸ hc,
    List.nodup_singleton c, he⟩ htidy

/-- A node that is refused has been attached for a moment. -/
theorem exchanged_refused (h : Heap) (i c : Nat) :
    Exchanged h i [c] [c] ((h.attach i [c]).detach [c]) where
  size_eq := by simp
  content_eq j _ := by simp
  perm := by
    rw [content_detach, content_attach]
  parent?_eq j := by
    rw [parent?_detach, parent?_attach]
    by_cases hj : j ∈ [c]
    · rw [if_pos hj, if_pos hj]
    · rw [if_neg hj, if_neg hj, if_neg hj, if_neg fun hboth => hj hboth.1]

/-- Whether the node takes the child in or hands it back, and whichever child is replaced by it. -/
theorem Consistent.insert (hh : h.Consistent gone) (hi : h.Live gone i)
    (hc : h.Insertable gone i c) (name : String) : Kept gone h (h.insert i name c).2 := by
  obtain ⟨hopen, hinsert⟩ := hh.opened hi (.mapping []) rfl List.Pairwise.nil
  unfold Heap.insert
  generalize (if h.isVacant i then h.replaceContent i (.mapping []) else h) = h₁ at hopen hinsert ⊢
  have hh₁ := hopen.consistent
  have hi₁ := hopen.live hi
  have hc₁ := hinsert c hc
  refine hopen.trans ?_
  simp only [content_attach]
  have hrefused : Kept gone h₁ ((h₁.attach i [c]).detach [c]) := by
    refine hh₁.exchange hi₁ hc₁ (h₁.exchanged_refused i c) ?_
    rw [content_detach, content_attach]
    exact hh₁.tidy i
  cases hcontent : h₁.content i with
  | mapping fields =>
    have hasc : Fields.Ascending fields := by
      have htidy := hh₁.tidy i
      rwa [hcontent] at htidy
    refine hh₁.exchange hi₁ hc₁ (exchanged_steps hi₁.1 ?_ ?_) ?_
    · exact fun _ hmem => List.mem_singleton.mp hmem ▸ hc₁.loose.1.1
    · rw [hcontent, Content.children_mapping, Content.children_mapping]
      exact Fields.perm_insert hasc name c
    · rw [content_detach, content_setContent_self _ _ (by simpa using hi₁.1)]
      exact Fields.ascending_insert hasc name c
  | sequence | leaf | function => exact hrefused

theorem Consistent.push (hh : h.Consistent gone) (hi : h.Live gone i)
    (hc : h.Insertable gone i c) : Kept gone h (h.push i c).2 := by
  obtain ⟨hopen, hinsert⟩ := hh.opened hi (.sequence []) rfl trivial
  unfold Heap.push
  generalize (if h.isVacant i then h.replaceContent i (.sequence []) else h) = h₁ at hopen hinsert ⊢
  have hh₁ := hopen.consistent
  have hi₁ := hopen.live hi
  have hc₁ := hinsert c hc
  refine hopen.trans ?_
  simp only
  cases hcontent : h₁.content i with
  | sequence items =>
    have he : Exchanged h₁ i [c] []
        ((h₁.attach i [c]).setContent i (.sequence (items ++ [c]))) := by
      refine exchanged_steps hi₁.1 (fun _ hmem => List.mem_singleton.mp hmem ▸ hc₁.loose.1.1) ?_
      rw [hcontent, Content.children_sequence, Content.children_sequence, List.nil_append]
      exact List.perm_append_comm
    refine hh₁.exchange hi₁ hc₁ he ?_
    rw [content_setContent_self _ _ (by simpa using hi₁.1)]
    trivial
  | mapping | leaf | function => exact hh₁.kept

/-- A child leaves its container. -/
theorem Consistent.dismiss (hh : h.Consistent gone) (hi : h.Live gone i) {content : Content}
    (hperm : (c :: content.children).Perm (h.content i).children) (htidy : content.Tidy) :
    Kept gone h ((h.setContent i content).detach [c]) := by
  have he : Exchanged h i [] [c] ((h.setContent i content).detach [c]) :=
    exchanged_steps hi.1 (fun _ hmem => absurd hmem List.not_mem_nil) hperm
  refine SoundExchange.kept ⟨hh, hi, fun _ hmem => absurd hmem List.not_mem_nil, .nil, he⟩ ?_
  rw [content_detach, content_setContent_self _ _ hi.1]
  exact htidy

theorem Consistent.remove (hh : h.Consistent gone) (hi : h.Live gone i) (key : ChildKey) :
    Kept gone h (h.remove i key).2 := by
  cases hcontent : h.content i with
  | mapping fields =>
    rw [remove_mapping hcontent]
    cases hfound : Fields.find? fields key.asName with
    | none => exact hh.kept
    | some c =>
      have hasc : Fields.Ascending fields := by
        have htidy := hh.tidy i
        rwa [hcontent] at htidy
      refine hh.dismiss hi ?_ (Fields.ascending_erase hasc key.asName)
      rw [hcontent, Content.children_mapping, Content.children_mapping]
      exact Fields.perm_erase hfound
  | sequence items =>
    cases key with
    | name n =>
      unfold Heap.remove
      rw [hcontent]
      exact hh.kept
    | index k =>
      rw [remove_sequence hcontent]
      cases hfound : items[k]? with
      | none => exact hh.kept
      | some c =>
        obtain ⟨hk, rfl⟩ := List.getElem?_eq_some_iff.mp hfound
        refine hh.dismiss hi ?_ trivial
        rw [hcontent, Content.children_sequence, Content.children_sequence]
        exact List.getElem_cons_eraseIdx_perm hk
  | leaf | function =>
    unfold Heap.remove
    rw [hcontent]
    exact hh.kept

end Nodes

section Slots

theorem mem_children_of_child? {key : ChildKey} (hc : h.child? i key = some c) :
    c ∈ (h.content i).children := by
  cases hcontent : h.content i with
  | mapping fields =>
    rw [child?_mapping hcontent] at hc
    rw [Content.children_mapping]
    exact List.mem_map_of_mem (Fields.mem_of_find? hc)
  | sequence items =>
    rw [child?, hcontent] at hc
    rw [Content.children_sequence]
    cases key with
    | name n => cases hc
    | index k => exact List.mem_of_getElem? hc
  | leaf | function =>
    rw [child?, hcontent] at hc
    cases key <;> cases hc

theorem Consistent.live_child (hh : h.Consistent gone) (hi : h.Live gone i) {key : ChildKey}
    (hc : h.child? i key = some c) : h.Live gone c := hh.closed hi (mem_children_of_child? hc)

/-- A new vacant leaf, for a place among the children of the node. -/
theorem Consistent.vacant (hh : h.Consistent gone) (hi : h.Live gone i) :
    Kept gone h (h.alloc (.leaf .null)).2 ∧
      (h.alloc (.leaf .null)).2.Insertable gone i (h.alloc (.leaf .null)).1 := by
  have hb := leaf_built hh (v := .null) trivial
  exact ⟨hb.kept, hb.insertable hh hi _ (List.mem_singleton_self _)⟩

theorem Consistent.pad (hh : h.Consistent gone) (hi : h.Live gone i) (count : Nat) :
    Kept gone h (h.pad i count) := by
  induction count generalizing h with
  | zero => exact hh.kept
  | succ count ih =>
    obtain ⟨hkept, hinsert⟩ := hh.vacant hi
    have hpush := hkept.consistent.push (hkept.live hi) hinsert
    have hall := hkept.trans hpush
    exact hall.trans (ih hall.consistent (hall.live hi))

/-- The step keeps the heap consistent, and the node that it may give is live. -/
structure Gives (gone : Finset Nat) (h : Heap) (x : Option Nat × Heap) : Prop where
  kept : Kept gone h x.2
  live : ∀ c, x.1 = some c → x.2.Live gone c

/-- Where there is no place for a child, nothing is done. -/
theorem Consistent.gives_none (hh : h.Consistent gone) : Gives gone h (none, h) where
  kept := hh.kept
  live c hc := by cases hc

theorem Consistent.slot (hh : h.Consistent gone) (hi : h.Live gone i) (position : Nat) :
    Gives gone h (h.slot i position) := by
  unfold Heap.slot
  cases hcontent : h.content i with
  | sequence items =>
    have hpad := hh.pad hi (position + 1 - items.length)
    exact ⟨hpad, fun c hc => hpad.consistent.live_child (hpad.live hi) hc⟩
  | mapping | leaf | function => exact hh.gives_none

theorem Consistent.ensureContainer (hh : h.Consistent gone) (hi : h.Live gone i)
    (kind : NodeKind) : Kept gone h (h.ensureContainer kind i).2 := by
  change Kept gone h (if h.isVacant i then h.set i kind.emptyValue else h)
  split
  · exact hh.set hi (wellFormed_emptyValue kind)
  · exact hh.kept

theorem Consistent.ensureSlot (hh : h.Consistent gone) (hi : h.Live gone i) (key : ChildKey) :
    Gives gone h (h.ensureSlot key i) := by
  cases hcontent : h.content i with
  | mapping fields =>
    rw [h.ensureSlot_mapping hcontent]
    cases hfound : Fields.find? fields key.asName with
    | some c =>
      have hchild : h.child? i key = some c := (child?_mapping hcontent key).trans hfound
      exact ⟨hh.kept, fun _ hc => Option.some.inj hc ▸ hh.live_child hi hchild⟩
    | none =>
      obtain ⟨hkept, hinsert⟩ := hh.vacant hi
      have hinserted := hkept.consistent.insert (hkept.live hi) hinsert key.asName
      exact ⟨hkept.trans hinserted, fun _ hc =>
        Option.some.inj hc ▸ hinserted.live hinsert.loose.1⟩
  | sequence items =>
    cases key with
    | name n =>
      unfold Heap.ensureSlot
      rw [hcontent]
      exact hh.gives_none
    | index k =>
      unfold Heap.ensureSlot
      rw [hcontent]
      exact hh.slot hi k
  | leaf | function =>
    unfold Heap.ensureSlot
    rw [hcontent]
    exact hh.gives_none

theorem Consistent.ensureChild (hh : h.Consistent gone) (hi : h.Live gone i) (key : ChildKey)
    (kind : NodeKind) : Kept gone h (h.ensureChild key kind i).2 := by
  obtain ⟨hkept, hlive⟩ := hh.ensureSlot hi key
  unfold Heap.ensureChild
  rcases hslot : h.ensureSlot key i with ⟨found, h₁⟩
  rw [hslot] at hkept hlive
  cases found with
  | none => exact hkept
  | some c =>
    change Kept gone h (if h₁.isVacant c then h₁.set c kind.emptyValue else h₁)
    split
    · exact hkept.trans (hkept.consistent.set (hlive c rfl) (wellFormed_emptyValue kind))
    · exact hkept

end Slots

section Patches

variable {patch : Patch}

theorem wellFormedItems_map {f : Nat → Json} (hf : ∀ i, (f i).WellFormed) (items : List Nat) :
    Json.WellFormedItems (items.map f) := by
  induction items with
  | nil => trivial
  | cons i rest ih => exact ⟨hf i, ih⟩

theorem wellFormedFields_map {f : Nat → Json} (hf : ∀ i, (f i).WellFormed)
    (fields : List (String × Nat)) :
    Json.WellFormedFields (fields.map fun (name, i) => (name, f i)) := by
  induction fields with
  | nil => trivial
  | cons field rest ih => exact ⟨hf field.2, ih⟩

/-- What is read off a tidy heap is well-formed. -/
theorem wellFormed_toJsonWithin (htidy : ∀ j, (h.content j).Tidy) (depth i : Nat) :
    (h.toJsonWithin depth i).WellFormed := by
  induction depth generalizing i with
  | zero => trivial
  | succ depth ih =>
    have hi := htidy i
    unfold toJsonWithin
    cases hcontent : h.content i with
    | mapping fields =>
      rw [hcontent] at hi
      exact ⟨List.pairwise_map.mpr hi, wellFormedFields_map ih fields⟩
    | sequence items => exact wellFormedItems_map ih items
    | leaf v =>
      rw [hcontent] at hi
      exact hi
    | function f => trivial

theorem Consistent.wellFormed_present? (hh : h.Consistent gone) (i : Nat) :
    ∀ v, h.present? i = some v → v.WellFormed := by
  intro v hv
  unfold Heap.present? at hv
  split at hv
  · cases hv
  · obtain rfl := Option.some.inj hv
    exact wellFormed_toJsonWithin hh.tidy _ _

theorem Consistent.patched (hh : h.Consistent gone) (hi : h.Live gone i)
    (hp : patch.WellFormed) : Kept gone h (h.patched patch i).2 := by
  unfold Heap.patched
  cases hresolve : patch.resolve (h.present? i) with
  | some v => exact hh.set hi (patch.wellFormed_resolve hp (hh.wellFormed_present? i) hresolve)
  | none => exact hh.set hi (v := .null) trivial

theorem Consistent.putNew (hh : h.Consistent gone) (hi : h.Live gone i) (key : ChildKey) {v : Json}
    (hv : v.WellFormed) : Kept gone h (h.putNew key v i).2 := by
  cases hcontent : h.content i with
  | mapping fields =>
    have hb := ofJson_built hh hv
    have hinsert := hb.insertable hh hi _ (List.mem_singleton_self _)
    have hinserted := hb.consistent.insert (hb.kept.live hi) hinsert key.asName
    unfold Heap.putNew
    rw [hcontent]
    cases key <;> exact hb.kept.trans hinserted
  | sequence items =>
    unfold Heap.putNew
    rw [hcontent]
    cases key with
    | name n => exact hh.kept
    | index k =>
      obtain ⟨hkept, hlive⟩ := hh.slot hi k
      rcases hslot : h.slot i k with ⟨found, h₁⟩
      rw [hslot] at hkept hlive
      simp only [hslot]
      cases found with
      | none => exact hkept
      | some c => exact hkept.trans (hkept.consistent.set (hlive c rfl) hv)
  | leaf | function =>
    unfold Heap.putNew
    rw [hcontent]
    exact hh.kept

theorem Consistent.patchedChild (hh : h.Consistent gone) (hi : h.Live gone i) (key : ChildKey)
    (hp : patch.WellFormed) : Kept gone h (h.patchedChild key patch i).2 := by
  unfold Heap.patchedChild
  simp only
  split
  · next v hresolve =>
    have hv : v.WellFormed := by
      refine patch.wellFormed_resolve hp (fun w hw => ?_) hresolve
      obtain ⟨c, -, hpresent⟩ := Option.bind_eq_some_iff.mp hw
      exact hh.wellFormed_present? c w hpresent
    split
    · next c hc => exact hh.set (hh.live_child hi hc) hv
    · exact hh.putNew hi key hv
  · exact hh.remove hi key

end Patches

end Heap

end TreePath

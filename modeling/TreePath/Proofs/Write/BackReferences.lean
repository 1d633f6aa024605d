import Mathlib
import TreePath.Proofs.Resolver.Calls
import TreePath.Proofs.Tree.Mutation
import TreePath.Proofs.Write.Preservation

namespace TreePath

open Heap TreeUpdate

section Writes

/-- The write has come back to its cell and has kept the heap consistent, if the cell was live. -/
structure KeepsLinks (n m : HeapNode) : Prop where
  cell_eq : m.cell = n.cell
  kept : ∀ {gone}, n.heap.Consistent gone → n.heap.Live gone n.cell → Kept gone n.heap m.heap

theorem KeepsLinks.refl (n : HeapNode) : KeepsLinks n n := ⟨rfl, fun hh _ => hh.kept⟩

theorem KeepsLinks.trans {n m k : HeapNode} (h : KeepsLinks n m) (h' : KeepsLinks m k) :
    KeepsLinks n k where
  cell_eq := h'.cell_eq.trans h.cell_eq
  kept hh hi := by
    have hkept := h.kept hh hi
    exact hkept.trans (h'.kept hkept.consistent (h.cell_eq ▸ hkept.live hi))

/-- A step that keeps the heap consistent whenever the cell is live. -/
theorem keepsLinks_step {α : Type} {f : Heap → Nat → α × Heap}
    (hf : ∀ {h : Heap} {gone i}, h.Consistent gone → h.Live gone i → Kept gone h (f h i).2) :
    (Write.step (HeapNode.liftStep f)).Keeps KeepsLinks := fun _ => ⟨rfl, fun hh hi => hf hh hi⟩

theorem keepsLinks_withChild (key : ChildKey) {x : Write HeapNode Nat} (hx : x.Keeps KeepsLinks) :
    (withChild key x).Keeps KeepsLinks := by
  intro n
  change KeepsLinks n (HeapNode.withChild key x n).tree
  unfold HeapNode.withChild
  cases hchild : n.heap.child? n.cell key with
  | none => exact .refl n
  | some c => exact ⟨rfl, fun hh hi => (hx (n.goto c)).kept hh (hh.live_child hi hchild)⟩

theorem keptBySteps_keepsLinks : KeptBySteps KeepsLinks where
  refl := .refl
  trans := .trans
  ensureContainer kind := keepsLinks_step fun hh hi => hh.ensureContainer hi kind
  ensureChild key kind := keepsLinks_step fun hh hi => hh.ensureChild hi key kind
  withChild := keepsLinks_withChild
  apply key patch hpatch := by
    cases key with
    | none => exact keepsLinks_step fun hh hi => hh.patched hi hpatch
    | some key => exact keepsLinks_step fun hh hi => hh.patchedChild hi key hpatch

/-- A write through a live node keeps the heap consistent, also when it fails. -/
theorem Heap.Consistent.writeAt {h : Heap} {gone : Finset Nat} {i : Nat} (hh : h.Consistent gone)
    (hi : h.Live gone i) (source : PathSource) {patch : Patch} (hpatch : patch.WellFormed)
    (r : Resolver) :
    Kept gone h (Resolver.writeAt (⟨h, i⟩ : HeapNode) source patch r).1.2.heap := by
  rcases hcompile : Resolver.compile source r with ⟨e | p, r'⟩
  · have hwritten : Resolver.writeAt (⟨h, i⟩ : HeapNode) source patch r = ((.error e, ⟨h, i⟩), r') :=
      Resolver.writeAt_of_error hcompile _ _
    rw [hwritten]
    exact hh.kept
  · have hwritten : Resolver.writeAt (⟨h, i⟩ : HeapNode) source patch r =
        Resolver.writePath ⟨h, i⟩ p patch r' := Resolver.writeAt_of_ok hcompile _ _
    rw [hwritten]
    exact (write_keeps r'.config keptBySteps_keepsLinks p hpatch ⟨h, i⟩).kept hh hi

end Writes

namespace Heap

section States

variable {h : Heap} {gone : Finset Nat}

/-- What can be done to the nodes of a heap. What is used is live, and what is put into a container
stands nowhere and is neither the container nor above it. -/
inductive Step (h : Heap) (gone : Finset Nat) : Heap → Prop where
  | ofJson {v : Json} (hv : v.WellFormed) : Step h gone (h.ofJson v).2
  | leaf {v : Json} (hv : v.WellFormed) : Step h gone (h.alloc (.leaf v)).2
  | mapping : Step h gone (h.alloc (.mapping [])).2
  | sequence : Step h gone (h.alloc (.sequence [])).2
  | function (f : List Json → Json) : Step h gone (h.alloc (.function f)).2
  | set {i : Nat} (hi : h.Live gone i) {v : Json} (hv : v.WellFormed) : Step h gone (h.set i v)
  | insert {i c : Nat} (hi : h.Live gone i) (hc : h.Insertable gone i c) (name : String) :
      Step h gone (h.insert i name c).2
  | push {i c : Nat} (hi : h.Live gone i) (hc : h.Insertable gone i c) : Step h gone (h.push i c).2
  | remove {i : Nat} (hi : h.Live gone i) (key : ChildKey) : Step h gone (h.remove i key).2
  | write {i : Nat} (hi : h.Live gone i) (source : PathSource) {patch : Patch}
      (hpatch : patch.WellFormed) (r : Resolver) :
      Step h gone (Resolver.writeAt (⟨h, i⟩ : HeapNode) source patch r).1.2.heap

/-- The states that a heap gets into, with the cells that have been dropped. Nodes are dropped at
any time, but none that is still a child of a live node. Their own children lose the link to
them. -/
inductive Reached : Heap → Finset Nat → Prop where
  | empty : Reached .empty ∅
  | step {h h' : Heap} {gone : Finset Nat} (hr : Reached h gone) (hs : h.Step gone h') :
      Reached h' gone
  | drop {h : Heap} {gone gone' : Finset Nat} (hr : Reached h gone) (hsub : gone ⊆ gone')
      (hlt : ∀ i ∈ gone', i < h.cells.size)
      (hheld : ∀ n, h.Live gone' n → ∀ c ∈ (h.content n).children, h.Live gone' c) :
      Reached (h.forget gone') gone'

theorem Step.consistent {h' : Heap} (hs : h.Step gone h') (hh : h.Consistent gone) :
    h'.Consistent gone := by
  cases hs with
  | ofJson hv => exact (ofJson_built hh hv).consistent
  | leaf hv => exact (leaf_built hh hv).consistent
  | mapping => exact (hh.allocEmpty (.mapping []) List.Pairwise.nil rfl).consistent
  | sequence => exact (hh.allocEmpty (.sequence []) trivial rfl).consistent
  | function f => exact (hh.allocEmpty (.function f) trivial rfl).consistent
  | set hi hv => exact (hh.set hi hv).consistent
  | insert hi hc name => exact (hh.insert hi hc name).consistent
  | push hi hc => exact (hh.push hi hc).consistent
  | remove hi key => exact (hh.remove hi key).consistent
  | write hi source hpatch r => exact (hh.writeAt hi source hpatch r).consistent

theorem Consistent.drop {gone' : Finset Nat} (hh : h.Consistent gone) (hsub : gone ⊆ gone')
    (hlt : ∀ i ∈ gone', i < h.cells.size)
    (hheld : ∀ n, h.Live gone' n → ∀ c ∈ (h.content n).children, h.Live gone' c) :
    (h.forget gone').Consistent gone' := by
  have hlive : ∀ {i}, (h.forget gone').Live gone' i → h.Live gone i := fun hi =>
    ⟨(live_forget.mp hi).1, fun hmem => hi.2 (hsub hmem)⟩
  have hlink : ∀ {p c}, (h.forget gone').parent? c = some p ↔ h.parent? c = some p ∧ p ∉ gone' := by
    intro p c
    rw [parent?_forget, liveParent?_eq_some]
  have hparent : ∀ {p c}, (h.forget gone').ParentOf gone' p c → h.ParentOf gone p c := by
    intro p c hp
    obtain ⟨heq, hout⟩ := hlink.mp hp.parent?_eq
    exact ⟨hlive hp.1, liveParent?_eq_some.mpr ⟨heq, fun hmem => hout (hsub hmem)⟩⟩
  exact {
    gone_lt := fun i hi => by
      rw [size_forget]
      exact hlt i hi
    parent_live := fun hp => by
      obtain ⟨hold, hout⟩ := hlink.mp hp
      exact live_forget.mpr ⟨(hh.parent_live hold).1, hout⟩
    closed := fun {n c} hn hc => by
      rw [content_forget] at hc
      exact live_forget.mpr (hheld n (live_forget.mp hn) c hc)
    linked := fun {n c} hn hc => by
      rw [content_forget, hlink, hh.linked (hlive hn) (hlive hc)]
      exact (and_iff_left hn.2).symm
    nodup := fun hn => by
      rw [content_forget]
      exact hh.nodup (hlive hn)
    grounded := Subrelation.wf hparent hh.grounded
    tidy := fun i => by
      rw [content_forget]
      exact hh.tidy i }

theorem Reached.consistent (hr : Reached h gone) : h.Consistent gone := by
  induction hr with
  | empty => exact .empty
  | step _ hs ih => exact hs.consistent ih
  | drop _ hsub hlt hheld ih => exact ih.drop hsub hlt hheld

end States

/-- Whatever has been done to the nodes of a heap: among the live ones, the children of a node are
those that find it as their parent; no node stands in two places; and going from parent to parent
never leads back to where one has started. -/
theorem parents_consistent {h : Heap} {gone : Finset Nat} (hr : Reached h gone) :
    (∀ n c, h.Live gone n → h.Live gone c →
      (c ∈ (h.content n).children ↔ h.liveParent? gone c = some n)) ∧
    (∀ n m a b c : Nat, h.Live gone n → h.Live gone m → (h.content n).children[a]? = some c →
      (h.content m).children[b]? = some c → n = m ∧ a = b) ∧
    ∀ c, ¬ h.Above gone c c := by
  have hh := hr.consistent
  refine ⟨fun n c hn hc => ?_, fun n m a b c hn hm ha hb => ?_, fun c habove => ?_⟩
  · rw [hh.liveParent?_eq]
    exact hh.linked hn hc
  · have hmem := List.mem_of_getElem? ha
    have hc := hh.closed hn hmem
    have hparent := (hh.linked hn hc).mp hmem
    obtain rfl := Option.some.inj (hparent.symm.trans
      ((hh.linked hm hc).mp (List.mem_of_getElem? hb)))
    obtain ⟨hlt, -⟩ := List.getElem?_eq_some_iff.mp ha
    exact ⟨rfl, (List.getElem?_inj hlt (hh.nodup hn)).mp (ha.trans hb.symm)⟩
  · exact hh.grounded.transGen.asymmetric _ _ habove habove

/-- A container has left its root, which has been dropped, for another one, and has got an element
more by a write. -/
theorem parents_consistent_moved :
    let h : Heap := ⟨#[⟨some 1, .leaf .null⟩, ⟨some 3, .sequence [0, 4]⟩, ⟨none, .mapping []⟩,
      ⟨none, .mapping [("x", 1)]⟩, ⟨some 1, .leaf (.bool true)⟩]⟩
    Reached h {2} ∧ h.liveParent? {2} 1 = some 3 ∧ 1 ∈ (h.content 3).children ∧
      ¬ h.Above {2} 1 1 := by
  intro h
  let parted : Heap := ⟨#[⟨some 1, .leaf .null⟩, ⟨none, .sequence [0]⟩, ⟨none, .mapping []⟩]⟩
  let moved : Heap := ⟨#[⟨some 1, .leaf .null⟩, ⟨some 3, .sequence [0]⟩, ⟨none, .mapping []⟩,
    ⟨none, .mapping [("x", 1)]⟩]⟩
  have hvalue : (Json.obj [("a", .arr [.null])]).WellFormed :=
    ⟨Fields.ascending_single _ _, ⟨trivial, trivial⟩, trivial⟩
  have hpatch : (Patch.merge (.bool true)).WellFormed := by
    intro v hv
    obtain rfl := Option.some.inj hv
    trivial
  have hparted : Reached parted ∅ := by
    have hstep := Reached.step (.step .empty (.ofJson hvalue))
      (.remove (i := 2) ⟨by decide, by decide⟩ (.name "a"))
    have heq : ((Heap.empty.ofJson (.obj [("a", .arr [.null])])).2.remove 2 (.name "a")).2 =
      parted := by cbv
    rwa [heq] at hstep
  have hdropped : Reached (parted.forget {2}) {2} := by
    refine .drop hparted (by simp) (by decide) fun n hn c hc => ?_
    have hcases : n = 0 ∨ n = 1 := by
      have hlt : n < 3 := hn.1
      have hne : n ≠ 2 := by simpa using hn.2
      omega
    rcases hcases with rfl | rfl
    · cases hc
    · obtain rfl := List.mem_singleton.mp hc
      exact ⟨by decide, by decide⟩
  have hparts : parted.forget {2} = parted := by cbv
  rw [hparts] at hdropped
  have hmoved : Reached moved {2} := by
    have hmapping : Reached (parted.alloc (.mapping [])).2 {2} := .step hdropped .mapping
    have hinsertable : (parted.alloc (.mapping [])).2.Insertable {2} 3 1 := {
      loose := hmapping.consistent.loose_of_parent? ⟨by decide, by decide⟩ (by cbv)
      ne := by decide
      not_above := not_above_of_parent? (by cbv) }
    have hstep := Reached.step hmapping (.insert ⟨by decide, by decide⟩ hinsertable "x")
    have heq : ((parted.alloc (.mapping [])).2.insert 3 "x" 1).2 = moved := by cbv
    rwa [heq] at hstep
  have hwritten : Reached h {2} := by
    have hstep := Reached.step hmoved (.write (i := 3) ⟨by decide, by decide⟩
      (.path [.key "x", .index 1]) hpatch (.new .default))
    have heq : (Resolver.writeAt (⟨moved, 3⟩ : HeapNode) (.path [.key "x", .index 1])
      (.merge (.bool true)) (.new .default)).1.2.heap = h := by cbv
    rwa [heq] at hstep
  obtain ⟨hlinks, -, hacyclic⟩ := parents_consistent hwritten
  have hparent : h.liveParent? {2} 1 = some 3 := by cbv
  have hmem := (hlinks 3 1 ⟨by decide, by decide⟩ ⟨by decide, by decide⟩).mpr hparent
  exact ⟨hwritten, hparent, hmem, hacyclic 1⟩

end Heap

end TreePath

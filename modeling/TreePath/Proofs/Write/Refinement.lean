import TreePath.Proofs.Tree.Steps
import TreePath.Tree.HeapUpdate

namespace TreePath

open TreeUpdate

variable {α β : Type}

/-- The outcome on a heap is that on a plain value. -/
structure Alike (h : Heap) (S : Finset Nat) (i : Nat) (o : Outcome HeapNode α)
    (o' : Outcome Json α) : Prop where
  result_eq : o.result = o'.result
  trips_eq : o.trips = o'.trips
  cell_eq : o.tree.cell = i
  rewrites : Rewrites h S o.tree.heap o'.tree i

/-- The write on heaps does to every cell that holds `t` what the other one does to `t`. -/
def RefinesAt (t : Json) (x : Write HeapNode α) (y : Write Json α) : Prop :=
  ∀ (h : Heap) (i : Nat) (S : Finset Nat), Holds h t i S → Alike h S i (x ⟨h, i⟩) (y t)

/-- What is seen of a cell that holds `t` is what is seen of `t`. -/
def SeesAt (t : Json) (f : HeapNode → α) (g : Json → α) : Prop :=
  ∀ (h : Heap) (i : Nat) (S : Finset Nat), Holds h t i S → f ⟨h, i⟩ = g t

namespace RefinesAt

variable {t : Json}

theorem pure (a : α) : RefinesAt t (Pure.pure a) (Pure.pure a) := by
  intro h i S hh
  exact ⟨rfl, rfl, rfl, .refl hh⟩

theorem fail (e : PathError) : RefinesAt t (Write.fail e : Write HeapNode α) (Write.fail e) := by
  intro h i S hh
  exact ⟨rfl, rfl, rfl, .refl hh⟩

theorem trip (a : α) : RefinesAt t (Write.trip a) (Write.trip a) := by
  intro h i S hh
  exact ⟨rfl, rfl, rfl, .refl hh⟩

theorem bind {x : Write HeapNode α} {y : Write Json α} {f : α → Write HeapNode β}
    {g : α → Write Json β} (hx : RefinesAt t x y)
    (hf : ∀ a, (y t).result = .ok a → RefinesAt (y t).tree (f a) (g a)) :
    RefinesAt t (x >>= f) (y >>= g) := by
  intro h i S hh
  obtain ⟨hresult, htrips, hcell, hrewrites⟩ := hx h i S hh
  rw [Write.bind_apply, Write.bind_apply]
  cases hy : y t with
  | mk r u trips =>
    cases hn : x ⟨h, i⟩ with
    | mk r' n trips' =>
      obtain ⟨h', i'⟩ := n
      simp only [hy, hn] at hresult htrips hcell hrewrites
      subst hresult htrips hcell
      cases r' with
      | error e => exact ⟨rfl, rfl, rfl, hrewrites⟩
      | ok a =>
        have hstep := hf a (by rw [hy])
        rw [hy] at hstep
        obtain ⟨S', hh', hframe⟩ := hrewrites
        obtain ⟨hresult, htrips, hcell, S'', hh'', hframe'⟩ := hstep h' i' S' hh'
        exact ⟨hresult, congrArg (trips' + ·) htrips, hcell, S'', hh'', hframe.trans hframe'⟩

theorem view {f : HeapNode → α} {g : Json → α} (hf : SeesAt t f g) :
    RefinesAt t (Write.view f) (Write.view g) := by
  intro h i S hh
  exact ⟨congrArg Except.ok (hf h i S hh), rfl, rfl, .refl hh⟩

theorem walk {f : HeapNode → Guarded α} {g : Json → Guarded α} (hf : SeesAt t f g) :
    RefinesAt t (Write.walk f) (Write.walk g) := by
  intro h i S hh
  have hfound := hf h i S hh
  refine ⟨?_, ?_, rfl, .refl hh⟩
  · simp only [Write.walk, hfound]
  · simp only [Write.walk, hfound]

theorem step {f : Heap → Nat → α × Heap} {g : Json → α × Json}
    (hf : ∀ (h : Heap) (i : Nat) (S : Finset Nat), Holds h t i S →
      (f h i).1 = (g t).1 ∧ Rewrites h S (f h i).2 (g t).2 i) :
    RefinesAt t (Write.step (HeapNode.liftStep f)) (Write.step g) := by
  intro h i S hh
  obtain ⟨hanswer, hrewrites⟩ := hf h i S hh
  exact ⟨congrArg Except.ok hanswer, rfl, rfl, hrewrites⟩

/-- What follows a look at the tree sees the same on both sides. -/
theorem view_bind {f : HeapNode → α} {g : Json → α} {k : α → Write HeapNode β}
    {l : α → Write Json β}
    (hf : SeesAt t f g) (hk : RefinesAt t (k (g t)) (l (g t))) :
    RefinesAt t (Write.view f >>= k) (Write.view g >>= l) :=
  bind (view hf) fun _ ha => Except.ok.inj ha ▸ hk

theorem walk_bind {f : HeapNode → Guarded α} {g : Json → Guarded α} {k : α → Write HeapNode β}
    {l : α → Write Json β}
    (hf : SeesAt t f g) (hk : RefinesAt t (k (g t).value) (l (g t).value)) :
    RefinesAt t (Write.walk f >>= k) (Write.walk g >>= l) :=
  bind (walk hf) fun _ ha => Except.ok.inj ha ▸ hk

theorem sum {f : α → Write HeapNode Nat} {g : α → Write Json Nat}
    (hf : ∀ a t, RefinesAt t (f a) (g a)) (items : List α) (t : Json) :
    RefinesAt t (Write.sum f items) (Write.sum g items) := by
  induction items generalizing t with
  | nil => exact pure 0
  | cons a items ih =>
    refine bind (hf a t) fun n _ => ?_
    exact bind (ih _) fun m _ => pure (n + m)

theorem withChild {x : Write HeapNode Nat} {y : Write Json Nat} (hx : ∀ t, RefinesAt t x y)
    (key : ChildKey) (t : Json) :
    RefinesAt t (TreeUpdate.withChild key x) (TreeUpdate.withChild key y) := by
  intro h i S hh
  change Alike h S i (HeapNode.withChild key x ⟨h, i⟩) (Json.withChild key y t)
  unfold HeapNode.withChild Json.withChild
  cases hkey : t.child? key with
  | none =>
    simp only [hh.child?_eq_none hkey]
    exact ⟨rfl, rfl, rfl, .refl hh⟩
  | some v =>
    obtain ⟨c, T, hc, hv, hwhole⟩ := hh.at_child hkey
    obtain ⟨hresult, htrips, hcell, hrewrites⟩ := hx v h c T hv
    simp only [hc]
    exact ⟨congrArg (Except.map some) hresult, htrips, rfl, hwhole hrewrites⟩

theorem inChild {x : Write HeapNode Nat} {y : Write Json Nat} (hx : ∀ t, RefinesAt t x y)
    (key : ChildKey) (t : Json) :
    RefinesAt t (TreeUpdate.inChild key x) (TreeUpdate.inChild key y) :=
  bind (withChild hx key t) fun n _ => pure (n.getD 0)

end RefinesAt

end TreePath

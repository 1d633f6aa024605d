import Mathlib.Data.List.Basic
import TreePath.Proofs.Write.Ensures
import TreePath.Proofs.Write.Place
import TreePath.Proofs.Write.Addressing

namespace TreePath

open TreeUpdate Json

theorem Write.Leaves.inChild {x : Write Json Nat} {t : Json} {key : ChildKey}
    {post : Except PathError Nat → Json → Prop} (hmissing : t.child? key = none → post (.ok 0) t)
    (hx : ∀ c, t.child? key = some c → x.Leaves c fun r d => post r (t.putChild key d)) :
    (inChild key x).Leaves t post := by
  cases hc : t.child? key with
  | none =>
    have hwith : (TreeUpdate.withChild key x : Write Json (Option Nat)) t = ⟨.ok none, t, 0⟩ := by
      change Json.withChild key x t = _
      rw [Json.withChild, hc]
    have hrun : (TreeUpdate.inChild key x : Write Json Nat) t = ⟨.ok 0, t, 0⟩ :=
      Write.bind_ok hwith _
    rw [Write.Leaves, hrun]
    exact hmissing hc
  | some c =>
    rw [Write.Leaves, inChild_eq x hc]
    exact hx c hc

variable (config : Config) {patch : Patch} {t : Json}

/-- The children that match a query are marked in the order in which they stand. -/
theorem matchingKeys_eq (query : Query) (ht : t.WellFormed) :
    (matchingKeys config query t).value = (picked config (.predicate query) t).map Prod.fst := by
  unfold matchingKeys
  rw [Guarded.value_bind, Guarded.value_mapM, Guarded.value_pure]
  change (((t.children.map Prod.fst).map _).filter _).map _ = _
  rw [List.map_map, List.map_congr_left (g := fun e => (e.1, (meets config query e.2).value))]
  · rw [List.filter_map, List.map_map, picked]
    rfl
  · intro e he
    have hchild : childSnapshot? t e.1 = some e.2 := Json.child?_of_mem ht he
    simp only [Function.comp_apply, hchild]
    rfl

/-- The positions of a slice are those of the elements that it leads to. -/
theorem sliceKeys_eq (slice : Slice) (hkind : t.kind = .sequence) :
    (slice.indices t.size).map ChildKey.index = (picked config (.slice slice) t).map Prod.fst := by
  rw [picked, if_pos hkind]
  exact (filterMap_entryAt? hkind fun i hi => Slice.lt_of_mem_indices hi).symm

theorem picked_leaf {s : Segment} (hleaf : t.kind = .leaf) : picked config s t = [] := by
  apply List.eq_nil_iff_forall_not_mem.mpr
  intro e he
  have hchild : e ∈ t.children := mem_children_of_picked he
  cases t with
  | null | bool | num | str => exact List.not_mem_nil hchild
  | arr | obj => cases hleaf

theorem picked_vacant {s : Segment} (h : isVacant t = true) : picked config s t = [] := by
  apply picked_leaf
  cases t with
  | null => rfl
  | bool | num | str | arr | obj => cases h

theorem writeEach_nil (done rest : Path) (depth : Nat) :
    (writeEach config patch done rest depth [] : Write Json Nat) = Pure.pure 0 := by
  cases rest with
  | nil =>
    have horder : writeOrder patch.isRemoval [] = [] := by
      simp [writeOrder, ChildKey.sort, ChildKey.dedup]
    rw [writeEach, horder, Write.sum]
  | cons after more =>
    rw [writeEach, Write.sum]
    simp

/-- The values at which a write refuses to go on at several children. -/
def Segment.refusesAt (s : Segment) (t : Json) : Prop :=
  match s with
  | .slice _ => t.kind ≠ .sequence ∧ t ≠ .null
  | .tag .children => t.kind = .leaf ∧ t ≠ .null
  | _ => False

/-- The scalars at which a write goes on, because they match a predicate themselves. -/
def Segment.staysAt (config : Config) (s : Segment) (t : Json) : Prop :=
  match s with
  | .predicate query => t.kind = .leaf ∧ t ≠ .null ∧ (meets config query t).value = true
  | _ => False

theorem not_staysAt {s : Segment}
    (havoid : ∀ query, s = .predicate query → t.kind = .leaf → t = .null) :
    ¬s.staysAt config t := by
  intro hstays
  cases s with
  | predicate query => exact hstays.2.1 (havoid query rfl hstays.1)
  | key | index | slice | tag | union | tuple => exact hstays

/-- What holds of a refusal, of a write that stays at a scalar, and of a write that goes on at the
children that are picked, holds of the write. -/
theorem writeOn_spreads (done : Path) {s : Segment} (hs : s.selectsChildren = true)
    (hconcrete : s.isConcrete = false) (rest : Path) (depth : Nat) (ht : t.WellFormed)
    {post : Except PathError Nat → Json → Prop}
    (hrefused : s.refusesAt t → ∀ e, post (.error e) t)
    (hself : s.staysAt config t →
      (writeAt config patch (done.append s) rest depth : Write Json Nat).Leaves t post)
    (heach : ¬s.refusesAt t → ¬s.staysAt config t →
      (writeEach config patch (done.append s) rest depth
        ((picked config s t).map Prod.fst) : Write Json Nat).Leaves t post) :
    (writeOn config patch done (s :: rest) depth : Write Json Nat).Leaves t post := by
  have hnothing : ¬s.refusesAt t → ¬s.staysAt config t → picked config s t = [] →
      post (.ok 0) t := by
    intro haccepted hgone hpicked
    have hnone := heach haccepted hgone
    rw [hpicked, List.map_nil, writeEach_nil] at hnone
    exact hnone
  have hpresent : isVacant t ≠ true → t ≠ .null := fun hvacant hnull =>
    hvacant (congrArg isNull hnull)
  have hvacant : isVacant t = true → t = .null := by
    intro hvacant
    cases t with
    | null => rfl
    | bool | num | str | arr | obj => cases hvacant
  rcases s.eq_of_selectsChildren hs with h | ⟨slice, rfl⟩ | ⟨query, rfl⟩ | rfl
  · rw [hconcrete] at h
    cases h
  · rw [writeOn]
    apply Write.Leaves.view_bind
    split
    · next hkind =>
      have hslice := heach (fun hrefuses => hrefuses.1 hkind) id
      rw [← sliceKeys_eq config slice hkind] at hslice
      exact .view_bind hslice
    · next hkind =>
      apply Write.Leaves.view_bind
      split
      · next hnull =>
        exact .pure (hnothing (fun hrefuses => hrefuses.2 (hvacant hnull)) id (if_neg hkind))
      · next hnull =>
        have herror := hrefused ⟨hkind, hpresent hnull⟩
        apply Write.Leaves.view_bind
        split <;> exact .fail (herror _)
  · rw [writeOn]
    apply Write.Leaves.view_bind
    split
    · next hnull =>
      have hgone : ¬(Segment.predicate query).staysAt config t := fun hstays =>
        hstays.2.1 (hvacant hnull)
      exact .pure (hnothing id hgone (picked_vacant config hnull))
    · next hnull =>
      apply Write.Leaves.view_bind
      split
      · next hleaf =>
        apply Write.Leaves.walk_bind
        split
        · next hmeets => exact hself ⟨hleaf, hpresent hnull, hmeets⟩
        · next hmeets =>
          exact .pure (hnothing id (fun hstays => hmeets hstays.2.2) (picked_leaf config hleaf))
      · next hleaf =>
        apply Write.Leaves.walk_bind
        rw [matchingKeys_eq config query ht]
        exact heach id fun hstays => hleaf hstays.1
  · rw [writeOn]
    apply Write.Leaves.view_bind
    split
    · next hnull =>
      have haccepted : ¬(Segment.tag .children).refusesAt t := fun hrefuses =>
        hrefuses.2 (hvacant hnull)
      exact .pure (hnothing haccepted id (picked_vacant config hnull))
    · next hnull =>
      apply Write.Leaves.view_bind
      split
      · next hleaf => exact .fail (hrefused ⟨hleaf, hpresent hnull⟩ _)
      · next hleaf => exact .view_bind (heach (fun hrefuses => hleaf hrefuses.1) id)

/-- The step at one of several children. -/
def writeInto (config : Config) (patch : Patch) (done rest : Path) (depth : Nat) (key : ChildKey) :
    Write Json Nat :=
  match rest with
  | [] => finish config patch (some key) depth
  | after :: more => inChild key (writeAt config patch done (after :: more) (depth + 1))

/-- Unless something is removed, the steps are taken in the order of the keys. -/
theorem writeEach_eq (hremoval : patch.isRemoval = false) (done rest : Path) (depth : Nat)
    (keys : List ChildKey) :
    writeEach config patch done rest depth keys =
      Write.sum (writeInto config patch done rest depth) keys := by
  cases rest with
  | nil =>
    rw [writeEach, writeOrder, hremoval]
    rfl
  | cons after more =>
    rw [writeEach]
    · rfl
    · simp

end TreePath

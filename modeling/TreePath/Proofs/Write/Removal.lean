import Mathlib
import TreePath.Proofs.Write.Addressing
import TreePath.Proofs.Write.Deletion
import TreePath.Proofs.Write.Spreading

namespace TreePath

open TreeUpdate Json

/-- No predicate on the path is asked of a scalar, as far as the path leads. -/
def PredicatesAvoidScalars (config : Config) : Path → Json → Prop
  | [], _ => True
  | s :: rest, t =>
    (∀ query, s = .predicate query → t.kind = .leaf → t = .null) ∧
      ∀ e ∈ picked config s t, PredicatesAvoidScalars config rest e.2

/-- Exactly the given locations of `t` have been deleted, and counted. -/
def Deleted (places : List Location) (t : Json) (n : Nat) (u : Json) : Prop :=
  n = places.length ∧ u = t.without fun l => decide (l ∈ places)

section Entering

variable (config : Config) (done : Path) {s : Segment} {t : Json}

/-- A child that is listed is found with its key. -/
theorem entryAt?_of_mem (ht : t.WellFormed) {e : ChildKey × Json} (he : e ∈ t.children) :
    t.entryAt? e.1 = some e := by
  rw [Json.entryAt?, Json.child?_of_mem ht he, Option.map_some]

theorem identifiedKey_removal (name : String) (ht : t.WellFormed) (hkind : t.kind = .sequence) :
    (identifiedKey config name true : Write Json (Option ChildKey)).Ensures t fun key u =>
      u = t ∧ picked config (.key name) t = (key.bind t.entryAt?).toList := by
  have hfield : t.entryAt? (.name name) = none := by
    cases t with
    | arr items => rfl
    | null | bool | num | str | obj => cases hkind
  unfold identifiedKey
  apply Write.Ensures.view_bind
  rw [if_pos (Bool.or_true _), identified?_eq _ _ ht]
  refine .pure ⟨rfl, ?_⟩
  simp only [picked, hfield, if_pos hkind]
  cases hfind : t.children.find? fun e => hasIdentity config.idField name e.2 with
  | none => rfl
  | some e =>
    have he := entryAt?_of_mem ht (List.mem_of_find?_eq_some hfind)
    rw [Option.map_some, Option.bind_some, he]

theorem positionKey_removal (i : Int64) (hkind : t.kind = .sequence) :
    (positionKey config done i true : Write Json (Option ChildKey)).Ensures t fun key u =>
      u = t ∧ picked config (.index i) t = (key.bind t.entryAt?).toList := by
  have hsize : childCount t = t.size := rfl
  unfold positionKey
  apply Write.Ensures.view_bind
  simp only [picked, if_pos hkind, hsize]
  cases place? i t.size with
  | none => exact .pure ⟨rfl, rfl⟩
  | some k => exact .pure ⟨rfl, rfl⟩

theorem childKey_removal (hs : s.isConcrete = true) (ht : t.WellFormed) :
    (childKey config done s true : Write Json (Option ChildKey)).Ensures t fun key u =>
      u = t ∧ picked config s t = (key.bind t.entryAt?).toList := by
  have hkind : TreeUpdate.kind t = t.kind := rfl
  unfold childKey
  apply Write.Ensures.view_bind
  rw [hkind]
  rcases s.eq_of_isConcrete hs with ⟨name, rfl⟩ | ⟨i, rfl⟩
  · by_cases hsequence : t.kind = .sequence
    · rw [beq_iff_eq.mpr hsequence]
      exact identifiedKey_removal config name ht hsequence
    · rw [beq_eq_false_iff_ne.mpr hsequence]
      refine .pure ⟨rfl, ?_⟩
      simp only [picked, if_neg hsequence, Option.bind_some]
      cases t.entryAt? (.name name) <;> rfl
  · by_cases hsequence : t.kind = .sequence
    · rw [beq_iff_eq.mpr hsequence]
      exact positionKey_removal config done i hsequence
    · rw [beq_eq_false_iff_ne.mpr hsequence]
      refine .pure ⟨rfl, ?_⟩
      simp only [picked, if_neg hsequence, Option.bind_some]

/-- Where there is something, no container is made. -/
theorem ensureContainer_present (container : NodeKind) (hnull : ¬t.isNull = true) :
    (Write.step (TreeUpdate.ensureContainer container) : Write Json Bool) t =
      ⟨.ok t.kind.isContainer, t, 0⟩ := by
  cases t with
  | null => exact absurd rfl hnull
  | bool | num | str | arr | obj => rfl

/-- A name or a position is entered as the key of the child that it leads to, if it leads to one;
a removal makes nothing on the way. -/
theorem enter_removal (hs : s.isConcrete = true) (ht : t.WellFormed) :
    (enter config done s true : Write Json (Option ChildKey)).Ensures t fun key u =>
      u = t ∧ picked config s t = (key.bind t.entryAt?).toList := by
  unfold enter
  apply Write.Ensures.view_bind
  split
  · next hvacant =>
    have hnull : t.isNull = true := hvacant
    cases t with
    | null => exact .pure ⟨rfl, picked_null⟩
    | bool | num | str | arr | obj => cases hnull
  · next hvacant =>
    have hcontainer := ensureContainer_present s.container hvacant
    refine .bind (fun _ u => u = t) (.of_eq hcontainer rfl) ?_
    rintro container _ rfl
    split
    · exact childKey_removal config done hs ht
    · exact .view_bind (.fail _)

end Entering

section Stepping

variable (config : Config) {patch : Patch} (done rest : Path) (depth : Nat) {s : Segment} {t : Json}

/-- The children that a segment picks are removed, or else the removal goes on inside of them. -/
theorem writeEach_deleted (hvalue : patch.value = none) (ht : t.WellFormed)
    (hinside : ∀ e ∈ picked config s t, rest ≠ [] →
      (writeAt config patch done rest (depth + 1) : Write Json Nat).Ensures e.2
        (Deleted (addressed config rest e.2) e.2)) :
    (writeEach config patch done rest depth ((picked config s t).map Prod.fst) :
      Write Json Nat).Ensures t (Deleted (addressed config (s :: rest) t) t) := by
  have hmem : ∀ e ∈ picked config s t, e ∈ t.children := fun _ he => mem_children_of_picked he
  have hkeys : ((picked config s t).map Prod.fst).Nodup := picked_nodup ht
  cases rest with
  | nil =>
    have hrun := writeEach_removal config hvalue done depth hkeys ht fun k hk => by
      obtain ⟨e, he, rfl⟩ := List.mem_map.mp hk
      exact ⟨e.2, hmem e he⟩
    refine .of_eq hrun ⟨?_, ?_⟩
    · simp only [addressed_single, List.length_map]
    · rw [addressed_single, dropChildren_eq_without]
  | cons after more =>
    have hsum := sum_inChild (fun v => (addressed config (after :: more) v).length)
      (fun v => v.without fun l => decide (l ∈ addressed config (after :: more) v)) ht hmem hkeys
      (fun e he => wellFormed_without _ e.2 (wellFormed_of_mem_children ht (hmem e he)))
      fun e he => hinside e he (List.cons_ne_nil _ _)
    rw [writeEach]
    · refine hsum.imp ?_
      rintro n u ⟨rfl, rfl⟩
      refine ⟨?_, (without_addressed ht).symm⟩
      simp [addressed, List.length_flatMap]
    · simp

theorem sum_singleton {τ α : Type} (f : α → Write τ Nat) (a : α) : Write.sum f [a] = f a := by
  funext t
  change (f a >>= fun n => pure 0 >>= fun m => pure (n + m) : Write τ Nat) t = _
  rw [Write.bind_apply]
  rcases f a t with ⟨result | n, u, trips⟩ <;> rfl

theorem writeOrder_singleton (removal : Bool) (key : ChildKey) :
    writeOrder removal [key] = [key] := by
  cases removal <;> simp [writeOrder, ChildKey.sort, ChildKey.dedup]

/-- Below a child that is there, a removal goes on as below several of them. -/
theorem writeBelow_present {key : ChildKey} {v : Json}
    (hv : t.child? key = some v) (hpresent : rest = [] ∨ v ≠ .null) :
    (writeBelow config patch done s rest depth key : Write Json Nat) t =
      (writeEach config patch (done.append s) rest depth [key] : Write Json Nat) t := by
  cases rest with
  | nil => rw [writeBelow, writeEach, writeOrder_singleton, sum_singleton]
  | cons after more =>
    have hnull : v.isNull = false := by
      cases v with
      | null => simp at hpresent
      | bool | num | str | arr | obj => rfl
    have hkind : childKind? t key = some v.kind := by
      change ((t.child? key).bind present?).map Json.kind = some v.kind
      rw [hv, Option.bind_some, present?, hnull]
      rfl
    have hreach : (reach key after.container : Write Json Bool) t = ⟨.ok true, t, 0⟩ := by
      unfold reach
      rw [Write.view_bind_apply, hkind]
      rfl
    rw [writeBelow, writeEach, sum_singleton]
    · rw [Write.view_bind_apply, hkind, if_neg (by simp)]
      exact Write.bind_ok hreach _
    · simp

/-- A child that is missing is not removed, and nothing is below it. -/
theorem writeBelow_missing (hvalue : patch.value = none) {key : ChildKey}
    (hmissing : t.child? key = none ∨ rest ≠ [] ∧ t.child? key = some .null) :
    (writeBelow config patch done s rest depth key : Write Json Nat) t = ⟨.ok 0, t, 0⟩ := by
  have hremoval := Patch.isRemoval_of_none hvalue
  cases rest with
  | nil =>
    have hnone : t.child? key = none := by simpa using hmissing
    rw [writeBelow, finish_removal config hvalue]
    change (⟨.ok (t.patchedChild key patch).1, (t.patchedChild key patch).2, 0⟩ :
      Outcome Json Nat) = _
    rw [patchedChild_missing hvalue hnone]
  | cons after more =>
    have hkind : childKind? t key = none := by
      change ((t.child? key).bind present?).map Json.kind = none
      rcases hmissing with hnone | ⟨-, hnull⟩
      · rw [hnone]
        rfl
      · rw [hnull]
        rfl
    rw [writeBelow, Write.view_bind_apply, hkind, hremoval]
    rfl

/-- Where nothing is addressed, nothing is deleted. -/
theorem deleted_nothing {places : List Location} (h : places = []) : Deleted places t 0 t := by
  subst h
  exact ⟨rfl, (without_nothing _ t fun key l => by simp).symm⟩

/-- Where no child is picked, nothing is deleted. -/
theorem deleted_unpicked (h : picked config s t = []) :
    Deleted (addressed config (s :: rest) t) t 0 t :=
  deleted_nothing (by rw [addressed, h]; rfl)

/-- A removal goes on below the child that a name or a position has been entered as. -/
theorem writeBelow_deleted (hvalue : patch.value = none) (ht : t.WellFormed) {key : ChildKey}
    (hpicked : picked config s t = (t.entryAt? key).toList)
    (hinside : ∀ e ∈ picked config s t, rest ≠ [] →
      (writeAt config patch (done.append s) rest (depth + 1) : Write Json Nat).Ensures e.2
        (Deleted (addressed config rest e.2) e.2)) :
    (writeBelow config patch done s rest depth key : Write Json Nat).Ensures t
      (Deleted (addressed config (s :: rest) t) t) := by
  cases hv : t.child? key with
  | none =>
    have hnothing : picked config s t = [] := by
      rw [hpicked, Json.entryAt?, hv]
      rfl
    exact .of_eq (writeBelow_missing config done rest depth hvalue (.inl hv))
      (deleted_unpicked config rest hnothing)
  | some v =>
    have hone : picked config s t = [(key, v)] := by
      rw [hpicked, Json.entryAt?, hv]
      rfl
    by_cases hpresent : rest = [] ∨ v ≠ .null
    · have heach := writeEach_deleted config (done.append s) rest depth hvalue ht hinside
      rw [hone] at heach
      intro n hn
      rw [writeBelow_present config done rest depth hv hpresent] at hn ⊢
      exact heach n hn
    · obtain ⟨hrest, hnull⟩ : rest ≠ [] ∧ v = .null := by simpa using hpresent
      subst hnull
      obtain ⟨after, more, rfl⟩ := List.exists_cons_of_ne_nil hrest
      have hnothing : addressed config (s :: after :: more) t = [] := by
        rw [addressed, hone, List.flatMap_singleton, addressed_null]
        rfl
      exact .of_eq (writeBelow_missing config done _ depth hvalue (.inr ⟨hrest, hv⟩))
        (deleted_nothing hnothing)

end Stepping

section Paths

variable (config : Config) {patch : Patch} {t : Json}

section Segments

variable (done rest : Path) (depth : Nat)

theorem writeOn_concrete_deleted (hvalue : patch.value = none) {s : Segment}
    (hs : s.isConcrete = true) (ht : t.WellFormed)
    (hinside : ∀ e ∈ picked config s t, rest ≠ [] →
      (writeAt config patch (done.append s) rest (depth + 1) : Write Json Nat).Ensures e.2
        (Deleted (addressed config rest e.2) e.2)) :
    (writeOn config patch done (s :: rest) depth : Write Json Nat).Ensures t
      (Deleted (addressed config (s :: rest) t) t) := by
  rw [writeOn_concrete config patch done hs, Patch.isRemoval_of_none hvalue]
  refine .bind _ (enter_removal config done hs ht) ?_
  rintro key _ ⟨rfl, hpicked⟩
  cases key with
  | some key => exact writeBelow_deleted config done rest depth hvalue ht hpicked hinside
  | none => exact .pure (deleted_unpicked config rest hpicked)

theorem writeOn_spreads_deleted {s : Segment} (hs : s.selectsChildren = true)
    (hconcrete : s.isConcrete = false) (ht : t.WellFormed)
    (havoid : ∀ query, s = .predicate query → t.kind = .leaf → t = .null)
    (heach : (writeEach config patch (done.append s) rest depth
      ((picked config s t).map Prod.fst) : Write Json Nat).Ensures t
        (Deleted (addressed config (s :: rest) t) t)) :
    (writeOn config patch done (s :: rest) depth : Write Json Nat).Ensures t
      (Deleted (addressed config (s :: rest) t) t) := by
  apply Write.Ensures.of_leaves
  apply writeOn_spreads config done hs hconcrete rest depth ht
  · intro _ e n hn
    cases hn
  · exact fun hstays => absurd hstays (not_staysAt config havoid)
  · exact fun _ _ => heach

end Segments

/-- What a removal does at the first segment of a path, if it does so at the rest. -/
theorem writeOn_deleted (hvalue : patch.value = none) (done : Path) {s : Segment}
    (hs : s.selectsChildren = true) (rest : Path) (depth : Nat) (ht : t.WellFormed)
    (havoid : ∀ query, s = .predicate query → t.kind = .leaf → t = .null)
    (hinside : ∀ e ∈ picked config s t, rest ≠ [] →
      (writeAt config patch (done.append s) rest (depth + 1) : Write Json Nat).Ensures e.2
        (Deleted (addressed config rest e.2) e.2)) :
    (writeOn config patch done (s :: rest) depth : Write Json Nat).Ensures t
      (Deleted (addressed config (s :: rest) t) t) := by
  cases hconcrete : s.isConcrete with
  | true => exact writeOn_concrete_deleted config done rest depth hvalue hconcrete ht hinside
  | false =>
    have heach := writeEach_deleted config (done.append s) rest depth hvalue ht hinside
    exact writeOn_spreads_deleted config done rest depth hs hconcrete ht havoid heach

/-- A removal deletes what the path addresses from where it stands, if it succeeds. -/
theorem writeAt_deleted (hvalue : patch.value = none) {p : Path} (hp : p.SelectsChildren)
    (hne : p ≠ []) (done : Path) {depth : Nat} (hdepth : depth + p.length ≤ config.maxDepth + 1)
    (ht : t.WellFormed) (havoid : PredicatesAvoidScalars config p t) :
    (writeAt config patch done p depth : Write Json Nat).Ensures t
      (Deleted (addressed config p t) t) := by
  induction p generalizing done depth t with
  | nil => exact absurd rfl hne
  | cons s rest ih =>
    rw [List.length_cons] at hdepth
    rw [writeAt, if_neg (by omega)]
    refine writeOn_deleted config hvalue done hp.head rest depth ht havoid.1 fun e he hrest => ?_
    have hchild := wellFormed_of_mem_children ht (mem_children_of_picked he)
    exact ih hp.tail hrest (done.append s) (by omega) hchild (havoid.2 e he)

end Paths

section Resolving

/-- Removal deletes exactly what the path addresses. When a removal along names, positions, slices,
predicates and children succeeds, its count is the number of locations that a read would have been
led to before, and these are what is missing afterwards. -/
theorem remove_addressed {t : Json} (ht : t.WellFormed) {p : Path} (hp : p.SelectsChildren)
    (hne : p ≠ []) (r : Resolver) (hdepth : p.length ≤ r.config.maxDepth)
    (havoid : PredicatesAvoidScalars r.config p t) {n : Nat} {t' : Json} {r' : Resolver}
    (hremove : Resolver.remove t (.path p) r = ((.ok n, t'), r')) :
    let places := addressed r.config p t
    places.Nodup ∧ (∀ l ∈ places, ∃ v, t.locate? l = some v) ∧ n = places.length ∧
      t' = t.without fun l => decide (l ∈ places) := by
  have hrun := hp.writePath_eq t .remove r
  change (Resolver.remove t (.path p) r).1 = _ at hrun
  rw [hremove] at hrun
  obtain ⟨hok, rfl⟩ := Prod.mk.inj hrun
  have hlength : 0 + p.length ≤ r.config.maxDepth + 1 := by omega
  have hdeleted := writeAt_deleted r.config rfl hp hne [] hlength ht havoid n hok.symm
  intro places
  exact ⟨addressed_nodup p ht, fun l hl => locate?_of_mem_addressed ht hl, hdeleted⟩

theorem remove_addressed_nested :
    let a : Json := .obj [("x", .obj [("ok", .bool true)]), ("y", .obj [("ok", .bool false)])]
    let b : Json := .obj [("z", .obj [("ok", .bool true)])]
    let t : Json := .obj [("rows", .arr [a, .null, b])]
    let p : Path := [.key "rows", .slice ⟨none, none, some (-2)⟩,
      .predicate [([.key "ok"], .value (.bool true))]]
    let r : Resolver := .new .default
    ∃ t' r', Resolver.remove t (.path p) r = ((.ok 2, t'), r') ∧
      let places := addressed r.config p t
      places.Nodup ∧ (∀ l ∈ places, ∃ v, t.locate? l = some v) ∧ 2 = places.length ∧
        t' = t.without fun l => decide (l ∈ places) := by
  intro a b t p r
  have hflag : ∀ flag, (Json.obj [("ok", .bool flag)]).WellFormed := fun flag =>
    ⟨Fields.ascending_single _ _, trivial, trivial⟩
  have ha : a.WellFormed :=
    ⟨Fields.ascending_pair (by decide) _ _, hflag true, hflag false, trivial⟩
  have hb : b.WellFormed := ⟨Fields.ascending_single _ _, hflag true, trivial⟩
  have ht : t.WellFormed := ⟨Fields.ascending_single _ _, ⟨ha, trivial, hb, trivial⟩, trivial⟩
  have hp : p.SelectsChildren := by decide
  have havoid : PredicatesAvoidScalars r.config p t := by
    have hrows : picked r.config (.key "rows") t = [(.name "rows", .arr [a, .null, b])] := by cbv
    have hslice : picked r.config (.slice ⟨none, none, some (-2)⟩) (.arr [a, .null, b]) =
        [(.index 2, b), (.index 0, a)] := by cbv
    refine ⟨by simp, fun e he => ?_⟩
    rw [hrows, List.mem_singleton] at he
    subst he
    refine ⟨by simp, fun e he => ?_⟩
    simp only [hslice, List.mem_cons, List.not_mem_nil, or_false] at he
    refine ⟨fun query _ hleaf => ?_, fun _ _ => trivial⟩
    rcases he with rfl | rfl <;> cases hleaf
  have hok : (Resolver.remove t (.path p) r).1.1 = .ok 2 := by
    cbv
    simp only [writeEach]
    cbv
  have hrun := Resolver.run_eq hok
  exact ⟨_, _, hrun, remove_addressed ht hp (List.cons_ne_nil _ _) r (by decide) havoid hrun⟩

end Resolving

end TreePath

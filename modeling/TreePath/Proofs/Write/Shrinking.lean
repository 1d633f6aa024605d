import Mathlib
import TreePath.Proofs.Tree.Pruned
import TreePath.Proofs.Write.Failure

namespace TreePath

open TreeUpdate Json

/-- What a removal leaves of `t`: at most what was there, and less of it by what has been counted.
Without a count nothing has changed. -/
structure Taken (t : Json) (result : Except PathError Nat) (u : Json) : Prop where
  pruned : t.Pruned u
  counted : ∀ n, result = .ok n → u.bulk + n ≤ t.bulk ∧ (n = 0 → u = t)

/-- The write takes away, whatever it is carried out on. -/
def Takes (x : Write Json Nat) : Prop := ∀ t, t.WellFormed → x.Leaves t (Taken t)

section Steps

variable {t u w c d : Json} {result : Except PathError Nat} {n : Nat} {key : ChildKey}

theorem Taken.nothing (t : Json) : Taken t (.ok 0) t where
  pruned := .refl t
  counted n hn := by
    obtain rfl := Except.ok.inj hn
    exact ⟨Nat.le_refl _, fun _ => rfl⟩

theorem Taken.refused (t : Json) (e : PathError) : Taken t (.error e) t where
  pruned := .refl t
  counted n hn := by cases hn

theorem Taken.add (h : Taken t (.ok n) u) (h' : Taken u result w) :
    Taken t (result.map (n + ·)) w where
  pruned := h.pruned.trans h'.pruned
  counted k hk := by
    obtain ⟨m, hm, rfl⟩ : ∃ m, result = .ok m ∧ n + m = k := by
      cases result with
      | error e => cases hk
      | ok m => exact ⟨m, rfl, Except.ok.inj hk⟩
    obtain ⟨hless, hsame⟩ := h.counted n rfl
    obtain ⟨hless', hsame'⟩ := h'.counted m hm
    refine ⟨by omega, fun hzero => ?_⟩
    have hn : n = 0 := by omega
    have hm : m = 0 := by omega
    exact (hsame' hm).trans (hsame hn)

/-- What is taken from a child is taken from its container. -/
theorem Taken.inside (ht : t.WellFormed) (hc : t.child? key = some c) (h : Taken c result d) :
    Taken t result (t.putChild key d) where
  pruned := .putChild ht hc h.pruned
  counted n hn := by
    obtain ⟨hless, hsame⟩ := h.counted n hn
    have hbulk := bulk_putChild ht hc d
    refine ⟨by omega, fun hzero => ?_⟩
    rw [hsame hzero]
    exact putChild_child? ht hc

theorem Takes.add {x y : Write Json Nat} (hx : Takes x) (hy : Takes y) :
    Takes (do
      let n ← x
      let m ← y
      return n + m) := by
  intro t ht
  refine Write.Leaves.add (P := fun t r u => t.WellFormed → Taken t r u) ?_ ?_ ?_ ht
  · exact fun h h' ht => (h ht).add (h' ((h ht).pruned.wellFormed ht))
  · exact fun ht => hx t ht
  · exact fun u hu => hy u hu

theorem Takes.sum {α : Type} {f : α → Write Json Nat} {items : List α}
    (hf : ∀ a ∈ items, Takes (f a)) : Takes (Write.sum f items) := by
  intro t ht
  suffices hall : (Write.sum f items).Leaves t fun r u => t.WellFormed → Taken t r u from hall ht
  refine .sum (P := fun t r u => t.WellFormed → Taken t r u) ?_ ?_ ?_
  · exact fun h h' ht => (h ht).add (h' ((h ht).pruned.wellFormed ht))
  · exact fun t _ => .nothing t
  · exact fun a ha u hu => hf a ha u hu

theorem Takes.inChild {x : Write Json Nat} (hx : Takes x) (key : ChildKey) :
    Takes (inChild key x) := by
  intro t ht
  apply Write.Leaves.inChild
  · exact fun _ => .nothing t
  · intro c hc
    exact (hx c (wellFormed_child? ht hc)).imp fun result d h => h.inside ht hc

end Steps

section Ends

variable (config : Config) {patch : Patch}

/-- To remove a child takes it away; to remove the value itself leaves null. -/
theorem apply_takes (hvalue : patch.value = none) (key : Option ChildKey) :
    Takes (apply key patch) := by
  have hresolve := Patch.resolve_of_none hvalue
  intro t ht
  cases key with
  | none =>
    change Taken t (.ok (t.patched patch).1) (t.patched patch).2
    rw [Json.patched, hresolve]
    refine ⟨.null t, fun n hn => ?_⟩
    obtain rfl := Except.ok.inj hn
    cases hnull : t.isNull with
    | true =>
      cases t with
      | null => exact ⟨Nat.le_refl _, fun _ => rfl⟩
      | bool | num | str | arr | obj => cases hnull
    | false => exact ⟨by simpa [bulk] using one_le_bulk hnull, by simp⟩
  | some key =>
    change Taken t (.ok (t.patchedChild key patch).1) (t.patchedChild key patch).2
    cases hc : t.child? key with
    | none =>
      rw [patchedChild_missing hvalue hc]
      exact .nothing t
    | some c =>
      cases t with
      | obj fields =>
        rw [child?_obj] at hc
        rw [patchedChild_obj, hresolve, hc]
        refine ⟨.obj (.erase fields key.asName), fun n hn => ?_⟩
        obtain rfl : 1 = n := Except.ok.inj hn
        have hless := bulkFields_erase hc
        simp only [bulk]
        omega
      | arr items =>
        cases key with
        | name n => cases hc
        | index i =>
          have hget : items[i]? = some c := hc
          obtain ⟨hi, -⟩ := List.getElem?_eq_some_iff.mp hget
          have hrun : (Json.arr items).patchedChild (.index i) patch =
              (1, .arr (items.eraseIdx i)) := by
            simp only [Json.patchedChild, hget, hresolve]
          rw [hrun]
          refine ⟨.arr (.eraseIdx items i), fun n hn => ?_⟩
          obtain rfl : 1 = n := Except.ok.inj hn
          have hless := bulkItems_eraseIdx hi
          simp only [bulk]
          omega
      | null | bool | num | str => cases key <;> cases hc

theorem finish_takes (hvalue : patch.value = none) (key : Option ChildKey) (depth : Nat) :
    Takes (finish config patch key depth) := by
  rw [finish_removal config hvalue]
  exact apply_takes hvalue key

theorem writeLeaves_takes (hvalue : patch.value = none) (last : Bool) (left depth : Nat) :
    Takes (writeLeaves config patch last left depth) := by
  induction left generalizing depth with
  | zero => exact fun t _ => .nothing t
  | succ left ih =>
    intro t ht
    unfold writeLeaves
    apply Write.Leaves.view_bind
    split
    · exact .pure (.nothing t)
    · apply Write.Leaves.view_bind
      split
      · split
        · exact apply_takes hvalue none t ht
        · exact .pure (.nothing t)
      · apply Write.Leaves.view_bind
        apply Takes.sum _ t ht
        intro key _ u hu
        apply Write.Leaves.view_bind
        split
        · exact Takes.inChild (ih (depth + 1)) key u hu
        · split
          · exact finish_takes config hvalue (some key) depth u hu
          · exact .pure (.nothing u)

end Ends

section Paths

variable (config : Config) {patch : Patch}

/-- A removal makes nothing where it enters a name or a position, and nothing where it cannot. -/
theorem enter_removal_leaves (done : Path) {s : Segment} (hs : s.isConcrete = true) {t : Json}
    (ht : t.WellFormed) :
    (enter config done s true : Write Json (Option ChildKey)).Leaves t fun _ u => u = t := by
  have hok := enter_removal config done hs ht
  have herror := enter_removal_refuses config done hs t
  unfold Write.Leaves
  cases hresult : ((enter config done s true : Write Json (Option ChildKey)) t).result with
  | ok key => exact (hok key hresult).1
  | error e => exact (herror e hresult).2

/-- A child that is there is reached as it is. -/
theorem reach_present {key : ChildKey} (container : NodeKind) {t : Json}
    (hfound : (childKind? t key).isSome = true) :
    (reach key container : Write Json Bool).Leaves t fun r u => r = .ok true ∧ u = t := by
  unfold reach
  apply Write.Leaves.view_bind
  rw [if_pos hfound]
  exact .pure ⟨rfl, rfl⟩

mutual

theorem writeAt_takes (hvalue : patch.value = none) (done path : Path) (depth : Nat) :
    Takes (writeAt config patch done path depth) := by
  rw [writeAt]
  split
  · exact fun t _ => .nothing t
  · exact writeOn_takes hvalue done path depth
termination_by (pathWeight path, 1)

/-- One case for each kind of segment at the head of the path. -/
theorem writeOn_takes (hvalue : patch.value = none) (done path : Path) (depth : Nat) :
    Takes (writeOn config patch done path depth) := by
  intro t ht
  match path with
  | [] =>
    rw [writeOn]
    exact finish_takes config hvalue none depth t ht
  | .key _ :: rest | .index _ :: rest =>
    rw [writeOn_concrete config patch done rfl, Patch.isRemoval_of_none hvalue]
    exact writeBelow_takes hvalue done rfl rest depth t ht
  | .slice s :: rest =>
    apply writeOn_spreads config done rfl rfl rest depth ht (fun _ => .refused t)
    · exact False.elim
    · exact fun _ _ => writeEach_takes hvalue _ rest depth _ t ht
  | .predicate query :: rest =>
    apply writeOn_spreads config done rfl rfl rest depth ht (fun _ => .refused t)
    · exact fun _ => writeAt_takes hvalue _ rest depth t ht
    · exact fun _ _ => writeEach_takes hvalue _ rest depth _ t ht
  | .tag tag :: rest =>
    cases tag using Tag.writable_cases with
    | children =>
      apply writeOn_spreads config done rfl rfl rest depth ht (fun _ => .refused t)
      · exact False.elim
      · exact fun _ _ => writeEach_takes hvalue _ rest depth _ t ht
    | current =>
      rw [writeOn]
      exact writeAt_takes hvalue _ rest depth t ht
    | descendants =>
      rw [writeOn]
      exact writeLeaves_takes config hvalue _ _ depth t ht
    | unwritable tag htag =>
      rw [writeOn_unwritable config patch done htag]
      exact .fail (.refused t _)
  | .union alternatives _ :: rest =>
    rw [writeOn]
    exact writeAlternately_takes hvalue alternatives rest (depth + 1) t ht
  | .tuple members :: rest =>
    rw [writeOn]
    exact writeAt_takes hvalue [] (members ++ rest) (depth + 1) t ht
termination_by (pathWeight path, 0)

/-- A name or a position is entered, and the removal goes on below it. -/
theorem writeBelow_takes (hvalue : patch.value = none) (done : Path) {s : Segment}
    (hs : s.isConcrete = true) (rest : Path) (depth : Nat) :
    Takes (do
      match ← enter config done s true with
      | some key => writeBelow config patch done s rest depth key
      | none => return 0) := by
  intro t ht
  refine .bind _ (enter_removal_leaves config done hs ht) ?_ ?_
  · intro key u hsame
    subst hsame
    cases key with
    | none => exact .pure (.nothing u)
    | some key =>
      match rest with
      | [] =>
        simp only
        rw [writeBelow]
        exact finish_takes config hvalue (some key) depth u ht
      | after :: more =>
        simp only
        rw [writeBelow, Patch.isRemoval_of_none hvalue]
        apply Write.Leaves.view_bind
        split
        · exact .pure (.nothing u)
        · next hthere =>
          have hfound : (childKind? u key).isSome = true := by
            simpa [Option.isSome_iff_ne_none] using hthere
          refine .bind _ (reach_present after.container hfound) ?_ ?_
          · intro found w hreach
            obtain ⟨hreached, rfl⟩ := hreach
            obtain rfl : found = true := Except.ok.inj hreached
            exact Takes.inChild (writeAt_takes hvalue (done.append s) (after :: more) (depth + 1))
              key w ht
          · rintro e _ ⟨herror, -⟩
            cases herror
  · rintro e _ rfl
    exact .refused _ e
termination_by (pathWeight rest, 2)

theorem writeEach_takes (hvalue : patch.value = none) (done rest : Path) (depth : Nat)
    (keys : List ChildKey) : Takes (writeEach config patch done rest depth keys) := by
  match rest with
  | [] =>
    rw [writeEach]
    exact .sum fun key _ => finish_takes config hvalue (some key) depth
  | after :: more =>
    rw [writeEach]
    · exact .sum fun key _ => .inChild (writeAt_takes hvalue done (after :: more) (depth + 1)) key
    · simp
termination_by (pathWeight rest, 2)

theorem writeAlternately_takes (hvalue : patch.value = none) (alternatives : List Path)
    (rest : Path) (depth : Nat) :
    Takes (writeAlternately config patch alternatives rest depth) := by
  match alternatives with
  | [] =>
    rw [writeAlternately]
    exact fun t _ => .nothing t
  | p :: more =>
    rw [writeAlternately]
    exact .add (writeAt_takes hvalue [] (p.absolute ++ rest) depth)
      (writeAlternately_takes hvalue more rest depth)
termination_by (pathsWeight alternatives + pathWeight rest, 0)
decreasing_by
  · have := pathWeight_absolute_le p
    exact Prod.Lex.left _ _ (by simp only [pathsWeight, pathWeight_append]; omega)
  · exact Prod.Lex.left _ _ (by simp only [pathsWeight]; omega)

end

end Paths

section Resolving

/-- Removals only delete. Wherever the path leads, and whether the removal succeeds or fails, what is
left is what was there with children deleted and parts replaced by null; and when the removal
succeeds, the tree is as it was just when nothing has been counted. -/
theorem writePath_removal {t : Json} (ht : t.WellFormed) (p : Path) {patch : Patch}
    (hremoval : patch.isRemoval = true) (r : Resolver) :
    let run := (Resolver.writePath t p patch r).1
    t.Pruned run.2 ∧ ∀ n, run.1 = .ok n → (run.2 = t ↔ n = 0) := by
  have hvalue : patch.value = none := by simpa [Patch.isRemoval] using hremoval
  have htaken : (write r.config p patch : Write Json Nat).Leaves t (Taken t) := by
    unfold write
    split
    · exact .fail (.refused t _)
    · exact writeAt_takes r.config hvalue [] p.target 0 t ht
  intro run
  refine ⟨htaken.pruned, fun n hn => ?_⟩
  obtain ⟨hless, hsame⟩ := htaken.counted n hn
  refine ⟨fun heq => ?_, hsame⟩
  have hbulk : run.2.bulk = t.bulk := congrArg bulk heq
  change run.2.bulk + n ≤ t.bulk at hless
  omega

theorem writePath_removal_union :
    let t : Json := .obj [("a", .arr [.bool true, .null, .obj [("x", .str "y")]]), ("b", .null)]
    let p : Path := [.union [[.key "a", .index 0], [.key "c", .index 1], [.tag .descendants]] true]
    let r : Resolver := .new .default
    let run := (Resolver.writePath t p .remove r).1
    t.WellFormed ∧ Patch.remove.isRemoval = true ∧ run.1 = .ok 4 ∧ t.Pruned run.2 ∧
      ∀ n, run.1 = .ok n → (run.2 = t ↔ n = 0) := by
  intro t p r run
  have hx : (Json.obj [("x", .str "y")]).WellFormed := ⟨Fields.ascending_single _ _, trivial, trivial⟩
  have ht : t.WellFormed :=
    ⟨Fields.ascending_pair (by decide) _ _, ⟨trivial, trivial, hx, trivial⟩, trivial, trivial⟩
  have hremoval : Patch.remove.isRemoval = true := rfl
  have hcount : run.1 = .ok 4 := by cbv
  exact ⟨ht, hremoval, hcount, writePath_removal ht p hremoval r⟩

end Resolving

end TreePath

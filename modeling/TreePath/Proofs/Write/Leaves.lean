import Mathlib
import TreePath.Proofs.Tree.Leaves
import TreePath.Proofs.Write.Pointwise

namespace TreePath

open TreeUpdate Json

section Descendants

variable (config : Config) {patch : Patch} {t v : Json} {key : ChildKey}

theorem descending_childKeys (ht : t.WellFormed) : Descending t.childKeys.reverse := by
  refine List.pairwise_reverse.mpr ?_
  cases t with
  | arr items =>
    have hkeys : (Json.arr items).childKeys = (items.zipIdx.map Prod.snd).map .index := by
      rw [Json.childKeys, children, List.map_map, List.map_map]
      rfl
    rw [hkeys, List.zipIdx_map_snd, List.pairwise_map]
    exact List.Pairwise.imp decide_eq_true List.pairwise_lt_range'
  | obj fields =>
    have hkeys : (Json.obj fields).childKeys = fields.map fun field => .name field.1 := by
      simp [Json.childKeys, children]
    rw [hkeys, List.pairwise_map]
    exact ht.1.imp fun hlt => decide_eq_true hlt
  | null | bool | num | str => exact .nil

theorem finish_leaf (ht : t.WellFormed) (hv : (key, v) ∈ t.children) (hleaf : v.kind = .leaf)
    (depth : Nat) : (finish config patch (some key) depth : Write Json Nat) t =
      ⟨.ok 1, t.alterChild key (patch.resolve (some v)), 0⟩ := by
  rw [← apply_child ht hv]
  unfold finish
  cases hvalue : patch.value with
  | none => rfl
  | some new =>
    have hother : kindAt? (some key) t ≠ some .mapping := by
      have hplace : t.at? (some key) = some v := child?_of_mem ht hv
      rw [kindAt?_eq, hplace]
      cases v with
      | arr | obj => cases hleaf
      | null | bool | num | str => simp [present?, isNull, Json.kind]
    have hpatch : patch = ⟨some new, patch.policy, patch.idempotent⟩ := by
      rw [← hvalue]
    simp only
    rw [settle_apply config _ _ new fun _ => hother, ← hpatch]

/-- A child is written into when it is a container, and a missing one as little as a leaf. -/
theorem any_isContainer (ht : t.WellFormed) (hv : (key, v) ∈ t.children) :
    (childKind? t key).any NodeKind.isContainer = true ↔ v.kind ≠ .leaf := by
  have hkind : childKind? t key = (present? v).map Json.kind := by
    change ((t.child? key).bind present?).map Json.kind = _
    rw [child?_of_mem ht hv]
    rfl
  rw [hkind]
  cases v <;> simp [present?, isNull, Json.kind, NodeKind.isContainer]

/-- The step at one child alters it: at a leaf the patch is carried out, and into a container the
write goes on below. -/
theorem writeLeaves_step (ht : t.WellFormed) (hv : (key, v) ∈ t.children) (depth : Nat)
    {below : Write Json Nat} (hbelow : v.kind ≠ .leaf → below v =
      ⟨.ok v.leaves.length, v.editChildren fun _ w => w.editLeaves fun x => patch.resolve (some x),
        0⟩) :
    (do
      let found ← Write.view fun t => childKind? t key
      if found.any NodeKind.isContainer then inChild key below
      else if true then finish config patch (some key) depth
      else return 0 : Write Json Nat) t =
    ⟨.ok v.leaves.length, t.alterChild key (v.editLeaves fun x => patch.resolve (some x)), 0⟩ := by
  rw [Write.view_bind_apply]
  by_cases hleaf : v.kind = .leaf
  · rw [if_neg (mt (any_isContainer ht hv).mp (not_not_intro hleaf)), if_pos rfl,
      finish_leaf config ht hv hleaf, leaves_leaf hleaf, editLeaves_leaf _ hleaf]
    rfl
  · rw [if_pos ((any_isContainer ht hv).mpr hleaf), inChild_eq _ (child?_of_mem ht hv),
      hbelow hleaf, editLeaves_eq _ hleaf]
    rfl

/-- Writes to all leaves below a value, which is not nested deeper than the levels that are left:
each leaf is hit once, as it was before the write. -/
theorem writeLeaves_eq (hpatch : patch.WellFormed) {left : Nat} (depth : Nat) (ht : t.WellFormed)
    (hkind : t.kind ≠ .leaf) (hleft : t.nesting ≤ left) :
    (writeLeaves config patch true left depth : Write Json Nat) t =
      ⟨.ok t.leaves.length,
        t.editChildren fun _ v => v.editLeaves fun x => patch.resolve (some x), 0⟩ := by
  induction left generalizing depth t with
  | zero =>
    cases t with
    | arr | obj => exact absurd hleft (Nat.not_succ_le_zero _)
    | null | bool | num | str => exact absurd rfl hkind
  | succ left ih =>
    have hmem : ∀ e ∈ t.children.reverse, e ∈ t.children := fun e he => List.mem_reverse.mp he
    have hkeys : t.childKeys.reverse = t.children.reverse.map Prod.fst := by
      rw [List.map_reverse]
      rfl
    have hedit : ∀ e ∈ t.children.reverse, ∀ w,
        e.2.editLeaves (fun x => patch.resolve (some x)) = some w → w.WellFormed := by
      intro e he w hw
      refine wellFormed_editLeaves (wellFormed_of_mem_children ht (hmem e he)) ?_ hw
      intro x y hx hy
      exact Patch.wellFormed_resolve hpatch (by rintro _ ⟨⟩; exact hx) hy
    have hbelow : ∀ e ∈ t.children.reverse, e.2.kind ≠ .leaf →
        (writeLeaves config patch true left (depth + 1) : Write Json Nat) e.2 =
          ⟨.ok e.2.leaves.length,
            e.2.editChildren fun _ v => v.editLeaves fun x => patch.resolve (some x), 0⟩ := by
      intro e he hinner
      have hdeep := nesting_lt_of_mem_children (hmem e he)
      exact ih (depth + 1) (wellFormed_of_mem_children ht (hmem e he)) hinner (by omega)
    have hcontainer : ¬TreeUpdate.kind t = .leaf := hkind
    rw [writeLeaves, Write.view_bind_apply, if_neg (by simp [isVacant_of_kind hkind]),
      Write.view_bind_apply, if_neg hcontainer, Write.view_bind_apply]
    change Write.sum _ t.childKeys.reverse t = _
    -- the last child first, so that no removal moves a child that is still to be written to
    rw [hkeys, sum_alters (fun v => v.leaves.length) _ (hkeys ▸ descending_childKeys ht) ht hmem
      hedit fun e he u hu hv => writeLeaves_step config hu hv depth (hbelow e he)]
    have hcount : (t.children.reverse.map fun e => e.2.leaves.length).sum = t.leaves.length := by
      rw [leaves_eq hkind, List.length_flatMap, List.map_reverse, List.sum_reverse]
    rw [hcount]
    refine congrArg (fun u => (⟨.ok t.leaves.length, u, 0⟩ : Outcome Json Nat)) ?_
    refine editChildren_congr fun key v hv => if_pos ?_
    exact List.mem_map.mpr ⟨(key, v), List.mem_reverse.mpr hv, rfl⟩

/-- A step that counts nothing and leaves every value as it is. -/
def Write.Inert (x : Write Json Nat) : Prop :=
  ∀ t : Json, t.WellFormed → ∃ trips, x t = ⟨.ok 0, t, trips⟩

theorem Write.Inert.inChild {x : Write Json Nat} (hx : x.Inert) (key : ChildKey) :
    (inChild key x).Inert := by
  intro t ht
  cases hchild : t.child? key with
  | none =>
    refine ⟨0, ?_⟩
    have hwith : (TreeUpdate.withChild key x : Write Json (Option Nat)) t = ⟨.ok none, t, 0⟩ := by
      change Json.withChild key x t = _
      rw [Json.withChild, hchild]
    exact Write.bind_ok hwith _
  | some v =>
    obtain ⟨trips, hrun⟩ := hx v (wellFormed_child? ht hchild)
    refine ⟨trips, ?_⟩
    rw [inChild_eq x hchild, hrun]
    simp only [putChild_child? ht hchild]

theorem Write.Inert.sum {f : ChildKey → Write Json Nat} (hf : ∀ key, (f key).Inert)
    (keys : List ChildKey) : (Write.sum f keys).Inert := by
  induction keys with
  | nil => exact fun t _ => ⟨0, rfl⟩
  | cons key rest ih =>
    intro t ht
    obtain ⟨first, hfirst⟩ := hf key t ht
    obtain ⟨others, hothers⟩ := ih t ht
    exact ⟨_, Write.bind_trips hfirst (Write.bind_trips hothers rfl)⟩

/-- Where the path goes on behind the leaves, none of them is written to. -/
theorem writeLeaves_inert (patch : Patch) (left depth : Nat) :
    (writeLeaves config patch false left depth : Write Json Nat).Inert := by
  induction left generalizing depth with
  | zero => exact fun t _ => ⟨1, rfl⟩
  | succ left ih =>
    intro t ht
    rw [writeLeaves, Write.view_bind_apply]
    split
    · exact ⟨0, rfl⟩
    rw [Write.view_bind_apply]
    split
    · exact ⟨0, rfl⟩
    rw [Write.view_bind_apply]
    refine Write.Inert.sum (fun key u hu => ?_) _ t ht
    rw [Write.view_bind_apply]
    split
    · exact (ih (depth + 1)).inChild key u hu
    · exact ⟨0, rfl⟩

/-- A path that starts with all leaves below a value is written to as it stands. -/
theorem writePath_descendants {rest : Path} (hrest : rest.SelectsChildren) (t : Json)
    (patch : Patch) (r : Resolver) :
    (Resolver.writePath t (.tag .descendants :: rest) patch r).1 =
      let o := (writeLeaves r.config patch rest.isEmpty (r.config.maxDepth + 1) 0 :
        Write Json Nat) t
      (o.result, o.tree) := by
  have hkept : ∀ s ∈ Segment.tag .descendants :: rest,
      (∀ done, Path.absoluteStep done s = s :: done) ∧ unwritableIn? s = none := by
    intro s hs
    rcases List.mem_cons.mp hs with rfl | hs
    · exact ⟨fun done => rfl, by simp [unwritableIn?, Tag.isWritable]⟩
    · exact s.kept_of_selectsChildren (hrest s hs)
  have hwrite : (write r.config (.tag .descendants :: rest) patch : Write Json Nat) =
      writeLeaves r.config patch rest.isEmpty (r.config.maxDepth + 1) 0 := by
    rw [write_of_kept hkept, writeAt, if_neg (Nat.not_lt_zero _), writeOn, Nat.sub_zero]
  rw [← hwrite]
  rfl

end Descendants

section Writing

variable {t : Json} {patch : Patch}

/-- A write at all leaves below a container hits each of them once and counts it, null or not. What
is written to a leaf stands in its place, whatever it is, and all containers stay what they are and
keep their keys. When something is removed, that is every leaf, and the containers are left. -/
theorem write_leaves (ht : t.WellFormed) (hkind : t.kind ≠ .leaf) (hpatch : patch.WellFormed)
    (r : Resolver) (hdeep : t.nesting ≤ r.config.maxDepth + 1) :
    ∃ u, (Resolver.writePath t [.tag .descendants] patch r).1 = (.ok t.leaves.length, u) ∧
      t.editLeaves (fun x => patch.resolve (some x)) = some u ∧
      (patch.isRemoval = false → t.Mirrors u fun x => patch.resolve (some x)) ∧
      (patch.isRemoval = true → u.leaves = []) := by
  have hrun := writeLeaves_eq r.config hpatch 0 ht hkind hdeep
  have hedit := editLeaves_eq (fun x => patch.resolve (some x)) hkind
  refine ⟨_, ?_, hedit, fun hremoval => mirrors_editLeaves (fun x => ?_) hedit, fun hremoval => ?_⟩
  · have hend : Path.SelectsChildren [] := fun s hs => absurd hs List.not_mem_nil
    rw [writePath_descendants hend]
    simp only [List.isEmpty_nil, hrun]
  · obtain ⟨v, hvalue⟩ := Option.isSome_iff_exists.mp (Option.isNone_eq_false_iff.mp hremoval)
    rw [resolve_value hvalue, Option.isSome_some]
  · have hnone : ∀ x, patch.resolve (some x) = none := fun x =>
      Patch.resolve_of_none (Option.isNone_iff_eq_none.mp hremoval) _
    simp only [hnone] at hedit ⊢
    exact leaves_editLeaves_none hkind hedit

/-- Null is a leaf, an empty sequence is none, and a sequence that is written is not entered. -/
theorem write_leaves_nested :
    let t : Json :=
      .obj [("a", .arr [.ofNat 1, .null]), ("b", .obj [("c", .arr []), ("d", .bool true)])]
    let two : Json := .arr [.ofNat 2]
    let r : Resolver := .new .default
    t.nesting = 3 ∧
    (Resolver.writePath t [.tag .descendants] (.overwrite two) r).1 =
      (.ok 3, .obj [("a", .arr [two, two]), ("b", .obj [("c", .arr []), ("d", two)])]) := by
  intro t two r
  have ht : t.WellFormed :=
    ⟨Fields.ascending_pair (by decide) _ _, ⟨trivial, trivial, trivial⟩,
      ⟨Fields.ascending_pair (by decide) _ _, trivial, trivial, trivial⟩, trivial⟩
  have hpatch : (Patch.overwrite two).WellFormed := by
    rintro _ ⟨⟩
    exact ⟨trivial, trivial⟩
  obtain ⟨u, hwrite, hu, -⟩ := write_leaves ht (by simp [t, Json.kind]) hpatch r (by decide)
  obtain rfl := Option.some.inj hu
  exact ⟨rfl, hwrite⟩

/-- Whether a predicate keeps a leaf. Null counts as nothing for a write. -/
def leafMatches (config : Config) (query : Query) (x : Json) : Bool :=
  !x.isNull && (meets config query x).value

/-- A write at the leaves that match a query does nothing at all. What it is meant to do, to put the
value in the place of each leaf that matches and to count them, it does just where no leaf
matches. -/
theorem write_leaves_predicate (ht : t.WellFormed) (query : Query) (v : Json) (r : Resolver) :
    let chosen := leafMatches r.config query
    let o := (Resolver.writePath t [.tag .descendants, .predicate query] (.overwrite v) r).1
    o = (.ok 0, t) ∧
    (t.editLeaves (fun x => some (if chosen x then v else x)) = some o.2 ∧
        o.1 = .ok (t.leaves.filter chosen).length ↔
      ∀ x ∈ t.leaves, chosen x = false) := by
  intro chosen o
  have hselects : Path.SelectsChildren [.predicate query] := by
    intro s hs
    obtain rfl := List.mem_singleton.mp hs
    rfl
  obtain ⟨trips, hrun⟩ := writeLeaves_inert r.config (.overwrite v) (r.config.maxDepth + 1) 0 t ht
  have ho : o = (.ok 0, t) := by
    rw [show o = _ from writePath_descendants hselects t _ r]
    simp only [List.isEmpty_cons, hrun]
  refine ⟨ho, ?_⟩
  rw [ho]
  constructor
  · rintro ⟨-, hcount⟩ x hx
    have hnone := List.length_eq_zero_iff.mp (Except.ok.inj hcount).symm
    simpa using List.filter_eq_nil_iff.mp hnone x hx
  · intro hnone
    refine ⟨?_, ?_⟩
    · rw [← editLeaves_some t]
      refine editLeaves_congr fun x hx => ?_
      simp [hnone x hx]
    · rw [List.filter_eq_nil_iff.mpr fun x hx => by simp [hnone x hx]]
      rfl

/-- One leaf matches, so what is left is not what the write is meant to leave. -/
theorem write_leaves_predicate_nested :
    let t : Json := .arr [.ofNat 1, .arr [.ofNat 2]]
    let query : Query := [([], .value (.ofNat 2))]
    let r : Resolver := .new .default
    let chosen := leafMatches r.config query
    let o := (Resolver.writePath t [.tag .descendants, .predicate query] (.overwrite .null) r).1
    o = (.ok 0, t) ∧
    ¬(t.editLeaves (fun x => some (if chosen x then .null else x)) = some o.2 ∧
      o.1 = .ok (t.leaves.filter chosen).length) := by
  intro t query r chosen o
  have ht : t.WellFormed := ⟨trivial, ⟨trivial, trivial⟩, trivial⟩
  obtain ⟨hnothing, hmeant⟩ := write_leaves_predicate ht query .null r
  refine ⟨hnothing, fun h => ?_⟩
  have hmatches : leafMatches r.config query (.ofNat 2) = true := by cbv
  have hmem : Json.ofNat 2 ∈ t.leaves := by simp [t, leaves, leavesOfItems, Json.ofNat]
  exact Bool.false_ne_true ((hmeant.mp h _ hmem).symm.trans hmatches)

/-- A leaf that matches is neither overwritten nor counted. -/
theorem write_leaves_predicate_missed :
    let t : Json := .obj [("a", .ofNat 1), ("b", .arr [.ofNat 2, .str "x"])]
    let query : Query := [([], .value (.ofNat 1))]
    let r : Resolver := .new .default
    let p : Path := [.tag .descendants, .predicate query]
    let o := (Resolver.writePath t p (.overwrite (.ofNat 9)) r).1
    t.WellFormed ∧ t.nesting = 2 ∧ t.leaves.filter (leafMatches r.config query) = [.ofNat 1] ∧
    t.editLeaves (fun x => some (if leafMatches r.config query x then .ofNat 9 else x)) =
      some (.obj [("a", .ofNat 9), ("b", .arr [.ofNat 2, .str "x"])]) ∧
    o = (.ok 0, t) := by
  intro t query r p o
  have ht : t.WellFormed :=
    ⟨Fields.ascending_pair (by decide) _ _, trivial, ⟨trivial, trivial, trivial⟩, trivial⟩
  refine ⟨ht, rfl, by cbv, by cbv, ?_⟩
  change (Resolver.writePath t p _ r).1 = _
  cbv

end Writing

end TreePath

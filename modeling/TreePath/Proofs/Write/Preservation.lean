import TreePath.Proofs.Patch
import TreePath.Proofs.Write.Addressing
import TreePath.Write.Basic

namespace TreePath

open TreeUpdate

variable {τ α β : Type}

/-- The tree afterwards is related to the tree before, also when the write fails. -/
def Write.Keeps (P : τ → τ → Prop) (x : Write τ α) : Prop := ∀ t, P t (x t).tree

variable [TreeUpdate τ]

/-- A relation that is kept by every step of a write. -/
structure KeptBySteps (P : τ → τ → Prop) : Prop where
  refl : ∀ t, P t t
  trans : ∀ {t u w}, P t u → P u w → P t w
  ensureContainer : ∀ kind, (Write.step (ensureContainer kind) : Write τ Bool).Keeps P
  ensureChild : ∀ key kind, (Write.step (ensureChild key kind) : Write τ Bool).Keeps P
  withChild : ∀ key {x : Write τ Nat}, x.Keeps P → (withChild key x).Keeps P
  apply : ∀ key {patch : Patch}, patch.WellFormed → (apply key patch : Write τ Nat).Keeps P

section Steps

variable {P : τ → τ → Prop} (hP : KeptBySteps P)

include hP

namespace KeptBySteps

theorem pure (a : α) : (Pure.pure a : Write τ α).Keeps P := hP.refl

theorem fail (e : PathError) : (Write.fail e : Write τ α).Keeps P := hP.refl

theorem trip (a : α) : (Write.trip a : Write τ α).Keeps P := hP.refl

theorem view (f : τ → α) : (Write.view f).Keeps P := hP.refl

theorem walk (f : τ → Guarded α) : (Write.walk f).Keeps P := hP.refl

theorem bind {x : Write τ α} {f : α → Write τ β} (hx : x.Keeps P) (hf : ∀ a, (f a).Keeps P) :
    (x >>= f).Keeps P := by
  intro t
  have hfirst := hx t
  rw [Write.bind_apply]
  rcases hxt : x t with ⟨result, u, trips⟩
  rw [hxt] at hfirst
  cases result with
  | error e => exact hfirst
  | ok a => exact hP.trans hfirst (hf a u)

theorem view_bind {f : τ → α} {k : α → Write τ β} (hk : ∀ a, (k a).Keeps P) :
    (Write.view f >>= k).Keeps P := hP.bind (hP.view f) hk

theorem add {x y : Write τ Nat} (hx : x.Keeps P) (hy : y.Keeps P) : Write.Keeps P (do
    let n ← x
    let m ← y
    return n + m) :=
  hP.bind hx fun _ => hP.bind hy fun _ => hP.pure _

theorem sum {f : α → Write τ Nat} (hf : ∀ a, (f a).Keeps P) (items : List α) :
    (Write.sum f items).Keeps P := by
  induction items with
  | nil => exact hP.pure 0
  | cons a rest ih => exact hP.add (hf a) ih

theorem inChild {x : Write τ Nat} (hx : x.Keeps P) (key : ChildKey) : (inChild key x).Keeps P :=
  hP.bind (hP.withChild key hx) fun _ => hP.pure _

end KeptBySteps

variable (config : Config)

theorem identifiedKey_keeps (name : String) (removal : Bool) :
    (identifiedKey config name removal : Write τ (Option ChildKey)).Keeps P := by
  have helement : (Patch.overwrite (.obj [(config.idField, .str name)])).WellFormed := by
    intro v hv
    obtain rfl := Option.some.inj hv
    exact ⟨Fields.ascending_single _ _, trivial, trivial⟩
  unfold identifiedKey
  refine hP.view_bind fun found => ?_
  split
  · exact hP.pure found
  · exact hP.view_bind fun count => hP.bind (hP.apply _ helement) fun _ => hP.pure _

theorem positionKey_keeps (done : Path) (i : Int64) (removal : Bool) :
    (positionKey config done i removal : Write τ (Option ChildKey)).Keeps P := by
  unfold positionKey
  refine hP.view_bind fun count => ?_
  split
  · simp only
    split
    · exact hP.fail _
    · exact hP.pure _
  · split
    · exact hP.pure none
    · exact hP.fail _

theorem childKey_keeps (done : Path) (s : Segment) (removal : Bool) :
    (childKey config done s removal : Write τ (Option ChildKey)).Keeps P := by
  unfold childKey
  refine hP.view_bind fun sequence => ?_
  split
  · split
    · exact identifiedKey_keeps hP config _ removal
    · exact hP.pure _
  · split
    · exact positionKey_keeps hP config done _ removal
    · exact hP.pure _
  · exact hP.pure none

theorem enter_keeps (done : Path) (s : Segment) (removal : Bool) :
    (enter config done s removal : Write τ (Option ChildKey)).Keeps P := by
  unfold enter
  refine hP.view_bind fun vacant => ?_
  split
  · exact hP.pure none
  · refine hP.bind (hP.ensureContainer _) fun container => ?_
    split
    · exact childKey_keeps hP config done s removal
    · exact hP.view_bind fun kind => hP.fail _

theorem reach_keeps (key : ChildKey) (container : NodeKind) :
    (reach key container : Write τ Bool).Keeps P := by
  unfold reach
  refine hP.view_bind fun found => ?_
  split
  · exact hP.pure true
  · exact hP.ensureChild key container

theorem atKey_keeps {x : Write τ Nat} (hx : x.Keeps P) (key : Option ChildKey) :
    (atKey key x).Keeps P := by
  cases key with
  | none => exact hx
  | some key => exact hP.inChild hx key

mutual

theorem settle_keeps (policy : MergePolicy) (idempotent : Bool) (v : Json) (hv : v.WellFormed)
    (key : Option ChildKey) (depth : Nat) :
    (settle config policy idempotent v key depth : Write τ Nat).Keeps P := by
  match v with
  | .obj fields =>
    rw [settle]
    refine hP.view_bind fun found => ?_
    split
    · exact settleFields_keeps idempotent fields hv.2 key depth
    · exact hP.apply key (fun w hw => Option.some.inj hw ▸ hv)
  | .null | .bool _ | .num _ | .str _ | .arr _ =>
    rw [settle]
    · exact hP.apply key (fun w hw => Option.some.inj hw ▸ hv)
    all_goals simp

theorem settleFields_keeps (idempotent : Bool) (fields : List (String × Json))
    (hfields : Json.WellFormedFields fields) (key : Option ChildKey) (depth : Nat) :
    (settleFields config idempotent fields key depth : Write τ Nat).Keeps P := by
  match fields with
  | [] =>
    rw [settleFields]
    exact hP.pure 0
  | (name, v) :: rest =>
    rw [settleFields]
    refine hP.add (atKey_keeps hP ?_ key)
      (settleFields_keeps idempotent rest hfields.2 key depth)
    split
    · exact hP.trip 0
    · refine hP.bind (enter_keeps hP config [] (.key name) false) fun field => ?_
      split
      · exact settle_keeps .merge idempotent v hfields.1 _ (depth + 1)
      · exact hP.pure 0

end

variable {patch : Patch} (hpatch : patch.WellFormed)

include hpatch

theorem finish_keeps (key : Option ChildKey) (depth : Nat) :
    (finish config patch key depth : Write τ Nat).Keeps P := by
  unfold finish
  split
  · next v hv => exact settle_keeps hP config _ _ v (hpatch v hv) key depth
  · exact hP.apply key hpatch

theorem writeLeaves_keeps (last : Bool) (left depth : Nat) :
    (writeLeaves config patch last left depth : Write τ Nat).Keeps P := by
  induction left generalizing depth with
  | zero => exact hP.trip 0
  | succ left ih =>
    unfold writeLeaves
    refine hP.view_bind fun vacant => ?_
    split
    · exact hP.pure 0
    · refine hP.view_bind fun kind => ?_
      split
      · split
        · exact hP.apply none hpatch
        · exact hP.pure 0
      · refine hP.view_bind fun keys => hP.sum (fun key => hP.view_bind fun found => ?_) _
        split
        · exact hP.inChild (ih (depth + 1)) key
        · split
          · exact finish_keeps hP config hpatch (some key) depth
          · exact hP.pure 0

end Steps

section Paths

variable {P : τ → τ → Prop} (config : Config) {patch : Patch}

mutual

theorem writeAt_keeps (hP : KeptBySteps P) (hpatch : patch.WellFormed) (done path : Path)
    (depth : Nat) : (writeAt config patch done path depth : Write τ Nat).Keeps P := by
  rw [writeAt]
  split
  · exact hP.trip 0
  · exact writeOn_keeps hP hpatch done path depth
termination_by (pathWeight path, 1)

/-- One case for each kind of segment at the head of the path. -/
theorem writeOn_keeps (hP : KeptBySteps P) (hpatch : patch.WellFormed) (done path : Path)
    (depth : Nat) : (writeOn config patch done path depth : Write τ Nat).Keeps P := by
  match path with
  | [] =>
    rw [writeOn]
    exact finish_keeps hP config hpatch none depth
  | .key _ :: rest | .index _ :: rest =>
    rw [writeOn_concrete config patch done rfl]
    refine hP.bind (enter_keeps hP config done _ patch.isRemoval) fun key => ?_
    split
    · exact writeBelow_keeps hP hpatch done _ rest depth _
    · exact hP.pure 0
  | .slice s :: rest =>
    rw [writeOn]
    refine hP.view_bind fun kind => ?_
    split
    · exact hP.view_bind fun count => writeEach_keeps hP hpatch _ rest depth _
    · refine hP.view_bind fun vacant => ?_
      split
      · exact hP.pure 0
      · refine hP.view_bind fun kind => ?_
        split <;> exact hP.fail _
  | .predicate query :: rest =>
    rw [writeOn]
    refine hP.view_bind fun vacant => ?_
    split
    · exact hP.pure 0
    · refine hP.view_bind fun kind => ?_
      split
      · refine hP.bind (hP.walk _) fun found => ?_
        split
        · exact writeAt_keeps hP hpatch _ rest depth
        · exact hP.pure 0
      · exact hP.bind (hP.walk _) fun keys => writeEach_keeps hP hpatch _ rest depth keys
  | .tag tag :: rest =>
    cases tag using Tag.writable_cases with
    | current =>
      rw [writeOn]
      exact writeAt_keeps hP hpatch _ rest depth
    | children =>
      rw [writeOn]
      refine hP.view_bind fun vacant => ?_
      split
      · exact hP.pure 0
      · refine hP.view_bind fun kind => ?_
        split
        · exact hP.fail _
        · exact hP.view_bind fun keys => writeEach_keeps hP hpatch _ rest depth keys
    | descendants =>
      rw [writeOn]
      exact writeLeaves_keeps hP config hpatch _ _ depth
    | unwritable tag htag =>
      rw [writeOn_unwritable config patch done htag]
      exact hP.fail _
  | .union alternatives _ :: rest =>
    rw [writeOn]
    exact writeAlternately_keeps hP hpatch alternatives rest (depth + 1)
  | .tuple members :: rest =>
    rw [writeOn]
    exact writeAt_keeps hP hpatch [] (members ++ rest) (depth + 1)
termination_by (pathWeight path, 0)

theorem writeBelow_keeps (hP : KeptBySteps P) (hpatch : patch.WellFormed) (done : Path)
    (s : Segment) (rest : Path) (depth : Nat) (key : ChildKey) :
    (writeBelow config patch done s rest depth key : Write τ Nat).Keeps P := by
  match rest with
  | [] =>
    rw [writeBelow]
    exact finish_keeps hP config hpatch (some key) depth
  | after :: more =>
    rw [writeBelow]
    refine hP.view_bind fun missing => ?_
    split
    · exact hP.pure 0
    · refine hP.bind (reach_keeps hP key after.container) fun found => ?_
      split
      · exact hP.inChild (writeAt_keeps hP hpatch (done.append s) (after :: more) (depth + 1)) key
      · exact hP.fail _
termination_by (pathWeight rest, 2)

theorem writeEach_keeps (hP : KeptBySteps P) (hpatch : patch.WellFormed) (done rest : Path)
    (depth : Nat) (keys : List ChildKey) :
    (writeEach config patch done rest depth keys : Write τ Nat).Keeps P := by
  match rest with
  | [] =>
    rw [writeEach]
    exact hP.sum (fun key => finish_keeps hP config hpatch (some key) depth) _
  | after :: more =>
    rw [writeEach]
    · exact hP.sum (fun key =>
        hP.inChild (writeAt_keeps hP hpatch done (after :: more) (depth + 1)) key) _
    · simp
termination_by (pathWeight rest, 2)

theorem writeAlternately_keeps (hP : KeptBySteps P) (hpatch : patch.WellFormed)
    (alternatives : List Path) (rest : Path) (depth : Nat) :
    (writeAlternately config patch alternatives rest depth : Write τ Nat).Keeps P := by
  match alternatives with
  | [] =>
    rw [writeAlternately]
    exact hP.pure 0
  | p :: more =>
    rw [writeAlternately]
    exact hP.add (writeAt_keeps hP hpatch [] (p.absolute ++ rest) depth)
      (writeAlternately_keeps hP hpatch more rest depth)
termination_by (pathsWeight alternatives + pathWeight rest, 0)
decreasing_by
  · have := pathWeight_absolute_le p
    exact Prod.Lex.left _ _ (by simp only [pathsWeight, pathWeight_append]; omega)
  · exact Prod.Lex.left _ _ (by simp only [pathsWeight]; omega)

end

theorem write_keeps (hP : KeptBySteps P) (path : Path) (hpatch : patch.WellFormed) :
    (write config path patch : Write τ Nat).Keeps P := by
  unfold write
  split
  · exact hP.fail _
  · exact writeAt_keeps config hP hpatch [] path.target 0

end Paths

end TreePath

import TreePath.Proofs.Write.Slot
import TreePath.Tree.HeapUpdate
import TreePath.Tree.Numeric

namespace TreePath

open TreeUpdate Json

/-- Wherever `x` trips no guard, neither does `y`: it leaves the same tree, and it has the same
answer, or fails as `x` does. -/
def Write.EchoedBy {τ α : Type} (x y : Write τ α) : Prop :=
  ∀ t, (x t).trips = 0 → (y t).trips = 0 ∧ (y t).tree = (x t).tree ∧
    (y t).result.toOption = (x t).result.toOption

/-- A tree in which a step at a child is the step where the child stands, and nothing where there
is no child. -/
class VisitsChildren (τ : Type) [TreeUpdate τ] : Prop where
  withChild_eq (key : ChildKey) (t : τ) : (∀ x, withChild key x t = ⟨.ok none, t, 0⟩) ∨
    ∃ (child : τ) (back : τ → τ), ∀ x : Write τ Nat,
      withChild key x t = ⟨(x child).result.map some, back (x child).tree, (x child).trips⟩

instance : VisitsChildren Json where
  withChild_eq key t := by
    have hstep : ∀ x, TreeUpdate.withChild key x t = Json.withChild key x t := fun _ => rfl
    simp only [hstep, Json.withChild]
    cases t.child? key with
    | none => exact .inl fun _ => rfl
    | some child => exact .inr ⟨child, t.replaceChild key, fun _ => rfl⟩

instance : VisitsChildren HeapNode where
  withChild_eq key n := by
    have hstep : ∀ x, TreeUpdate.withChild key x n = HeapNode.withChild key x n := fun _ => rfl
    simp only [hstep, HeapNode.withChild]
    cases n.heap.child? n.cell key with
    | none => exact .inl fun _ => rfl
    | some child => exact .inr ⟨n.goto child, fun m => m.goto n.cell, fun _ => rfl⟩

instance : VisitsChildren Numeric where
  withChild_eq key t := by
    -- a step of the numbers is a step of the plain value that holds them
    let plain (x : Write Numeric Nat) : Write Json Nat := fun v =>
      ⟨(x ⟨v⟩).result, (x ⟨v⟩).tree.value, (x ⟨v⟩).trips⟩
    let lifted (o : Outcome Json (Option Nat)) : Outcome Numeric (Option Nat) :=
      ⟨o.result, ⟨o.tree⟩, o.trips⟩
    rcases VisitsChildren.withChild_eq key t.value with hnone | ⟨child, back, hchild⟩
    · exact .inl fun x => congrArg lifted (hnone (plain x))
    · exact .inr ⟨⟨child⟩, fun u => ⟨back u.value⟩, fun x => congrArg lifted (hchild (plain x))⟩

namespace Write

variable {τ α β : Type} {t u w : τ}

/-- When both steps together succeed without tripping a guard, so has each of them. -/
theorem eq_of_bind {x : Write τ α} {f : α → Write τ β} {b : β}
    (h : (x >>= f) t = ⟨.ok b, w, 0⟩) : ∃ a u, x t = ⟨.ok a, u, 0⟩ ∧ f a u = ⟨.ok b, w, 0⟩ := by
  rw [bind_apply] at h
  rcases hx : x t with ⟨result, u, trips⟩
  rw [hx] at h
  cases result with
  | error e => simp at h
  | ok a =>
    rcases hf : f a u with ⟨last, v, more⟩
    simp only [hf, Outcome.mk.injEq] at h
    obtain ⟨rfl, rfl, hzero⟩ := h
    obtain ⟨rfl, rfl⟩ : trips = 0 ∧ more = 0 := by omega
    exact ⟨a, u, rfl, hf⟩

/-- The step never trips a guard. -/
def Untripped (x : Write τ α) : Prop := ∀ t, (x t).trips = 0

namespace Untripped

theorem pure (a : α) : Untripped (Pure.pure a : Write τ α) := fun _ => rfl

theorem view (f : τ → α) : Untripped (Write.view f) := fun _ => rfl

theorem step (f : τ → α × τ) : Untripped (Write.step f) := fun _ => rfl

theorem fail (e : PathError) : Untripped (Write.fail e : Write τ α) := fun _ => rfl

theorem bind {x : Write τ α} {f : α → Write τ β} (hx : x.Untripped) (hf : ∀ a, (f a).Untripped) :
    (x >>= f).Untripped := by
  intro t
  have hfirst := hx t
  rw [bind_apply]
  rcases hxt : x t with ⟨result, u, trips⟩
  rw [hxt] at hfirst
  cases result with
  | error e => exact hfirst
  | ok a =>
    have hlast := hf a u
    simp only at hfirst ⊢
    omega

end Untripped

theorem toOption_eq_some {r : Except PathError α} {a : α} :
    r.toOption = some a ↔ r = .ok a := by
  cases r <;> simp [Except.toOption]

theorem toOption_eq_none {r : Except PathError α} :
    r.toOption = none ↔ ∃ e, r = .error e := by
  cases r <;> simp [Except.toOption]

namespace EchoedBy

/-- What succeeds is repeated as it is. -/
theorem ok {x y : Write τ α} (h : x.EchoedBy y) {a : α} (hx : x t = ⟨.ok a, u, 0⟩) :
    y t = ⟨.ok a, u, 0⟩ := by
  obtain ⟨htrips, htree, hresult⟩ := h t (by rw [hx])
  rw [hx] at htree hresult
  rcases hy : y t with ⟨r, w, k⟩
  rw [hy] at htrips htree hresult
  obtain rfl := toOption_eq_some.mp hresult
  exact congrArg₂ (fun w k => (⟨.ok a, w, k⟩ : Outcome τ α)) htree htrips

theorem refl (x : Write τ α) : x.EchoedBy x := fun _ h => ⟨h, rfl, rfl⟩

theorem trip (a : α) (y : Write τ α) : (Write.trip a).EchoedBy y := by
  intro t h
  simp [Write.trip] at h

theorem fail (e e' : PathError) : (Write.fail e : Write τ α).EchoedBy (Write.fail e') :=
  fun _ _ => ⟨rfl, rfl, rfl⟩

theorem bind {x y : Write τ α} {f g : α → Write τ β} (hx : x.EchoedBy y)
    (hf : ∀ a, (f a).EchoedBy (g a)) : (x >>= f).EchoedBy (y >>= g) := by
  intro t h
  rw [bind_apply] at h ⊢
  rw [bind_apply]
  have hfirst := hx t
  rcases hxt : x t with ⟨result, u, trips⟩
  rcases hyt : y t with ⟨result', u', trips'⟩
  rw [hxt] at h hfirst
  rw [hyt] at hfirst
  cases result with
  | error e =>
    obtain ⟨rfl, rfl, hresult⟩ := hfirst h
    obtain ⟨e', rfl⟩ := toOption_eq_none.mp hresult
    exact ⟨rfl, rfl, rfl⟩
  | ok a =>
    obtain ⟨rfl, rfl, hresult⟩ := hfirst (Nat.eq_zero_of_add_eq_zero_right h)
    obtain rfl := toOption_eq_some.mp hresult
    obtain ⟨htrips, hlast⟩ := hf a u' (Nat.eq_zero_of_add_eq_zero_left h)
    exact ⟨by simp only [htrips], hlast⟩

theorem withChild [TreeUpdate τ] [VisitsChildren τ] {x y : Write τ Nat} (h : x.EchoedBy y)
    (key : ChildKey) : (TreeUpdate.withChild key x).EchoedBy (TreeUpdate.withChild key y) := by
  intro t ht
  rcases VisitsChildren.withChild_eq key t with hnone | ⟨child, back, hchild⟩
  · rw [hnone, hnone]
    exact ⟨rfl, rfl, rfl⟩
  · rw [hchild] at ht
    obtain ⟨htrips, htree, hresult⟩ := h child ht
    have hmap : ∀ r : Except PathError Nat, (r.map some).toOption = r.toOption.map some := by
      intro r
      cases r <;> rfl
    rw [hchild, hchild]
    exact ⟨htrips, congrArg back htree, by rw [hmap, hmap, hresult]⟩

theorem inChild [TreeUpdate τ] [VisitsChildren τ] {x y : Write τ Nat} (h : x.EchoedBy y)
    (key : ChildKey) : (TreeUpdate.inChild key x).EchoedBy (TreeUpdate.inChild key y) :=
  .bind (h.withChild key) fun _ => .refl _

theorem atKey [TreeUpdate τ] [VisitsChildren τ] {x y : Write τ Nat} (h : x.EchoedBy y)
    (key : Option ChildKey) : (TreePath.atKey key x).EchoedBy (TreePath.atKey key y) := by
  cases key with
  | none => exact h
  | some key => exact h.inChild key

theorem sum {ι : Type} {f g : ι → Write τ Nat} (h : ∀ i, (f i).EchoedBy (g i)) (items : List ι) :
    (Write.sum f items).EchoedBy (Write.sum g items) := by
  induction items with
  | nil => exact .refl _
  | cons i rest ih => exact .bind (h i) fun n => .bind ih fun m => .refl _

end EchoedBy

end Write

section Depth

variable {τ : Type} [TreeUpdate τ] (config : Config)

mutual

/-- What is settled without tripping a guard is settled alike further up. -/
theorem settle_upward [VisitsChildren τ] (policy : MergePolicy) (idempotent : Bool) (v : Json)
    (key : Option ChildKey) {depth upper : Nat} (h : upper ≤ depth) :
    (settle config policy idempotent v key depth : Write τ Nat).EchoedBy
      (settle config policy idempotent v key upper) := by
  match v with
  | .obj fields =>
    rw [settle, settle]
    refine .bind (.refl _) fun found => ?_
    split
    · exact settleFields_upward idempotent fields key h
    · exact .refl _
  | .arr _ | .null | .bool _ | .num _ | .str _ =>
    rw [settle, settle]
    all_goals first | exact .refl _ | simp

theorem settleFields_upward [VisitsChildren τ] (idempotent : Bool) (fields : List (String × Json))
    (key : Option ChildKey) {depth upper : Nat} (h : upper ≤ depth) :
    (settleFields config idempotent fields key depth : Write τ Nat).EchoedBy
      (settleFields config idempotent fields key upper) := by
  match fields with
  | [] =>
    rw [settleFields, settleFields]
    exact .refl _
  | (name, v) :: rest =>
    rw [settleFields, settleFields]
    refine .bind (.atKey ?_ key) fun n => ?_
    · split
      · exact .trip 0 _
      · next hdepth =>
        rw [if_neg (by omega)]
        refine .bind (.refl _) fun entered => ?_
        cases entered with
        | none => exact .refl _
        | some field => exact settle_upward .merge idempotent v (some field) (by omega)
    · exact .bind (settleFields_upward idempotent rest key h) fun m => .refl _

end

theorem finish_upward [VisitsChildren τ] (patch : Patch) (key : Option ChildKey) {depth upper : Nat}
    (h : upper ≤ depth) : (finish config patch key depth : Write τ Nat).EchoedBy
      (finish config patch key upper) := by
  unfold finish
  split
  · exact settle_upward config _ _ _ key h
  · exact .refl _

theorem identifiedKey_untripped (name : String) (removal : Bool) :
    (identifiedKey config name removal : Write Json (Option ChildKey)).Untripped := by
  unfold identifiedKey
  refine .bind (.view _) fun found => ?_
  split
  · exact .pure found
  · exact .bind (.view _) fun count => .bind (.step _) fun _ => .pure _

theorem positionKey_untripped (done : Path) (i : Int64) (removal : Bool) :
    (positionKey config done i removal : Write Json (Option ChildKey)).Untripped := by
  unfold positionKey
  refine .bind (.view _) fun count => ?_
  split
  · simp only
    split
    · exact .fail _
    · exact .pure _
  · split
    · exact .pure none
    · exact .fail _

theorem enter_untripped (done : Path) (s : Segment) (removal : Bool) :
    (enter config done s removal : Write Json (Option ChildKey)).Untripped := by
  have hchild : (childKey config done s removal : Write Json (Option ChildKey)).Untripped := by
    unfold childKey
    refine .bind (.view _) fun sequence => ?_
    split
    · split
      · exact identifiedKey_untripped config _ removal
      · exact .pure _
    · split
      · exact positionKey_untripped config done _ removal
      · exact .pure _
    · exact .pure none
  unfold enter
  refine .bind (.view _) fun vacant => ?_
  split
  · exact .pure none
  · refine .bind (.step _) fun container => ?_
    split
    · exact hchild
    · exact .bind (.view _) fun kind => .fail _

/-- What a child is entered as does not depend on the path that an error would tell. -/
theorem enter_echoed (done other : Path) (s : Segment) (removal : Bool) :
    (enter config done s removal : Write τ (Option ChildKey)).EchoedBy
      (enter config other s removal) := by
  have hposition : ∀ i, (positionKey config done i removal : Write τ (Option ChildKey)).EchoedBy
      (positionKey config other i removal) := by
    intro i
    unfold positionKey
    refine .bind (.refl _) fun count => ?_
    split
    · simp only
      split
      · exact .fail _ _
      · exact .refl _
    · split
      · exact .refl _
      · exact .fail _ _
  have hchild : (childKey config done s removal : Write τ (Option ChildKey)).EchoedBy
      (childKey config other s removal) := by
    unfold childKey
    refine .bind (.refl _) fun sequence => ?_
    split
    · exact .refl _
    · split
      · exact hposition _
      · exact .refl _
    · exact .refl _
  unfold enter
  refine .bind (.refl _) fun vacant => ?_
  split
  · exact .refl _
  · refine .bind (.refl _) fun container => ?_
    split
    · exact hchild
    · exact .bind (.refl _) fun kind => .fail _ _

theorem writeLeaves_upward [VisitsChildren τ] (patch : Patch) (last : Bool)
    {left more depth upper : Nat} (h : upper ≤ depth) (hleft : left ≤ more) :
    (writeLeaves config patch last left depth : Write τ Nat).EchoedBy
      (writeLeaves config patch last more upper) := by
  induction left generalizing more depth upper with
  | zero =>
    rw [writeLeaves]
    exact .trip 0 _
  | succ left ih =>
    obtain ⟨more, rfl⟩ : ∃ n, more = n + 1 := ⟨more - 1, by omega⟩
    rw [writeLeaves, writeLeaves]
    refine .bind (.refl _) fun vacant => ?_
    split
    · exact .refl _
    · refine .bind (.refl _) fun kind => ?_
      split
      · exact .refl _
      · refine .bind (.refl _) fun keys => .sum (fun key => .bind (.refl _) fun found => ?_) _
        split
        · exact .inChild (ih (by omega) (by omega)) key
        · split
          · exact finish_upward config patch (some key) h
          · exact .refl _

/-- A name or a position is entered, and the write goes on below it: alike, when what is behind it
starts in the same kind of container and is written to alike. -/
theorem writeBelow_echoed [VisitsChildren τ] (patch : Patch) (done other : Path) (s : Segment)
    {rest more : Path} (hhead : more.head?.map Segment.container = rest.head?.map Segment.container)
    {depth upper : Nat} (h : upper ≤ depth)
    (hrest : rest ≠ [] →
      (writeAt config patch (done.append s) rest (depth + 1) : Write τ Nat).EchoedBy
        (writeAt config patch (other.append s) more (upper + 1))) :
    (do
      match ← enter config done s patch.isRemoval with
      | some key => writeBelow config patch done s rest depth key
      | none => return 0 : Write τ Nat).EchoedBy (do
      match ← enter config other s patch.isRemoval with
      | some key => writeBelow config patch other s more upper key
      | none => return 0) := by
  refine .bind (enter_echoed config done other s _) fun entered => ?_
  cases entered with
  | none => exact .refl _
  | some key =>
    match rest, more with
    | [], [] =>
      simp only
      rw [writeBelow, writeBelow]
      exact finish_upward config patch (some key) h
    | after :: rest, after' :: more =>
      simp only
      rw [writeBelow, writeBelow]
      refine .bind (.refl _) fun missing => ?_
      split
      · exact .refl _
      · -- the child is made the same container for both
        rw [Option.some.inj hhead]
        refine .bind (.refl _) fun reached => ?_
        split
        · exact .inChild (hrest (List.cons_ne_nil _ _)) key
        · exact .fail _ _

mutual

/-- What is written without tripping a guard is written alike further up, whatever path has led
there. -/
theorem writeAt_upward [VisitsChildren τ] (patch : Patch) (done other path : Path)
    {depth upper : Nat} (h : upper ≤ depth) :
    (writeAt config patch done path depth : Write τ Nat).EchoedBy
      (writeAt config patch other path upper) := by
  rw [writeAt, writeAt]
  split
  · exact .trip 0 _
  · rw [if_neg (by omega)]
    exact writeOn_upward patch done other path h
termination_by (pathWeight path, 1)

theorem writeOn_upward [VisitsChildren τ] (patch : Patch) (done other path : Path)
    {depth upper : Nat} (h : upper ≤ depth) :
    (writeOn config patch done path depth : Write τ Nat).EchoedBy
      (writeOn config patch other path upper) := by
  match path with
  | [] =>
    rw [writeOn, writeOn]
    exact finish_upward config patch none h
  | .key _ :: rest | .index _ :: rest =>
    rw [writeOn_concrete config patch done rfl, writeOn_concrete config patch other rfl]
    exact writeBelow_echoed config patch done other _ rfl h fun _ =>
      writeAt_upward patch _ _ rest (by omega)
  | .slice slice :: rest =>
    rw [writeOn, writeOn]
    refine .bind (.refl _) fun kind => ?_
    split
    · exact .bind (.refl _) fun count => writeEach_upward patch _ _ rest h _
    · refine .bind (.refl _) fun vacant => ?_
      split
      · exact .refl _
      · refine .bind (.refl _) fun kind => ?_
        split
        · exact .fail _ _
        · exact .fail _ _
  | .predicate query :: rest =>
    rw [writeOn, writeOn]
    refine .bind (.refl _) fun vacant => ?_
    split
    · exact .refl _
    · refine .bind (.refl _) fun kind => ?_
      split
      · refine .bind (.refl _) fun matched => ?_
        split
        · exact writeAt_upward patch _ _ rest h
        · exact .refl _
      · exact .bind (.refl _) fun keys => writeEach_upward patch _ _ rest h _
  | .tag tag :: rest =>
    cases tag using Tag.writable_cases with
    | current =>
      rw [writeOn, writeOn]
      exact writeAt_upward patch _ _ rest h
    | children =>
      rw [writeOn, writeOn]
      refine .bind (.refl _) fun vacant => ?_
      split
      · exact .refl _
      · refine .bind (.refl _) fun kind => ?_
        split
        · exact .fail _ _
        · exact .bind (.refl _) fun keys => writeEach_upward patch _ _ rest h _
    | descendants =>
      rw [writeOn, writeOn]
      exact writeLeaves_upward config patch _ h (by omega)
    | unwritable tag htag =>
      rw [writeOn_unwritable config patch done htag, writeOn_unwritable config patch other htag]
      exact .fail _ _
  | .union alternatives named :: rest =>
    rw [writeOn, writeOn]
    exact writeAlternately_upward patch alternatives rest (by omega)
  | .tuple members :: rest =>
    rw [writeOn, writeOn]
    exact writeAt_upward patch [] [] (members ++ rest) (by omega)
termination_by (pathWeight path, 0)

theorem writeEach_upward [VisitsChildren τ] (patch : Patch) (done other rest : Path)
    {depth upper : Nat} (h : upper ≤ depth) (keys : List ChildKey) :
    (writeEach config patch done rest depth keys : Write τ Nat).EchoedBy
      (writeEach config patch other rest upper keys) := by
  match rest with
  | [] =>
    rw [writeEach, writeEach]
    exact .sum (fun key => finish_upward config patch (some key) h) _
  | after :: more =>
    rw [writeEach, writeEach]
    · exact .sum (fun key =>
        .inChild (writeAt_upward patch _ _ (after :: more) (by omega)) key) keys
    all_goals simp
termination_by (pathWeight rest, 2)

theorem writeAlternately_upward [VisitsChildren τ] (patch : Patch) (alternatives : List Path)
    (rest : Path) {depth upper : Nat} (h : upper ≤ depth) :
    (writeAlternately config patch alternatives rest depth : Write τ Nat).EchoedBy
      (writeAlternately config patch alternatives rest upper) := by
  match alternatives with
  | [] =>
    rw [writeAlternately, writeAlternately]
    exact .refl _
  | p :: more =>
    rw [writeAlternately, writeAlternately]
    refine .bind (writeAt_upward patch [] [] (p.absolute ++ rest) h) fun n => ?_
    exact .bind (writeAlternately_upward patch more rest h) fun m => .refl _
termination_by (pathsWeight alternatives + pathWeight rest, 0)
decreasing_by
  · have := pathWeight_absolute_le p
    exact Prod.Lex.left _ _ (by simp only [pathsWeight, pathWeight_append]; omega)
  · exact Prod.Lex.left _ _ (by simp only [pathsWeight]; omega)

end

end Depth

section Children

variable (config : Config) {u c : Json} {key : ChildKey}

/-- What a step leaves of a child, in the place of the child. -/
def Outcome.under {α : Type} (u : Json) (key : ChildKey) (o : Outcome Json α) : Outcome Json α :=
  ⟨o.result, u.putChild key o.tree, o.trips⟩

theorem inChild_put (x : Write Json Nat) (haccepts : u.Accepts key) (c : Json) :
    inChild key x (u.putChild key c) = (x c).under u key := by
  rw [inChild_eq x (child?_putChild haccepts c), putChild_putChild haccepts]
  rfl

theorem Write.bind_under {x y : Write Json Nat} {f g : Nat → Write Json Nat} {t : Json}
    (hx : x t = (y c).under u key) (hf : ∀ n d, f n (u.putChild key d) = (g n d).under u key) :
    (x >>= f) t = ((y >>= g) c).under u key := by
  rw [bind_apply, bind_apply, hx]
  rcases y c with ⟨result, d, trips⟩
  cases result with
  | error e => rfl
  | ok n =>
    simp only [Outcome.under, hf n d]

/-- A patch with a value that is applied to a child leaves what it leaves of the child itself. -/
theorem apply_under {patch : Patch} {v : Json} (hvalue : patch.value = some v)
    (haccepts : u.Accepts key) (c : Json) :
    (apply (some key) patch : Write Json Nat) (u.putChild key c) =
      ((apply none patch : Write Json Nat) c).under u key := by
  have hput : (u.putChild key c).AcceptsAt (some key) :=
    acceptsAt_some (accepts_of_child? (child?_putChild haccepts c))
  have hchild : (u.putChild key c).at? (some key) = some c := child?_putChild haccepts c
  rw [apply_value hvalue hput, apply_value hvalue (by simp [AcceptsAt]), hchild]
  simp only [Outcome.under, putAt, putChild_putChild haccepts, at?]

theorem kindAt?_put (haccepts : u.Accepts key) (c : Json) :
    kindAt? (some key) (u.putChild key c) = kindAt? none c := by
  have hchild : (u.putChild key c).at? (some key) = some c := child?_putChild haccepts c
  rw [kindAt?_eq, kindAt?_eq, hchild]
  rfl

mutual

/-- To settle a value at a child is to settle it there. -/
theorem settle_under (policy : MergePolicy) (idempotent : Bool) (v : Json)
    (haccepts : u.Accepts key) (depth : Nat) (c : Json) :
    (settle config policy idempotent v (some key) depth : Write Json Nat) (u.putChild key c) =
      ((settle config policy idempotent v none depth : Write Json Nat) c).under u key := by
  match v with
  | .obj fields =>
    rw [settle, settle, Write.view_bind_apply, Write.view_bind_apply, kindAt?_put haccepts]
    split
    · exact settleFields_under idempotent fields haccepts depth c
    · exact apply_under rfl haccepts c
  | .arr _ | .null | .bool _ | .num _ | .str _ =>
    rw [settle, settle]
    all_goals first | exact apply_under rfl haccepts c | simp

theorem settleFields_under (idempotent : Bool) (fields : List (String × Json))
    (haccepts : u.Accepts key) (depth : Nat) (c : Json) :
    (settleFields config idempotent fields (some key) depth : Write Json Nat) (u.putChild key c) =
      ((settleFields config idempotent fields none depth : Write Json Nat) c).under u key := by
  match fields with
  | [] =>
    rw [settleFields, settleFields]
    rfl
  | (name, v) :: rest =>
    rw [settleFields, settleFields]
    refine Write.bind_under (inChild_put _ haccepts c) fun n d => ?_
    exact Write.bind_under (settleFields_under idempotent rest haccepts depth d) fun m e => rfl

end

/-- At the end of a path, a patch with a value does to a child what it does to the child as the node
itself; a missing child is null. -/
theorem finish_under {patch : Patch} (hremoval : patch.isRemoval = false) (hu : u.WellFormed)
    (haccepts : u.Accepts key) (depth : Nat) :
    (finish config patch (some key) depth : Write Json Nat) u =
      ((finish config patch none depth : Write Json Nat) ((u.child? key).getD .null)).under u key := by
  cases hvalue : patch.value with
  | none => simp [Patch.isRemoval, hvalue] at hremoval
  | some v =>
    unfold finish
    simp only [hvalue]
    cases hchild : u.child? key with
    | some c =>
      have hthere := settle_under config patch.policy patch.idempotent v haccepts depth c
      rw [putChild_child? hu hchild] at hthere
      exact hthere
    | none =>
      have hplace : u.at? (some key) = none := hchild
      have hmissing : kindAt? (some key) u ≠ some .mapping := by simp [kindAt?_eq, hplace]
      have hnull : kindAt? none Json.null ≠ some .mapping := by
        simp [kindAt?_eq, at?, present?, isNull]
      rw [Option.getD_none, settle_apply config _ _ v fun _ => hmissing,
        settle_apply config _ _ v fun _ => hnull,
        apply_value rfl (acceptsAt_some haccepts), apply_value rfl (by simp [AcceptsAt]), hplace]
      simp only [Outcome.under, putAt, at?, combine_null]

end Children
end TreePath

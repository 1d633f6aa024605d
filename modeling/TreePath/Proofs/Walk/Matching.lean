import Mathlib.Data.List.Forall2
import TreePath.Walk.Operation

namespace TreePath

open TreeAccess

theorem rel_cases {α β : Type} {P : α → β → Prop} {x : Option α} {y : Option β}
    (h : Option.Rel P x y) :
    x = none ∧ y = none ∨ ∃ a b, x = some a ∧ y = some b ∧ P a b := by
  cases h with
  | none => exact .inl ⟨rfl, rfl⟩
  | some hab => exact .inr ⟨_, _, rfl, rfl, hab⟩

/-- Both walks end alike, and trip their guards equally often. -/
structure Guarded.Rel {α β : Type} (Q : α → β → Prop) (x : Guarded α) (y : Guarded β) : Prop where
  value : Q x.value y.value
  trips_eq : x.trips = y.trips

namespace Guarded.Rel

variable {α β γ δ : Type} {P : α → β → Prop} {Q : γ → δ → Prop}

theorem pure {a : α} {b : β} (h : P a b) : Guarded.Rel P (Pure.pure a) (Pure.pure b) := ⟨h, rfl⟩

theorem trip {a : α} {b : β} (h : P a b) : Guarded.Rel P (Guarded.trip a) (Guarded.trip b) :=
  ⟨h, rfl⟩

theorem bind {x : Guarded α} {y : Guarded β} {f : α → Guarded γ} {g : β → Guarded δ}
    (hxy : Guarded.Rel P x y) (hfg : ∀ a b, P a b → Guarded.Rel Q (f a) (g b)) :
    Guarded.Rel Q (x >>= f) (y >>= g) := by
  obtain ⟨hvalue, htrips⟩ := hfg _ _ hxy.value
  refine ⟨hvalue, ?_⟩
  rw [Guarded.trips_bind, Guarded.trips_bind, hxy.trips_eq, htrips]

/-- Walks that end in the same are the same. -/
theorem eq {x y : Guarded α} (h : Guarded.Rel Eq x y) : x = y := Guarded.eq_of h.value h.trips_eq

theorem of_eq {x y : Guarded α} (h : x = y) : Guarded.Rel Eq x y := ⟨congrArg _ h, congrArg _ h⟩

theorem mapM {f : α → Guarded γ} {g : β → Guarded δ}
    (hfg : ∀ a b, P a b → Guarded.Rel Q (f a) (g b)) {xs : List α} {ys : List β}
    (h : List.Forall₂ P xs ys) : Guarded.Rel (List.Forall₂ Q) (xs.mapM f) (ys.mapM g) := by
  induction h with
  | nil =>
    rw [List.mapM_nil, List.mapM_nil]
    exact .pure .nil
  | cons hab _ ih =>
    rw [List.mapM_cons, List.mapM_cons]
    refine (hfg _ _ hab).bind fun c d hcd => ih.bind fun cs ds hcds => ?_
    exact .pure (.cons hcd hcds)

theorem findM? {f : α → Guarded Bool} {g : β → Guarded Bool} (hfg : ∀ a b, P a b → f a = g b)
    {xs : List α} {ys : List β} (h : List.Forall₂ P xs ys) :
    Guarded.Rel (Option.Rel P) (xs.findM? f) (ys.findM? g) := by
  induction h with
  | nil => exact .pure .none
  | cons hab _ ih =>
    rw [List.findM?, List.findM?]
    refine (Guarded.Rel.of_eq (hfg _ _ hab)).bind fun p q hpq => ?_
    subst hpq
    cases p with
    | true => exact .pure (.some hab)
    | false => exact ih

/-- Walks that go on from what has been found, if something has. -/
theorem ofOption {f : α → Guarded γ} {g : β → Guarded δ} {c : Guarded γ} {d : Guarded δ}
    (hsome : ∀ a b, P a b → Guarded.Rel Q (f a) (g b)) (hnone : Guarded.Rel Q c d)
    {x : Option α} {y : Option β} : Option.Rel P x y → Guarded.Rel Q
      (match x with
        | some a => f a
        | none => c)
      (match y with
        | some b => g b
        | none => d) := by
  intro hxy
  rcases rel_cases hxy with ⟨hx, hy⟩ | ⟨a, b, hx, hy, hab⟩
  · rw [hx, hy]
    exact hnone
  · rw [hx, hy]
    exact hsome a b hab

end Guarded.Rel

theorem find?_rel {α β : Type} {P : α → β → Prop} {p : α → Bool} {q : β → Bool}
    (hpq : ∀ a b, P a b → p a = q b) {xs : List α} {ys : List β} (h : List.Forall₂ P xs ys) :
    Option.Rel P (xs.find? p) (ys.find? q) := by
  induction h with
  | nil => exact .none
  | @cons a b _ _ hab _ ih =>
    rw [List.find?_cons, List.find?_cons, hpq a b hab]
    cases q b with
    | true => exact .some hab
    | false => exact ih

variable {ν μ : Type}

/-- Both walks end nowhere, at related nodes, or with the same value. -/
inductive Resolved.Rel (R : ν → μ → Prop) : Resolved ν → Resolved μ → Prop
  | absent : Resolved.Rel R .absent .absent
  | node {n : ν} {m : μ} (h : R n m) : Resolved.Rel R (.node n) (.node m)
  | value (v : Json) : Resolved.Rel R (.value v) (.value v)

variable [TreeAccess ν] [TreeAccess μ]

/-- Children with equal keys, and related themselves. -/
def EntryRel (R : ν → μ → Prop) (x : ChildKey × ν) (y : ChildKey × μ) : Prop :=
  x.1 = y.1 ∧ R x.2 y.2

/-- Related nodes are the same to look at, and have related children. -/
structure Likeness (R : ν → μ → Prop) : Prop where
  kind_eq {n : ν} {m : μ} : R n m → kind n = kind m
  size_eq {n : ν} {m : μ} : R n m → size n = size m
  toJson_eq {n : ν} {m : μ} : R n m → toJson n = toJson m
  child? {n : ν} {m : μ} : R n m → ∀ key, Option.Rel R (child? n key) (child? m key)
  entries {n : ν} {m : μ} : R n m → List.Forall₂ (EntryRel R) (entries n) (entries m)

/-- Related nodes look alike, and answer alike when they are called. -/
structure Matching (R : ν → μ → Prop) : Prop extends Likeness R where
  call?_eq {n : ν} {m : μ} : R n m → call? n = call? m

/-- What is above related nodes is related, and two nodes have one identity on the one side just
when their counterparts have one on the other. -/
structure Climbing (R : ν → μ → Prop) (Same : Identity → Identity → Prop) : Prop where
  parent? {n : ν} {m : μ} : R n m → Option.Rel R (parent? n) (parent? m)
  identity? {n : ν} {m : μ} : R n m → Option.Rel Same (identity? n) (identity? m)
  biUnique : Relator.BiUnique Same

section Down

variable {R : ν → μ → Prop} (hR : Likeness R) {n : ν} {m : μ}
include hR

theorem Resolved.Rel.toJson?_eq {x : Resolved ν} {y : Resolved μ} (h : Resolved.Rel R x y) :
    x.toJson? = y.toJson? := by
  cases h with
  | absent | value => rfl
  | node hnm => exact congrArg some (hR.toJson_eq hnm)

theorem Resolved.Rel.slot_eq {x : Resolved ν} {y : Resolved μ} (h : Resolved.Rel R x y) :
    x.slot = y.slot := by
  rw [slot, slot, h.toJson?_eq hR]

theorem Resolved.Rel.kind?_eq {x : Resolved ν} {y : Resolved μ} (h : Resolved.Rel R x y) :
    x.kind? = y.kind? := by
  cases h with
  | absent | value => rfl
  | node hnm => exact congrArg some (hR.kind_eq hnm)

theorem Resolved.Rel.count_eq {x : Resolved ν} {y : Resolved μ} (h : Resolved.Rel R x y) :
    x.count = y.count := by
  cases h with
  | absent | value => rfl
  | node hnm => simp only [count, hR.kind_eq hnm, hR.size_eq hnm]

theorem Resolved.Rel.entries_eq {x : Resolved ν} {y : Resolved μ} (h : Resolved.Rel R x y) :
    x.entries = y.entries := by
  cases h with
  | absent | value => rfl
  | @node n m hnm =>
    have hentries : List.Forall₂ Eq
        ((TreeAccess.entries n).map fun entry => (entry.1, TreeAccess.toJson entry.2))
        ((TreeAccess.entries m).map fun entry => (entry.1, TreeAccess.toJson entry.2)) :=
      List.rel_map (fun x y hxy => by rw [hxy.1, hR.toJson_eq hxy.2]) (hR.entries hnm)
    rwa [List.forall₂_eq_eq_eq] at hentries

theorem hasIdentity_eq (h : R n m) (idField name : String) :
    hasIdentity idField name n = hasIdentity idField name m := by
  unfold hasIdentity
  rcases rel_cases (hR.child? h (.name idField)) with ⟨hn, hm⟩ | ⟨a, b, hn, hm, hab⟩
  · rw [hn, hm]
  · rw [hn, hm]
    simp only [hR.toJson_eq hab]

theorem lookupKey_rel (h : R n m) (idField name : String) :
    Option.Rel R (lookupKey idField name n) (lookupKey idField name m) := by
  unfold lookupKey
  rcases rel_cases (hR.child? h (.name name)) with ⟨hn, hm⟩ | ⟨a, b, hn, hm, hab⟩
  · rw [hn, hm, hR.kind_eq h]
    simp only
    split
    · have hfound := find?_rel (fun x y (hxy : EntryRel R x y) =>
        hasIdentity_eq hR hxy.2 idField name) (hR.entries h)
      rcases rel_cases hfound with ⟨hx, hy⟩ | ⟨x, y, hx, hy, hxy⟩
      · rw [hx, hy]
        exact .none
      · rw [hx, hy]
        exact .some hxy.2
    · exact .none
  · rw [hn, hm]
    exact .some hab

theorem lookupIndex_rel (h : R n m) (i : Int64) :
    Option.Rel R (lookupIndex i n) (lookupIndex i m) := by
  unfold lookupIndex
  rw [hR.kind_eq h, hR.size_eq h]
  split
  · cases place? i (size m) with
    | none => exact .none
    | some k => exact hR.child? h (.index k)
  · exact hR.child? h _

/-- The elements at the given positions, as far as there are any. -/
theorem picked_rel (h : R n m) (positions : List Nat) :
    List.Forall₂ (EntryRel R)
      (positions.filterMap fun i =>
        (child? n (.index i)).map fun child => (ChildKey.index i, child))
      (positions.filterMap fun i =>
        (child? m (.index i)).map fun child => (ChildKey.index i, child)) := by
  refine List.rel_filterMap ?_ (List.forall₂_same.mpr fun _ _ => rfl)
  intro i j hij
  subst hij
  rcases rel_cases (hR.child? h (.index i)) with ⟨hn, hm⟩ | ⟨a, b, hn, hm, hab⟩
  · simp only [hn, hm]
    exact .none
  · simp only [hn, hm]
    exact .some ⟨rfl, hab⟩

omit [TreeAccess ν] [TreeAccess μ] hR in
/-- The children at which a check succeeds that does not tell related nodes apart. -/
theorem marked_rel {check : ν → Guarded Bool} {check' : μ → Guarded Bool}
    (hcheck : ∀ n m, R n m → check n = check' m) {children : List (ChildKey × ν)}
    {others : List (ChildKey × μ)} (h : List.Forall₂ (EntryRel R) children others) :
    Guarded.Rel
      (fun xs ys =>
        List.Forall₂ (EntryRel R) ((xs.filter (·.2)).map (·.1)) ((ys.filter (·.2)).map (·.1)))
      (children.mapM fun entry => do return (entry, ← check entry.2))
      (others.mapM fun entry => do return (entry, ← check' entry.2)) := by
  have hmarks := Guarded.Rel.mapM
    (P := EntryRel R) (Q := fun x y => EntryRel R x.1 y.1 ∧ x.2 = y.2)
    (f := fun entry : ChildKey × ν => do return (entry, ← check entry.2))
    (g := fun entry : ChildKey × μ => do return (entry, ← check' entry.2))
    (fun x y hxy => by
      rw [hcheck _ _ hxy.2]
      exact (Guarded.Rel.of_eq rfl).bind fun p q hpq => .pure ⟨hxy, hpq⟩)
    h
  have hkept := List.rel_filter (p := (·.2)) (q := (·.2))
    (fun x y hxy => by simp only [hxy.2]) hmarks.value
  exact ⟨List.rel_map (fun x y hxy => hxy.1) hkept, hmarks.trips_eq⟩

theorem spread_rel {children : List (ChildKey × ν)} {others : List (ChildKey × μ)}
    (h : List.Forall₂ (EntryRel R) children others) (k : NodeKind)
    {visit : ν → Guarded (Resolved ν)} {visit' : μ → Guarded (Resolved μ)}
    (hvisit : ∀ n m, R n m → Guarded.Rel (Resolved.Rel R) (visit n) (visit' m)) :
    Guarded.Rel (Resolved.Rel R) (spread k children visit) (spread k others visit') := by
  unfold spread
  have hresults := Guarded.Rel.mapM (Q := Eq)
    (f := fun x : ChildKey × ν => do return (x.1, (← visit x.2).slot))
    (g := fun y : ChildKey × μ => do return (y.1, (← visit' y.2).slot))
    (fun x y hxy => (hvisit _ _ hxy.2).bind fun a b hab => .pure (by rw [hxy.1, hab.slot_eq hR])) h
  refine hresults.bind fun xs ys hxs => ?_
  rw [List.forall₂_eq_eq_eq] at hxs
  subst hxs
  exact .pure (.value _)

theorem atLeaves_rel {visit : Nat → ν → Guarded (Resolved ν)}
    {visit' : Nat → μ → Guarded (Resolved μ)}
    (hvisit : ∀ depth n m, R n m → Guarded.Rel (Resolved.Rel R) (visit depth n) (visit' depth m))
    (left depth : Nat) (h : R n m) :
    Guarded.Rel (Resolved.Rel R) (atLeaves visit left depth n) (atLeaves visit' left depth m) := by
  induction left generalizing depth n m with
  | zero => exact .trip .absent
  | succ left ih =>
    rw [atLeaves, atLeaves, hR.kind_eq h]
    split
    · exact hvisit (depth + 1) n m h
    · exact spread_rel hR (hR.entries h) _ fun n m h => ih (depth + 1) h

end Down

section Up

variable {R : ν → μ → Prop} {Same : Identity → Identity → Prop} (hR : Likeness R)
  (hup : Climbing R Same) {n : ν} {m : μ} {seen seen' : List Identity}

include hup

theorem isRevisited_eq (hseen : List.Forall₂ Same seen seen') (h : R n m) :
    isRevisited seen n = isRevisited seen' m := by
  unfold isRevisited
  rcases rel_cases (hup.identity? h) with ⟨hn, hm⟩ | ⟨a, b, hn, hm, hab⟩
  · rw [hn, hm]
  · rw [hn, hm]
    simp only [List.contains_eq_mem]
    exact decide_eq_decide.mpr (List.rel_mem hup.biUnique hab hseen)

theorem see_rel (hseen : List.Forall₂ Same seen seen') (h : R n m) :
    List.Forall₂ Same (see seen n) (see seen' m) := by
  unfold see
  rcases rel_cases (hup.identity? h) with ⟨hn, hm⟩ | ⟨a, b, hn, hm, hab⟩
  · rw [hn, hm]
    exact hseen
  · rw [hn, hm]
    exact .cons hab hseen

theorem climb_rel (left : Nat) (hseen : List.Forall₂ Same seen seen') (h : R n m) :
    Guarded.Rel R (climb left seen n) (climb left seen' m) := by
  induction left generalizing seen seen' n m with
  | zero =>
    unfold climb
    rcases rel_cases (hup.parent? h) with ⟨hn, hm⟩ | ⟨p, q, hn, hm, hpq⟩
    · rw [hn, hm]
      exact .pure h
    · rw [hn, hm]
      simp only [isRevisited_eq hup hseen hpq]
      split
      · exact .trip h
      · exact .trip h
  | succ left ih =>
    unfold climb
    rcases rel_cases (hup.parent? h) with ⟨hn, hm⟩ | ⟨p, q, hn, hm, hpq⟩
    · rw [hn, hm]
      exact .pure h
    · rw [hn, hm]
      simp only [isRevisited_eq hup hseen hpq]
      split
      · exact .trip h
      · exact ih (see_rel hup hseen hpq) hpq

/-- Where nothing is found the parents are asked, and these match. -/
theorem orAbove_rel {above : ν → Guarded (Resolved ν)} {above' : μ → Guarded (Resolved μ)}
    (h : R n m) (habove : ∀ p q, R p q → Guarded.Rel (Resolved.Rel R) (above p) (above' q))
    {x : Guarded (Resolved ν)} {y : Guarded (Resolved μ)} (hxy : Guarded.Rel (Resolved.Rel R) x y) :
    Guarded.Rel (Resolved.Rel R)
      (x >>= fun found => match found with
        | .absent => match parent? n with
          | some p => above p
          | none => pure .absent
        | found => pure found)
      (y >>= fun found => match found with
        | .absent => match parent? m with
          | some q => above' q
          | none => pure .absent
        | found => pure found) := by
  apply hxy.bind
  intro found found' hfound
  cases hfound with
  | absent => exact .ofOption habove (.pure .absent) (hup.parent? h)
  | node hnm => exact .pure (.node hnm)
  | value v => exact .pure (.value v)

include hR

theorem closest_rel {visit : ν → Guarded (Resolved ν)} {visit' : μ → Guarded (Resolved μ)}
    (hvisit : ∀ n m, R n m → Guarded.Rel (Resolved.Rel R) (visit n) (visit' m)) (left : Nat)
    (hseen : List.Forall₂ Same seen seen') (h : R n m) :
    Guarded.Rel (Resolved.Rel R) (closest visit left seen n) (closest visit' left seen' m) := by
  induction left generalizing seen seen' n m with
  | zero =>
    unfold closest
    rw [isRevisited_eq hup hseen h]
    split
    · exact .trip .absent
    · exact .trip .absent
  | succ left ih =>
    unfold closest
    rw [isRevisited_eq hup hseen h, hR.kind_eq h]
    split
    · exact .trip .absent
    · simp only
      have habove : ∀ p q, R p q → Guarded.Rel (Resolved.Rel R)
          (closest visit left (see seen n) p) (closest visit' left (see seen' m) q) :=
        fun p q hpq => ih (see_rel hup hseen h) hpq
      split
      · exact orAbove_rel hup h habove (.pure .absent)
      · exact orAbove_rel hup h habove (hvisit n m h)

theorem siblings_rel {p : ν} {q : μ} (h : R n m) (hp : R p q) :
    List.Forall₂ (EntryRel R) (siblings n p) (siblings m q) := by
  unfold siblings
  rcases rel_cases (hup.identity? h) with ⟨hn, hm⟩ | ⟨a, b, hn, hm, hab⟩
  · rw [hn, hm]
    exact hR.entries hp
  · rw [hn, hm]
    refine List.rel_filter (fun x y hxy => ?_) (hR.entries hp)
    have hother : Option.Rel Same (identity? x.2) (identity? y.2) := hup.identity? hxy.2
    rcases rel_cases hother with ⟨hx, hy⟩ | ⟨c, d, hx, hy, hcd⟩
    · simp [hx, hy]
    · have hsame : c = a ↔ d = b := Relator.rel_eq hup.biUnique hcd hab
      simp [hx, hy, hsame]

end Up

end TreePath

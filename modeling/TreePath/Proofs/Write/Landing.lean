import TreePath.Proofs.Write.Frame
import TreePath.Proofs.Write.Untripped

namespace TreePath

open TreeUpdate Json

/-- Every name and every position on the path means a child, which need not be there yet. -/
def Leads (config : Config) : Path → Json → Prop
  | [], _ => True
  | s :: rest, t => ∃ key u, slot? config s t = some (key, u) ∧
    Leads config rest ((u.child? key).getD .null)

/-- What a write along the path gets to; null for what is missing. -/
def landing (config : Config) : Path → Json → Json
  | [], t => t
  | s :: rest, t =>
    match slot? config s t with
    | some (key, u) => landing config rest ((u.child? key).getD .null)
    | none => .null

/-- The value with `v` where a write along the path gets to, and all that is made on the way. -/
def plant (config : Config) (v : Json) : Path → Json → Json
  | [], _ => v
  | s :: rest, t =>
    match slot? config s t with
    | some (key, u) => u.putChild key (plant config v rest ((u.child? key).getD .null))
    | none => t

section Planting

variable (config : Config) {s : Segment} {p rest : Path} {t u d v w : Json} {key : ChildKey}
  {depth : Nat}

theorem landing_slot (hslot : slot? config s t = some (key, u)) :
    landing config (s :: rest) t = landing config rest ((u.child? key).getD .null) := by
  rw [landing, hslot]

theorem plant_slot (hslot : slot? config s t = some (key, u)) :
    plant config v (s :: rest) t =
      u.putChild key (plant config v rest ((u.child? key).getD .null)) := by
  rw [plant, hslot]

theorem leads_slot (hslot : slot? config s t = some (key, u)) :
    Leads config (s :: rest) t ↔ Leads config rest ((u.child? key).getD .null) := by
  constructor
  · intro h
    obtain ⟨k, w, hfound, hrest⟩ := h
    rw [hslot] at hfound
    obtain ⟨rfl, rfl⟩ := Prod.mk.inj (Option.some.inj hfound)
    exact hrest
  · exact fun h => ⟨key, u, hslot, h⟩

theorem wellFormed_child (hu : u.WellFormed) (key : ChildKey) :
    ((u.child? key).getD .null).WellFormed := by
  cases hc : u.child? key with
  | none => trivial
  | some c => exact wellFormed_child? hu hc

theorem wellFormed_landing (ht : t.WellFormed) : (landing config p t).WellFormed := by
  induction p generalizing t with
  | nil => exact ht
  | cons s rest ih =>
    cases hslot : slot? config s t with
    | none =>
      rw [landing, hslot]
      trivial
    | some found =>
      rw [landing_slot config hslot]
      exact ih (wellFormed_child (slot_of_slot? ht hslot).wellFormed found.1)

theorem wellFormed_plant (ht : t.WellFormed) (hv : v.WellFormed) :
    (plant config v p t).WellFormed := by
  induction p generalizing t with
  | nil => exact hv
  | cons s rest ih =>
    cases hslot : slot? config s t with
    | none =>
      rw [plant, hslot]
      exact ht
    | some found =>
      have hin := slot_of_slot? ht hslot
      rw [plant_slot config hslot]
      exact wellFormed_putChild hin.wellFormed (ih (wellFormed_child hin.wellFormed _)) _

/-- A child that is there and is meant by a segment is meant in the container as it is. -/
theorem slot?_of_child (ht : t.WellFormed) (hslot : slot? config s t = some (key, u)) {c : Json}
    (hc : t.child? key = some c) : u = t := by
  rcases (slot_of_slot? ht hslot).origin with hsame | ⟨name, items, -, rfl, rfl, -⟩
  · have hnull : t ≠ .null := by
      intro hnull
      subst hnull
      cases key <;> cases hc
    rw [hsame, orEmpty_of_ne s.container hnull]
  · have hnone : (Json.arr items).child? (.index items.length) = none :=
      List.getElem?_eq_none (Nat.le_refl _)
    rw [hnone] at hc
    cases hc

/-- As long as the way stays the same, the place keeps what is put there, and what is put there next
takes its place. -/
theorem plant_stable (ht : t.WellFormed) (hv : v.WellFormed) (hleads : Leads config p t)
    (hdepth : depth + p.length ≤ config.maxDepth + 1)
    (hroute : route config depth p (plant config v p t) = route config depth p t) :
    Leads config p (plant config v p t) ∧ landing config p (plant config v p t) = v ∧
      ∀ w, plant config w p (plant config v p t) = plant config w p t := by
  induction p generalizing t depth with
  | nil => exact ⟨trivial, rfl, fun w => rfl⟩
  | cons s rest ih =>
    obtain ⟨key, u, hslot, hrest⟩ := hleads
    rw [List.length_cons] at hdepth
    have hin := slot_of_slot? ht hslot
    have hinside := wellFormed_child hin.wellFormed key
    obtain ⟨d, hd⟩ : ∃ d, d = plant config v rest ((u.child? key).getD .null) := ⟨_, rfl⟩
    have hput : (u.putChild key d).WellFormed :=
      wellFormed_putChild hin.wellFormed (hd ▸ wellFormed_plant config hinside hv) key
    have hchild := child?_putChild hin.lists.accepts d
    rw [plant_slot config hslot, ← hd] at hroute ⊢
    rw [route_slot config (by omega) hslot] at hroute
    -- the way leads to the same child, so the container is entered as it is
    obtain ⟨w, hagain⟩ : ∃ w, slot? config s (u.putChild key d) = some (key, w) := by
      cases hfound : slot? config s (u.putChild key d) with
      | none =>
        rw [route_refused config hfound] at hroute
        cases hroute
      | some found =>
        rw [route_slot config (by omega) hfound] at hroute
        exact ⟨found.2, by rw [← (List.cons.inj hroute).1]⟩
    obtain rfl := slot?_of_child config hput hagain hchild
    rw [route_slot config (by omega) hagain, hchild] at hroute
    have hbelow := (List.cons.inj hroute).2
    rw [Option.getD_some, hd] at hbelow
    obtain ⟨hleads, hlanding, hplant⟩ := ih hinside hrest (by omega) hbelow
    rw [← hd] at hleads hlanding hplant
    refine ⟨?_, ?_, ?_⟩
    · rw [leads_slot config hagain, hchild]
      exact hleads
    · rw [landing_slot config hagain, hchild]
      exact hlanding
    · intro w
      rw [plant_slot config hagain, plant_slot config hslot, hchild, Option.getD_some, hplant,
        putChild_putChild hin.lists.accepts]

/-- What stands where the way leads to is what a write gets to, and to put it there again changes
nothing. -/
theorem plant_has (ht : t.WellFormed) (hleads : Leads config p t)
    (hdepth : depth + p.length ≤ config.maxDepth + 1) (h : t.Has (route config depth p t) v) :
    landing config p t = v ∧ plant config v p t = t := by
  induction p generalizing t depth with
  | nil =>
    have hsame : t = v := h.symm
    exact ⟨hsame, hsame.symm⟩
  | cons s rest ih =>
    obtain ⟨key, u, hslot, hrest⟩ := hleads
    rw [List.length_cons] at hdepth
    rw [route_slot config (by omega) hslot] at h
    obtain ⟨c, hc, hinside⟩ := h
    have hchild := child?_of_mem ht hc
    obtain rfl := slot?_of_child config ht hslot hchild
    rw [hchild] at hrest hinside
    obtain ⟨hlanding, hplant⟩ := ih (wellFormed_child? ht hchild) hrest (by omega) hinside
    rw [landing_slot config hslot, plant_slot config hslot, hchild]
    refine ⟨hlanding, ?_⟩
    rw [Option.getD_some, hplant, putChild_child? ht hchild]

/-- A missing value leads on as the container does that is made of it. -/
theorem leads_filled {child : Option Json} (h : Leads config (s :: rest) (orEmpty s.container child)) :
    Leads config (s :: rest) (child.getD .null) ∧
      landing config (s :: rest) (orEmpty s.container child) =
        landing config (s :: rest) (child.getD .null) ∧
      ∀ v, plant config v (s :: rest) (orEmpty s.container child) =
        plant config v (s :: rest) (child.getD .null) := by
  obtain ⟨key, u, hslot, hrest⟩ := h
  have hsame := slot?_filled config s child
  rw [hslot] at hsame
  rw [landing_slot config hslot, landing_slot config hsame.symm]
  refine ⟨⟨key, u, hsame.symm, hrest⟩, rfl, fun v => ?_⟩
  rw [plant_slot config hslot, plant_slot config hsame.symm]

end Planting

section Writing

variable (config : Config) {patch : Patch} {s : Segment} {p rest : Path} {t u v d : Json}
  {key : ChildKey} {depth n : Nat}

/-- Along names and positions, a write leaves a value whose fields are in order. -/
theorem writeAt_wellFormed (hpatch : patch.WellFormed) (hremoval : patch.isRemoval = false)
    (hp : p.IsConcrete) (done : Path) (depth : Nat) (ht : t.WellFormed) :
    (writeAt config patch done p depth : Write Json Nat).Leaves t fun _ u => u.WellFormed := by
  induction p generalizing done depth t with
  | nil =>
    rw [writeAt]
    split
    · exact .trip ht
    · rw [writeOn]
      refine (finish_leaves config hpatch hremoval none depth ht (by simp [AcceptsAt])).imp ?_
      intro _ _ hend
      obtain ⟨_, w, hw, -, rfl, -⟩ := hend
      exact hw
  | cons s rest ih =>
    rw [writeAt]
    split
    · exact .trip ht
    · apply writeOn_slot config done hp.head hremoval rest depth ht
      · intro _ _ _
        exact wellFormed_filled_self s.container ht
      · intro _ key u hslot
        have hin := slot_of_slot? ht hslot
        refine (finish_leaves config hpatch hremoval (some key) depth hin.wellFormed
          (acceptsAt_some hin.lists.accepts)).imp ?_
        intro _ _ hend
        obtain ⟨_, w, hw, -, rfl, -⟩ := hend
        exact wellFormed_putChild hin.wellFormed hw key
      · intro after more hmore key u hslot
        subst hmore
        have hin := slot_of_slot? ht hslot
        have hchild : (orEmpty after.container (u.child? key)).WellFormed :=
          wellFormed_filled_child after.container hin.wellFormed key
        refine (ih hp.tail (done.append s) (depth + 1) hchild).imp ?_
        exact fun _ d hd => wellFormed_putChild hin.wellFormed hd key

theorem enter_slot (done : Path) (hs : s.isConcrete = true) (ht : t.WellFormed)
    (hslot : slot? config s t = some (key, u)) :
    (enter config done s false : Write Json (Option ChildKey)) t = ⟨.ok (some key), u, 0⟩ := by
  have henters := enter_leaves config done hs ht
  have htrips := enter_untripped config done s false t
  unfold Write.Leaves at henters
  rcases hrun : (enter config done s false : Write Json (Option ChildKey)) t with ⟨r, w, trips⟩
  rw [hrun] at henters htrips
  rcases henters with ⟨hfound⟩ | ⟨hnone, -⟩
  · obtain ⟨rfl, rfl⟩ := Prod.mk.inj (Option.some.inj (hfound.symm.trans hslot))
    exact congrArg (Outcome.mk _ _) htrips
  · cases hnone.symm.trans hslot

/-- The depth limit has not been reached where a write does not trip the guard. -/
theorem depth_of_writeAt {done : Path}
    (h : (writeAt config patch done p depth : Write Json Nat) t = ⟨.ok n, u, 0⟩) :
    ¬config.maxDepth < depth := by
  intro hdeep
  rw [writeAt, if_pos hdeep] at h
  simp [Write.trip] at h

/-- To write into a missing value is to write into the container that is made of it. -/
theorem writeAt_filled (hs : s.isConcrete = true) (hremoval : patch.isRemoval = false) (done : Path)
    (hdepth : ¬config.maxDepth < depth) (child : Option Json) :
    (writeAt config patch done (s :: rest) depth : Write Json Nat) (orEmpty s.container child) =
      (writeAt config patch done (s :: rest) depth : Write Json Nat) (child.getD .null) := by
  rw [writeAt, if_neg hdepth, writeOn_concrete config patch done hs, hremoval, Write.bind_apply,
    Write.bind_apply, enter_eq, enter_eq, orEmpty_orEmpty, orEmpty_getD]

/-- What the rest of a path does to the child that a segment means, the whole path does to the
container. -/
theorem writeAt_slot (hs : s.isConcrete = true) (hrest : rest.IsConcrete)
    (hremoval : patch.isRemoval = false) (done : Path) (ht : t.WellFormed)
    (hslot : slot? config s t = some (key, u))
    (h : (writeAt config patch (done.append s) rest (depth + 1) : Write Json Nat)
      ((u.child? key).getD .null) = ⟨.ok n, d, 0⟩) :
    (writeAt config patch done (s :: rest) depth : Write Json Nat) t =
      ⟨.ok n, u.putChild key d, 0⟩ := by
  have hdepth := depth_of_writeAt config h
  have hin := slot_of_slot? ht hslot
  rw [writeAt, if_neg (by omega), writeOn_concrete config patch done hs, hremoval,
    Write.bind_ok (enter_slot config done hs ht hslot)]
  simp only
  cases rest with
  | nil =>
    rw [writeAt, if_neg hdepth, writeOn] at h
    rw [writeBelow, finish_under config hremoval hin.wellFormed hin.lists.accepts,
      (finish_upward config patch none (Nat.le_succ depth)).ok h]
    rfl
  | cons after more =>
    rw [writeBelow_eq config hremoval done s after more depth hin.wellFormed hin.lists.accepts
      hin.fits, writeAt_filled config hrest.head hremoval _ hdepth, h]

/-- A write that goes on below a segment has written to the child that the segment means. -/
theorem writeAt_below {after : Segment} {more done : Path} (hs : s.isConcrete = true)
    (hremoval : patch.isRemoval = false) (ht : t.WellFormed)
    (h : (writeAt config patch done (s :: after :: more) depth : Write Json Nat) t =
      ⟨.ok n, v, 0⟩) :
    ∃ key u d, slot? config s t = some (key, u) ∧ v = u.putChild key d ∧
      (writeAt config patch (done.append s) (after :: more) (depth + 1) : Write Json Nat)
        (orEmpty after.container (u.child? key)) = ⟨.ok n, d, 0⟩ := by
  have hdepth := depth_of_writeAt config h
  rw [writeAt, if_neg hdepth, writeOn_concrete config patch done hs, hremoval] at h
  obtain ⟨entered, u, henter, hbelow⟩ := Write.eq_of_bind h
  have henters := enter_leaves config done hs ht
  rw [Write.Leaves, henter] at henters
  obtain @⟨key, _, hslot⟩ := henters
  have hin := slot_of_slot? ht hslot
  simp only at hbelow
  rw [writeBelow_eq config hremoval done s after more depth hin.wellFormed hin.lists.accepts
    hin.fits] at hbelow
  rcases hinside : (writeAt config patch (done.append s) (after :: more) (depth + 1) :
    Write Json Nat) (orEmpty after.container (u.child? key)) with ⟨r, d, trips⟩
  simp only [hinside, Outcome.mk.injEq] at hbelow
  obtain ⟨rfl, rfl, rfl⟩ := hbelow
  exact ⟨key, u, d, hslot, rfl, hinside⟩

/-- What the rest of a path does where a write gets to, the whole path does there. -/
theorem writeAt_append (hp : p.IsConcrete) (hrest : rest.IsConcrete)
    (hremoval : patch.isRemoval = false) (done other : Path) (ht : t.WellFormed)
    (hleads : Leads config p t) {lower : Nat} (hlower : depth + p.length ≤ lower)
    (h : (writeAt config patch other rest lower : Write Json Nat) (landing config p t) =
      ⟨.ok n, d, 0⟩) :
    (writeAt config patch done (p ++ rest) depth : Write Json Nat) t =
      ⟨.ok n, plant config d p t, 0⟩ := by
  induction p generalizing done depth t with
  | nil => exact (writeAt_upward config patch other done rest (by simpa using hlower)).ok h
  | cons s p ih =>
    obtain ⟨key, u, hslot, hbelow⟩ := hleads
    rw [List.length_cons] at hlower
    have hin := slot_of_slot? ht hslot
    rw [landing_slot config hslot] at h
    rw [plant_slot config hslot, List.cons_append]
    apply writeAt_slot config hp.head (hp.tail.append hrest) hremoval done ht hslot
    exact ih hp.tail (done.append s) (wellFormed_child hin.wellFormed key) hbelow (by omega) h

/-- A write that goes on behind `p` has done so where it gets to along `p`; a missing value there has
become a container for what comes next. -/
theorem writeAt_through {after : Segment} {more : Path} (hp : p.IsConcrete)
    (hremoval : patch.isRemoval = false) (done : Path) (ht : t.WellFormed)
    (h : (writeAt config patch done (p ++ after :: more) depth : Write Json Nat) t =
      ⟨.ok n, v, 0⟩) :
    Leads config p t ∧ depth + p.length ≤ config.maxDepth ∧ ∃ start d,
      (start = landing config p t ∨
        p ≠ [] ∧ start = orEmpty after.container (some (landing config p t))) ∧
      v = plant config d p t ∧
      (writeAt config patch (done ++ p) (after :: more) (depth + p.length) : Write Json Nat) start =
        ⟨.ok n, d, 0⟩ := by
  induction p generalizing done depth t v with
  | nil =>
    have hdepth := depth_of_writeAt config h
    refine ⟨trivial, Nat.le_of_not_lt hdepth, t, v, .inl rfl, rfl, ?_⟩
    rw [List.append_nil]
    exact h
  | cons s p ih =>
    rw [List.length_cons]
    cases p with
    | nil =>
      obtain ⟨key, u, d, hslot, rfl, hinside⟩ := writeAt_below config hp.head hremoval ht h
      have hdepth := depth_of_writeAt config hinside
      rw [leads_slot config hslot, landing_slot config hslot]
      refine ⟨trivial, Nat.le_of_not_lt hdepth, _, d, .inr ⟨List.cons_ne_nil _ _, rfl⟩, ?_, ?_⟩
      · rw [plant_slot config hslot]
        rfl
      · rw [landing, orEmpty_getD]
        exact hinside
    | cons next p =>
      obtain ⟨key, u, d, hslot, rfl, hinside⟩ := writeAt_below config hp.head hremoval ht h
      have hin := slot_of_slot? ht hslot
      have hchild : (orEmpty next.container (u.child? key)).WellFormed :=
        wellFormed_filled_child next.container hin.wellFormed key
      obtain ⟨hleads, hdepth, start, e, hstart, rfl, hrun⟩ :=
        ih hp.tail (done.append s) hchild hinside
      obtain ⟨hthere, hlanding, hplant⟩ := leads_filled config hleads
      have hdone : done.append s ++ next :: p = done ++ s :: next :: p := by simp [Path.append]
      have hdeep : depth + 1 + (next :: p).length = depth + ((next :: p).length + 1) := by omega
      have hplanted : u.putChild key (plant config e (next :: p)
          (orEmpty next.container (u.child? key))) = plant config e (s :: next :: p) t := by
        rw [plant_slot config hslot, hplant]
      rw [hlanding] at hstart
      rw [hdone, hdeep] at hrun
      rw [leads_slot config hslot, landing_slot config hslot]
      exact ⟨hthere, by omega, start, e,
        hstart.imp_right fun hmade => ⟨List.cons_ne_nil _ _, hmade.2⟩, hplanted, hrun⟩

end Writing

end TreePath

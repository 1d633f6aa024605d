import Mathlib
import TreePath.Proofs.Write.Landing
import TreePath.Proofs.Write.ReadAfterWrite

namespace TreePath

open TreeUpdate Json

/-- The writes along the paths from `p` through each of the alternatives to `q`, in turn. -/
def writeExpanded (config : Config) (patch : Patch) (p : Path) (alternatives : List Path)
    (q : Path) : Write Json Nat :=
  Write.sum (fun a => write config (p ++ (a ++ q)) patch) alternatives

/-- No expanded write but the last one changes the way along `p`. -/
def WayStays (config : Config) (patch : Patch) (p : Path) (alternatives : List Path) (q : Path)
    (t : Json) : Prop :=
  ∀ front behind, alternatives = front ++ behind → behind ≠ [] →
    route config 0 p (writeExpanded config patch p front q t).tree = route config 0 p t

section Alternatives

variable (config : Config) {patch : Patch} {p q : Path} {alternatives : List Path} {t d : Json}
  {n depth : Nat}

theorem writeExpanded_cons {a : Path} {u : Json} {m : Nat}
    (h : write config (p ++ (a ++ q)) patch t = ⟨.ok m, u, 0⟩) (more : List Path) :
    writeExpanded config patch p (a :: more) q t =
      let o := writeExpanded config patch p more q u
      ⟨o.result.map (m + ·), o.tree, o.trips⟩ := by
  unfold writeExpanded
  rw [Write.sum, Write.bind_ok h, Write.bind_apply]
  rcases Write.sum (fun a => write config (p ++ (a ++ q)) patch) more u with ⟨result, w, trips⟩
  cases result <;> rfl

/-- Behind the first expanded write, the way is what it was, and stays so. -/
theorem WayStays.step {a : Path} {more : List Path} {u : Json} {m : Nat}
    (h : WayStays config patch p (a :: more) q t)
    (hfirst : write config (p ++ (a ++ q)) patch t = ⟨.ok m, u, 0⟩) (hmore : more ≠ []) :
    route config 0 p u = route config 0 p t ∧ WayStays config patch p more q u := by
  have hsame : route config 0 p u = route config 0 p t := by
    have hone := h [a] more rfl hmore
    rw [writeExpanded_cons config hfirst] at hone
    exact hone
  refine ⟨hsame, fun front behind hsplit hbehind => ?_⟩
  have hfront := h (a :: front) behind (congrArg (a :: ·) hsplit) hbehind
  rw [writeExpanded_cons config hfirst] at hfront
  exact hfront.trans hsame.symm

/-- What the alternatives do in turn where `p` leads to, the expanded paths do in turn. -/
theorem writeExpanded_eq (hpatch : patch.WellFormed) (hremoval : patch.isRemoval = false)
    (hp : p.IsConcrete) (hq : q.IsConcrete) (halternatives : ∀ a ∈ alternatives, a.IsConcrete)
    (ht : t.WellFormed) (hleads : Leads config p t) (hdepth : p.length ≤ config.maxDepth + 1)
    {lower : Nat} (hlower : p.length ≤ lower) (hway : WayStays config patch p alternatives q t)
    (hnone : alternatives = [] → plant config (landing config p t) p t = t)
    (hrun : (writeAlternately config patch alternatives q lower : Write Json Nat)
      (landing config p t) = ⟨.ok n, d, 0⟩) :
    writeExpanded config patch p alternatives q t = ⟨.ok n, plant config d p t, 0⟩ := by
  induction alternatives generalizing t n with
  | nil =>
    rw [writeAlternately] at hrun
    obtain ⟨rfl, rfl⟩ : 0 = n ∧ landing config p t = d := by simpa using hrun
    rw [hnone rfl]
    rfl
  | cons a more ih =>
    have ha : a.IsConcrete := halternatives a List.mem_cons_self
    rw [writeAlternately, ha.selectsChildren.absolute_eq] at hrun
    obtain ⟨m, e, hfirst, hothers⟩ := Write.eq_of_bind hrun
    obtain ⟨k, e', hmore, hlast⟩ := Write.eq_of_bind hothers
    obtain ⟨rfl, rfl⟩ : m + k = n ∧ e' = d := by simpa using hlast
    have he : e.WellFormed := by
      have hleaves := writeAt_wellFormed config hpatch hremoval (ha.append hq) [] lower
        (wellFormed_landing config (p := p) ht)
      rw [Write.Leaves, hfirst] at hleaves
      exact hleaves
    have hplanted : (write config (p ++ (a ++ q)) patch : Write Json Nat) t =
        ⟨.ok m, plant config e p t, 0⟩ := by
      rw [(hp.append (ha.append hq)).selectsChildren.write_eq]
      exact writeAt_append config hp (ha.append hq) hremoval [] [] ht hleads (by omega) hfirst
    have hrest : writeExpanded config patch p more q (plant config e p t) =
        ⟨.ok k, plant config e' p t, 0⟩ := by
      cases more with
      | nil =>
        rw [writeAlternately] at hmore
        obtain ⟨rfl, rfl⟩ : 0 = k ∧ e = e' := by simpa using hmore
        rfl
      | cons b rest =>
        obtain ⟨hroute, hstays⟩ := hway.step config hplanted (List.cons_ne_nil _ _)
        obtain ⟨hleads', hlanding, hplant⟩ :=
          plant_stable config ht he hleads (by omega) hroute
        rw [← hlanding] at hmore
        rw [← hplant e']
        exact ih (fun c hc => halternatives c (List.mem_cons_of_mem _ hc))
          (wellFormed_plant config ht he) hleads' hstays
          (fun hnil => absurd hnil (List.cons_ne_nil _ _)) hmore
    rw [writeExpanded_cons config hplanted, hrest]
    rfl

/-- A missing value that has become a sequence for the union is one for a position as well. -/
theorem writeAlternately_filled (hremoval : patch.isRemoval = false) {a rest : Path}
    {more : List Path} (ha : a.IsConcrete) {i : Int64} (hfirst : a ++ q = .index i :: rest)
    {found : Json} (h : (writeAlternately config patch (a :: more) q depth : Write Json Nat)
      (orEmpty .sequence (some found)) = ⟨.ok n, d, 0⟩) :
    (writeAlternately config patch (a :: more) q depth : Write Json Nat) found = ⟨.ok n, d, 0⟩ := by
  rw [writeAlternately, ha.selectsChildren.absolute_eq, hfirst] at h ⊢
  obtain ⟨m, e, hrun, hothers⟩ := Write.eq_of_bind h
  have hsame : (writeAt config patch [] (.index i :: rest) depth : Write Json Nat)
      (orEmpty .sequence (some found)) =
      (writeAt config patch [] (.index i :: rest) depth : Write Json Nat) found :=
    writeAt_filled config rfl hremoval [] (depth_of_writeAt config hrun) (some found)
  rw [hsame] at hrun
  rw [Write.bind_ok hrun]
  exact hothers

end Alternatives

section Ways

variable (config : Config) {patch : Patch} {s : Segment} {p q rest : Path}
  {alternatives : List Path} {t u d : Json} {key : ChildKey} {depth : Nat}

/-- Where no name meets a sequence, the child that a write means is the one that a read finds, also
when something else has been put there. -/
theorem entered_of_slot? (hs : s.isConcrete = true) (ht : t.WellFormed)
    (havoid : s.isKey = true → t.kind ≠ .sequence) (hslot : slot? config s t = some (key, u)) :
    Entered config.idField s t u key := by
  have henter := enter_slot config [] hs ht hslot
  have hok := congrArg Outcome.result henter
  obtain ⟨k, hrun, hin⟩ := enter_concrete config [] hs ht havoid hok
  rw [henter] at hrun
  simp only [Outcome.mk.injEq, Except.ok.injEq, Option.some.injEq] at hrun
  obtain ⟨rfl, hcontainer, -⟩ := hrun
  rw [hcontainer]
  exact hin

/-- What is written behind the child that a segment means does not change the way, when it does not
change the way from the child on, and no name meets a sequence. -/
theorem route_put (hs : s.isConcrete = true) (ht : t.WellFormed)
    (havoid : s.isKey = true → t.kind ≠ .sequence) (hslot : slot? config s t = some (key, u))
    (hrest : KeysAvoidSequences config.idField rest d)
    (hroute : route config (depth + 1) rest d =
      route config (depth + 1) rest ((u.child? key).getD .null)) :
    KeysAvoidSequences config.idField (s :: rest) (u.putChild key d) ∧
      route config depth (s :: rest) (u.putChild key d) = route config depth (s :: rest) t := by
  have hin := entered_of_slot? config hs ht havoid hslot
  have hagain := slot?_put havoid hslot d
  refine ⟨⟨fun hkey => ?_, fun child hchild => ?_⟩, ?_⟩
  · rw [kind_putChild]
    rcases (slot_of_slot? ht hslot).origin with rfl | ⟨name, items, -, rfl, -, -⟩
    · have hmade : KeysAvoidSequences config.idField [s] (orEmpty s.container (some t)) :=
        avoid_filled config.idField hs [] fun v hv =>
          Option.some.inj hv ▸ ⟨havoid, fun _ _ => trivial⟩
      exact hmade.1 hkey
    · exact absurd rfl (havoid hkey)
  · rw [hin.after] at hchild
    exact Option.some.inj hchild ▸ hrest
  · by_cases hdepth : config.maxDepth < depth
    · rw [route_deep config hdepth, route_deep config hdepth]
    · rw [route_slot config hdepth hagain, route_slot config hdepth hslot,
        child?_putChild hin.accepts, Option.getD_some, hroute]

/-- A write that goes along `p` does not change the way, where no name on it meets a sequence. -/
theorem writeAt_keepsWay (hpatch : patch.WellFormed) (hremoval : patch.isRemoval = false)
    (hp : p.IsConcrete) (rest done : Path) (depth : Nat) (ht : t.WellFormed)
    (havoid : KeysAvoidSequences config.idField p t) :
    (writeAt config patch done (p ++ rest) depth : Write Json Nat).Leaves t fun _ u =>
      KeysAvoidSequences config.idField p u ∧ route config depth p u = route config depth p t := by
  induction p generalizing done depth t with
  | nil => exact ⟨trivial, rfl⟩
  | cons s p ih =>
    have hs : s.isConcrete = true := hp.head
    rw [List.cons_append, writeAt]
    split
    · exact .trip ⟨havoid, rfl⟩
    · apply writeOn_slot config done hs hremoval (p ++ rest) depth ht
      · intro _ _ _
        refine ⟨avoid_filled config.idField hs p fun v hv => Option.some.inj hv ▸ havoid, ?_⟩
        exact route_filled config s p (some t)
      · intro hend key u hslot
        have hin := entered_of_slot? config hs ht havoid.1 hslot
        obtain ⟨rfl, -⟩ := List.append_eq_nil_iff.mp hend
        refine (finish_leaves config hpatch hremoval (some key) depth hin.wellFormed
          (acceptsAt_some hin.accepts)).imp ?_
        intro _ _ hdone
        obtain ⟨_, w, -, -, rfl, -⟩ := hdone
        exact route_put config hs ht havoid.1 hslot trivial rfl
      · intro after more hmore key u hslot
        have hin := entered_of_slot? config hs ht havoid.1 hslot
        have hchild : (orEmpty after.container (u.child? key)).WellFormed :=
          wellFormed_filled_child after.container hin.wellFormed key
        have hinside : ∀ c, u.child? key = some c → KeysAvoidSequences config.idField p c :=
          fun c hc => havoid.2 c (hin.before.trans hc)
        rw [← hmore]
        cases p with
        | nil => exact route_put config hs ht havoid.1 hslot trivial rfl
        | cons next p =>
          obtain rfl := (List.cons.inj hmore).1
          have hon := avoid_filled config.idField hp.tail.head p hinside
          refine (ih hp.tail (done.append s) (depth + 1) hchild hon).imp ?_
          intro _ d hd
          rw [route_filled] at hd
          exact route_put config hs ht havoid.1 hslot hd.1 hd.2

theorem wayStays_of_avoid (hpatch : patch.WellFormed) (hremoval : patch.isRemoval = false)
    (hp : p.IsConcrete) (hq : q.IsConcrete) (halternatives : ∀ a ∈ alternatives, a.IsConcrete)
    (ht : t.WellFormed) (havoid : KeysAvoidSequences config.idField p t) :
    WayStays config patch p alternatives q t := by
  intro front behind hsplit _
  have hfront : (writeExpanded config patch p front q).Leaves t fun _ u =>
      t.WellFormed ∧ KeysAvoidSequences config.idField p t →
        (u.WellFormed ∧ KeysAvoidSequences config.idField p u) ∧
          route config 0 p u = route config 0 p t := by
    refine .sum (P := fun t _ u => t.WellFormed ∧ KeysAvoidSequences config.idField p t →
      (u.WellFormed ∧ KeysAvoidSequences config.idField p u) ∧
        route config 0 p u = route config 0 p t) ?_ (fun _ h => ⟨h, rfl⟩) ?_
    · intro t u w n r hfirst hothers h
      obtain ⟨hu, hsame⟩ := hfirst h
      obtain ⟨hw, hagain⟩ := hothers hu
      exact ⟨hw, hagain.trans hsame⟩
    · intro a ha u hu
      have haq : Path.IsConcrete (a ++ q) :=
        .append (halternatives a (hsplit ▸ List.mem_append_left _ ha)) hq
      rw [(hp.append haq).selectsChildren.write_eq]
      obtain ⟨havoid, hroute⟩ := writeAt_keepsWay config hpatch hremoval hp (a ++ q) [] 0 hu.1 hu.2
      exact ⟨⟨writeAt_wellFormed config hpatch hremoval (hp.append haq) [] 0 hu.1, havoid⟩, hroute⟩
  exact (hfront ⟨ht, havoid⟩).2

end Ways

section Unions

/-- When a write through a union of paths of names and positions succeeds within the depth limit, the
writes along the expanded paths do what it does, one after the other. For this the way along `p` has
to stay the same from one of them to the next, and what the union makes of a missing value at the end
of `p`, a sequence, has to be what the first of them makes there; without alternatives, what `p` leads
to has to be there. -/
theorem write_union_expanded {config : Config} {t u : Json} (ht : t.WellFormed) {p q : Path}
    (hp : p.IsConcrete) (hq : q.IsConcrete) {alternatives : List Path}
    (halternatives : ∀ a ∈ alternatives, a.IsConcrete) {named : Bool} {patch : Patch}
    (hpatch : patch.WellFormed) (hremoval : patch.isRemoval = false) {n : Nat}
    (hrun : (write config (p ++ .union alternatives named :: q) patch : Write Json Nat) t =
      ⟨.ok n, u, 0⟩)
    (hway : WayStays config patch p alternatives q t)
    (hmade : p = [] ∨ landing config p t ≠ .null ∨ ∃ a more i rest,
      alternatives = a :: more ∧ a ++ q = .index i :: rest)
    (hnone : alternatives = [] → ∃ v, t.Has (route config 0 p t) v) :
    writeExpanded config patch p alternatives q t = ⟨.ok n, u, 0⟩ := by
  rw [write_union hp.selectsChildren (fun a ha => Path.IsConcrete.selectsChildren
    (halternatives a ha)) hq.selectsChildren] at hrun
  obtain ⟨hleads, hdepth, start, d, hstart, rfl, hunion⟩ :=
    writeAt_through config hp hremoval [] ht hrun
  rw [writeAt, if_neg (Nat.not_lt.mpr hdepth), writeOn, Nat.zero_add] at hunion
  rw [Nat.zero_add] at hdepth
  have hfound : (writeAlternately config patch alternatives q (p.length + 1) : Write Json Nat)
      (landing config p t) = ⟨.ok n, d, 0⟩ := by
    rcases hstart with rfl | ⟨hbehind, rfl⟩
    · exact hunion
    · rcases hmade with hnil | hpresent | ⟨a, more, i, rest, rfl, hfirst⟩
      · exact absurd hnil hbehind
      · rw [orEmpty_of_ne _ hpresent] at hunion
        exact hunion
      · exact writeAlternately_filled config hremoval (halternatives a List.mem_cons_self) hfirst
          hunion
  refine writeExpanded_eq config hpatch hremoval hp hq halternatives ht hleads (by omega)
    (Nat.le_succ _) hway (fun hempty => ?_) hfound
  obtain ⟨v, hv⟩ := hnone hempty
  obtain ⟨hlanding, hplant⟩ := plant_has config ht hleads (by omega) hv
  rw [hlanding]
  exact hplant

theorem write_union_expanded_nested :
    let config : Config := .default
    let t : Json := .obj [("a", .obj [("k", .bool false)])]
    let u : Json := .obj [("a", .obj [("b", .obj [("d", .bool true)]),
      ("c", .arr [.obj [("d", .bool true)]]), ("k", .bool false)])]
    let p : Path := [.key "a"]
    let q : Path := [.key "d"]
    let alternatives : List Path := [[.key "b"], [.key "c", .index 0]]
    let patch : Patch := .merge (.bool true)
    (write config (p ++ .union alternatives true :: q) patch : Write Json Nat) t = ⟨.ok 2, u, 0⟩ ∧
      WayStays config patch p alternatives q t ∧ landing config p t ≠ .null ∧
      writeExpanded config patch p alternatives q t = ⟨.ok 2, u, 0⟩ := by
  intro config t u p q alternatives patch
  have ht : t.WellFormed :=
    ⟨Fields.ascending_single _ _, ⟨Fields.ascending_single _ _, trivial, trivial⟩, trivial⟩
  have hpatch : patch.WellFormed := by
    rintro _ ⟨⟩
    trivial
  have halternatives : ∀ a ∈ alternatives, Path.IsConcrete a := by decide
  have hrun : (write config (p ++ .union alternatives true :: q) patch : Write Json Nat) t =
      ⟨.ok 2, u, 0⟩ := by cbv
  have havoid : KeysAvoidSequences config.idField p t := by
    refine ⟨fun _ => ?_, fun _ _ => trivial⟩
    decide
  have hway : WayStays config patch p alternatives q t :=
    wayStays_of_avoid config hpatch rfl (by decide) (by decide) halternatives ht havoid
  have hthere : landing config p t ≠ .null := by
    have hlanding : landing config p t = .obj [("k", .bool false)] := by cbv
    rw [hlanding]
    exact Json.noConfusion
  exact ⟨hrun, hway, hthere, write_union_expanded ht (by decide) (by decide) halternatives hpatch rfl
    hrun hway (.inr (.inl hthere)) (fun hempty => absurd hempty (List.cons_ne_nil _ _))⟩

/-- An expanded write looks up again what `p` leads to: when the first of them has renamed the
element, the second one adds an element of the old name. Where nothing is there yet, the union makes
a sequence for names as well, and it does so also when there is no alternative. -/
theorem write_union_not_expanded :
    let config : Config := .default
    let element (name : String) : Json := .obj [("name", .str name)]
    let fields : List Path := [[.key "name"], [.key "x"]]
    let rename : Patch := .overwrite (.str "c")
    let names : List Path := [[.key "a"], [.key "b"]]
    let patch : Patch := .merge (.bool true)
    ((write config [.key "b", .union fields false] rename : Write Json Nat) (.arr [element "b"]) =
        ⟨.ok 2, .arr [.obj [("name", .str "c"), ("x", .str "c")]], 0⟩ ∧
      writeExpanded config rename [.key "b"] fields [] (.arr [element "b"]) =
        ⟨.ok 2, .arr [element "c", .obj [("name", .str "b"), ("x", .str "c")]], 0⟩) ∧
    ((write config [.key "x", .union names false] patch : Write Json Nat) (.obj []) =
        ⟨.ok 2, .obj [("x", .arr [.bool true, .bool true])], 0⟩ ∧
      writeExpanded config patch [.key "x"] names [] (.obj []) =
        ⟨.ok 2, .obj [("x", .obj [("a", .bool true), ("b", .bool true)])], 0⟩) ∧
    (write config [.key "x", .union [] false] patch : Write Json Nat) (.obj []) =
        ⟨.ok 0, .obj [("x", .arr [])], 0⟩ ∧
      writeExpanded config patch [.key "x"] [] [] (.obj []) = ⟨.ok 0, .obj [], 0⟩ := by
  intro config element fields rename names patch
  have hrename : (write config [.key "b", .key "name"] rename : Write Json Nat) (.arr [element "b"]) =
      ⟨.ok 1, .arr [element "c"], 0⟩ := by cbv
  have hagain : (write config [.key "b", .key "x"] rename : Write Json Nat) (.arr [element "c"]) =
      ⟨.ok 1, .arr [element "c", .obj [("name", .str "b"), ("x", .str "c")]], 0⟩ := by cbv
  have hone : (write config [.key "x", .key "a"] patch : Write Json Nat) (.obj []) =
      ⟨.ok 1, .obj [("x", .obj [("a", .bool true)])], 0⟩ := by cbv
  have htwo : (write config [.key "x", .key "b"] patch : Write Json Nat)
      (.obj [("x", .obj [("a", .bool true)])]) =
      ⟨.ok 1, .obj [("x", .obj [("a", .bool true), ("b", .bool true)])], 0⟩ := by cbv
  refine ⟨⟨by cbv, ?_⟩, ⟨by cbv, ?_⟩, by cbv, rfl⟩
  · rw [writeExpanded_cons config hrename, writeExpanded_cons config hagain]
    rfl
  · rw [writeExpanded_cons config hone, writeExpanded_cons config htwo]
    rfl

end Unions

end TreePath

import Mathlib
import TreePath.Proofs.Tree.Pruned
import TreePath.Proofs.Write.Slot

namespace TreePath

open TreeUpdate Json

/-- The value with room made in it: what is new are containers, nulls, and the names by which new
elements are identified. -/
structure RoomMade (idField : String) (t u : Json) : Prop where
  pruned : u.Pruned t
  scalars : ∀ l v, u.Has l v → v.kind = .leaf → v ≠ .null →
    t.Has l v ∨ ∃ front name, l = front ++ [.name idField] ∧ v = .str name

/-- All that a write goes through on its way along the path is there: each name and each position
leads to something, which is not null where the path goes on. -/
def Paved (config : Config) (path : Path) (depth : Nat) (t : Json) : Prop :=
  depth ≤ config.maxDepth →
    match path with
    | [] => True
    | .tag .current :: rest => Paved config rest depth t
    | .union alternatives _ :: rest =>
      ∀ p ∈ alternatives, Paved config (Path.absolute p ++ rest) (depth + 1) t
    | .tuple members :: rest => Paved config (members ++ rest) (depth + 1) t
    | s :: rest =>
      (s.isConcrete = true →
        picked config s t ≠ [] ∧ (rest ≠ [] → ∀ e ∈ picked config s t, e.2 ≠ .null)) ∧
      -- a scalar that a predicate holds of is not gone below
      (s.staysAt config t → Paved config rest depth t) ∧
      ∀ e ∈ picked config s t, Paved config rest (depth + 1) e.2
termination_by pathWeight path
decreasing_by
  · simp only [pathWeight, Segment.weight]
    omega
  · have hp : p ∈ alternatives := ‹_›
    have hone := pathWeight_lt_of_mem hp
    have hle := pathWeight_absolute_le p
    simp only [pathWeight, Segment.weight, pathWeight_append]
    omega
  · simp only [pathWeight, Segment.weight, pathWeight_append]
    omega
  all_goals
    have hpos := s.weight_pos
    simp only [pathWeight]
    omega

section Paving

variable {config : Config} {s : Segment} {rest : Path} {depth : Nat} {t : Json}

theorem paved_nil : Paved config [] depth t := by
  rw [Paved]
  exact fun _ => trivial

/-- Below the depth limit nothing is gone through. -/
theorem paved_deep (hdeep : config.maxDepth < depth) (path : Path) : Paved config path depth t := by
  rw [Paved.eq_def]
  exact fun hdepth => absurd hdepth (Nat.not_le_of_gt hdeep)

theorem paved_current (hdepth : depth ≤ config.maxDepth) :
    Paved config (.tag .current :: rest) depth t ↔ Paved config rest depth t := by
  rw [Paved]
  exact forall_prop_of_true hdepth

theorem paved_union (hdepth : depth ≤ config.maxDepth) (alternatives : List Path) (named : Bool) :
    Paved config (.union alternatives named :: rest) depth t ↔
      ∀ p ∈ alternatives, Paved config (Path.absolute p ++ rest) (depth + 1) t := by
  rw [Paved]
  exact forall_prop_of_true hdepth

theorem paved_tuple (hdepth : depth ≤ config.maxDepth) (members : Path) :
    Paved config (.tuple members :: rest) depth t ↔
      Paved config (members ++ rest) (depth + 1) t := by
  rw [Paved]
  exact forall_prop_of_true hdepth

/-- Nothing is gone through on the way to the leaves but what is there. -/
theorem paved_descendants : Paved config (.tag .descendants :: rest) depth t := by
  rw [Paved]
  · intro _
    refine ⟨?_, ?_, ?_⟩
    · intro hconcrete
      cases hconcrete
    · exact False.elim
    · exact fun e he => absurd he List.not_mem_nil
  all_goals simp

theorem paved_segment (hs : s.selectsChildren = true) (hdepth : depth ≤ config.maxDepth) :
    Paved config (s :: rest) depth t ↔
      (s.isConcrete = true →
        picked config s t ≠ [] ∧ (rest ≠ [] → ∀ e ∈ picked config s t, e.2 ≠ .null)) ∧
      (s.staysAt config t → Paved config rest depth t) ∧
      ∀ e ∈ picked config s t, Paved config rest (depth + 1) e.2 := by
  rcases s.eq_of_selectsChildren hs with h | ⟨slice, rfl⟩ | ⟨query, rfl⟩ | rfl
  · rcases s.eq_of_isConcrete h with ⟨name, rfl⟩ | ⟨i, rfl⟩
    all_goals
      rw [Paved]
      · exact forall_prop_of_true hdepth
      all_goals simp
  all_goals
    rw [Paved]
    · exact forall_prop_of_true hdepth
    all_goals simp

end Paving

section Rooms

variable {idField : String} {t u w c d : Json} {key : ChildKey}

theorem RoomMade.refl (t : Json) : RoomMade idField t t where
  pruned := .refl t
  scalars _ _ hv _ _ := .inl hv

theorem RoomMade.trans (h : RoomMade idField t u) (h' : RoomMade idField u w) :
    RoomMade idField t w where
  pruned := h'.pruned.trans h.pruned
  scalars l v hv hleaf hnull := by
    rcases h'.scalars l v hv hleaf hnull with hold | hidentity
    · exact h.scalars l v hold hleaf hnull
    · exact .inr hidentity

/-- Where room has been made twice and nothing has changed, nothing has changed the first time. -/
theorem RoomMade.antisymm (h : RoomMade idField t u) (h' : RoomMade idField u t) : u = t :=
  h'.pruned.antisymm h.pruned

/-- A missing value has room made in it when it becomes an empty container. -/
theorem roomMade_filled (container : NodeKind) (child : Option Json) :
    RoomMade idField (child.getD .null) (orEmpty container child) := by
  have hempty : RoomMade idField .null container.emptyValue := by
    refine ⟨.null _, fun l v hv hleaf hnull => ?_⟩
    obtain ⟨rfl, rfl⟩ := hv.of_childless (children_emptyValue container)
    cases container with
    | leaf => exact absurd rfl hnull
    | mapping | sequence => cases hleaf
  cases child with
  | none => exact hempty
  | some c =>
    cases c with
    | null => exact hempty
    | bool | num | str | arr | obj => exact .refl _

/-- Room that is made in a child, which may be missing, is made in its container. -/
theorem roomMade_putChild (ht : t.WellFormed) (hd : d.WellFormed) (haccepts : t.Accepts key)
    (h : RoomMade idField ((t.child? key).getD .null) d) :
    RoomMade idField t (t.putChild key d) := by
  obtain ⟨k, hlists, hchild, hput⟩ := haccepts.exists_lists
  rw [hchild] at h
  rw [hput d]
  constructor
  · apply Pruned.of_putChild ht hd hlists.accepts
    intro c hc
    rw [hc] at h
    exact h.pruned
  · intro l v hv hleaf hnull
    cases l with
    | nil =>
      have hsame : v = t.putChild k d := hv
      rw [hsame, kind_putChild] at hleaf
      cases t with
      | obj | arr => cases hleaf
      | null | bool | num | str => cases k <;> exact absurd hlists id
    | cons k' l =>
      obtain ⟨c, hc, hcv⟩ := hv
      rcases (mem_children_put ht hlists).mp hc with ⟨rfl, rfl⟩ | ⟨-, hold | ⟨rfl, -⟩⟩
      · rcases h.scalars l v hcv hleaf hnull with hold | ⟨front, name, rfl, hname⟩
        · left
          cases hb : t.child? k' with
          | none =>
            rw [hb] at hold
            exact absurd (hold.of_childless children_null).2 hnull
          | some b =>
            rw [hb] at hold
            exact ⟨b, (mem_children_iff ht hlists).mpr hb, hold⟩
        · exact .inr ⟨k' :: front, name, rfl, hname⟩
      · exact .inl ⟨c, hold, hcv⟩
      · exact absurd (hcv.of_childless children_null).2 hnull

/-- Room is made for a segment where it is entered. -/
theorem Slot.roomMade {config : Config} {s : Segment} (h : Slot config s t key u)
    (ht : t.WellFormed) : RoomMade config.idField t u := by
  rcases h.origin with rfl | ⟨name, items, rfl, rfl, rfl, rfl⟩
  · exact roomMade_filled s.container (some t)
  · have hmissing : (Json.arr items).child? (.index items.length) = none :=
      List.getElem?_eq_none (Nat.le_refl _)
    have haccepts : (Json.arr items).Accepts (.index items.length) := trivial
    rw [← putChild_concat]
    apply roomMade_putChild ht (wellFormed_identityElement _ _) haccepts
    rw [hmissing]
    refine ⟨.null _, fun l v hv hleaf hnull => ?_⟩
    rcases has_identityElement hv with ⟨-, rfl⟩ | ⟨hfield, hname⟩
    · cases hleaf
    · exact .inr ⟨[], name, hfield, hname⟩

end Rooms

section Counts

variable {idField : String} {t u w c d : Json} {result : Except PathError Nat} {n : Nat}
  {paved paved' : Prop} {P Q : Json → Prop} {x y : Write Json Nat}

/-- What a write leaves of `t` that may count nothing: room is made then, and nothing has changed
just when the way was paved. -/
structure Idle (idField : String) (paved : Prop) (t : Json) (result : Except PathError Nat)
    (u : Json) : Prop where
  wellFormed : u.WellFormed
  zero : result = .ok 0 → RoomMade idField t u ∧ (u = t ↔ paved)

/-- The write leaves nothing but room when it counts nothing, whatever it is carried out on. -/
def Idles (idField : String) (x : Write Json Nat) (paved : Json → Prop) : Prop :=
  ∀ t, t.WellFormed → x.Leaves t (Idle idField (paved t) t)

theorem Idle.same (ht : t.WellFormed) (hpaved : paved) (result : Except PathError Nat) :
    Idle idField paved t result t where
  wellFormed := ht
  zero _ := ⟨.refl t, fun _ => hpaved, fun _ => rfl⟩

theorem Idle.refused (hu : u.WellFormed) (e : PathError) : Idle idField paved t (.error e) u where
  wellFormed := hu
  zero he := by cases he

theorem Idle.congr (h : Idle idField paved t result u) (hiff : paved ↔ paved') :
    Idle idField paved' t result u where
  wellFormed := h.wellFormed
  zero hzero := ⟨(h.zero hzero).1, (h.zero hzero).2.trans hiff⟩

/-- No count is made up for by another one, and no room is taken back. -/
theorem Idle.add (h : Idle idField (P t) t (.ok n) u) (h' : Idle idField (Q u) u result w) :
    Idle idField (P t ∧ Q t) t (result.map (n + ·)) w where
  wellFormed := h'.wellFormed
  zero hzero := by
    obtain ⟨m, hm, hsum⟩ : ∃ m, result = .ok m ∧ n + m = 0 := by
      cases result with
      | error e => cases hzero
      | ok m => exact ⟨m, rfl, Except.ok.inj hzero⟩
    have hn : n = 0 := by omega
    have hm' : m = 0 := by omega
    obtain ⟨hroom, hsame⟩ := h.zero (congrArg _ hn)
    obtain ⟨hroom', hsame'⟩ := h'.zero (hm.trans (congrArg _ hm'))
    refine ⟨hroom.trans hroom', ?_, ?_⟩
    · intro hw
      subst hw
      obtain rfl : u = w := hroom.antisymm hroom'
      exact ⟨hsame.mp rfl, hsame'.mp rfl⟩
    · intro hboth
      obtain rfl : u = t := hsame.mpr hboth.1
      exact hsame'.mpr hboth.2

theorem Idles.congr (hx : Idles idField x P) (h : ∀ t, P t ↔ Q t) : Idles idField x Q :=
  fun t ht => (hx t ht).imp fun _ _ hidle => hidle.congr (h t)

theorem Idles.add (hx : Idles idField x P) (hy : Idles idField y Q) :
    Idles idField (do
      let n ← x
      let m ← y
      return n + m) fun t => P t ∧ Q t := by
  intro t ht
  refine .bind _ (hx t ht) ?_ ?_
  · intro n u hn
    refine .bind _ (hy u hn.wellFormed) ?_ ?_
    · intro m w hm
      exact .pure (hn.add hm)
    · intro e w he
      exact .refused he.wellFormed e
  · intro e u he
    exact .refused he.wellFormed e

theorem Idles.sum {α : Type} {f : α → Write Json Nat} {S : α → Json → Prop} {items : List α}
    (hf : ∀ a ∈ items, Idles idField (f a) (S a)) :
    Idles idField (Write.sum f items) fun t => ∀ a ∈ items, S a t := by
  induction items with
  | nil =>
    intro t ht
    exact .pure (.same ht (fun _ ha => absurd ha List.not_mem_nil) _)
  | cons a rest ih =>
    have hfirst := hf a List.mem_cons_self
    have hothers := ih fun b hb => hf b (List.mem_cons_of_mem _ hb)
    exact (hfirst.add hothers).congr fun t => (List.forall_mem_cons (p := fun b => S b t)).symm

theorem Idles.sum_trivial {α : Type} {f : α → Write Json Nat} {items : List α}
    (hf : ∀ a ∈ items, Idles idField (f a) fun _ => True) :
    Idles idField (Write.sum f items) fun _ => True :=
  (Idles.sum hf).congr fun _ => ⟨fun _ => trivial, fun _ _ _ => trivial⟩

/-- Room made in a child has been made in its container. -/
theorem Idles.inChild (hx : Idles idField x P) (key : ChildKey) :
    Idles idField (inChild key x) fun t => ∀ c, t.child? key = some c → P c := by
  intro t ht
  apply Write.Leaves.inChild
  · intro hnone
    refine .same ht (fun c hc => ?_) _
    rw [hnone] at hc
    cases hc
  · intro c hc
    refine (hx c (wellFormed_child? ht hc)).imp ?_
    intro result d hd
    refine ⟨wellFormed_putChild ht hd.wellFormed key, fun hzero => ?_⟩
    obtain ⟨hroom, hsame⟩ := hd.zero hzero
    have haccepts := accepts_of_child? hc
    refine ⟨roomMade_putChild ht hd.wellFormed haccepts (by rwa [hc]), ?_, ?_⟩
    · intro hput b hb
      obtain rfl : c = b := Option.some.inj (hc.symm.trans hb)
      apply hsame.mp
      have hchild := child?_putChild haccepts d
      rw [hput, hc] at hchild
      exact (Option.some.inj hchild).symm
    · intro hall
      rw [hsame.mpr (hall c hc)]
      exact putChild_child? ht hc

end Counts

section Ends

variable (config : Config) {patch : Patch}

/-- Where there can be no child, none is written. -/
theorem apply_unaccepted {key : ChildKey} {t : Json} (hnone : ¬t.Accepts key) (patch : Patch) :
    (apply (some key) patch : Write Json Nat) t = ⟨.ok 0, t, 0⟩ := by
  have hchild : t.patchedChild key patch = (0, t) := by
    cases t with
    | obj fields => exact absurd trivial hnone
    | arr items =>
      cases key with
      | name n => rfl
      | index i => exact absurd trivial hnone
    | null | bool | num | str => cases key <;> rfl
  change (⟨.ok (t.patchedChild key patch).1, (t.patchedChild key patch).2, 0⟩ :
    Outcome Json Nat) = _
  rw [hchild]

theorem finish_unaccepted {key : ChildKey} {t : Json} (hnone : ¬t.Accepts key) (depth : Nat) :
    (finish config patch (some key) depth : Write Json Nat) t = ⟨.ok 0, t, 0⟩ := by
  have hmissing : kindAt? (some key) t = none := by
    have hchild : t.child? key = none := by
      by_contra hthere
      obtain ⟨c, hc⟩ := Option.ne_none_iff_exists'.mp hthere
      exact hnone (accepts_of_child? hc)
    rw [kindAt?_eq, at?, hchild]
    rfl
  unfold finish
  cases patch.value with
  | none => exact apply_unaccepted hnone patch
  | some v =>
    show settle config patch.policy patch.idempotent v (some key) depth t = _
    cases v with
    | obj fields =>
      rw [settle, Write.view_bind_apply, hmissing]
      simpa using apply_unaccepted hnone _
    | null | bool | num | str | arr =>
      rw [settle]
      · exact apply_unaccepted hnone _
      · simp

theorem finish_idles (hpatch : patch.WellFormed) (hremoval : patch.isRemoval = false)
    (key : Option ChildKey) (depth : Nat) :
    Idles config.idField (finish config patch key depth) fun _ => True := by
  intro t ht
  by_cases hkey : t.AcceptsAt key
  · refine (finish_leaves config hpatch hremoval key depth ht hkey).imp ?_
    intro r u hu
    obtain ⟨n, w, hw, rfl, rfl, hsame⟩ := hu
    refine ⟨wellFormed_putAt ht hw key, fun hzero => ?_⟩
    have hn : n = 0 := Except.ok.inj hzero
    rw [putAt_at? ht (hsame hn)]
    exact ⟨.refl t, fun _ => trivial, fun _ => rfl⟩
  · obtain ⟨k, rfl, hnone⟩ : ∃ k, key = some k ∧ ¬t.Accepts k := by
      simpa [AcceptsAt] using hkey
    exact .of_eq (finish_unaccepted config hnone depth) (.same ht trivial _)

/-- A value that is written to the node itself is counted. -/
theorem apply_idles (hpatch : patch.WellFormed) (hremoval : patch.isRemoval = false) :
    Idles config.idField (apply none patch) fun _ => True := by
  intro t ht
  obtain ⟨v, hvalue⟩ : ∃ v, patch.value = some v := by
    simpa [Patch.isRemoval, Option.isSome_iff_exists, Option.isNone_eq_false_iff] using hremoval
  have hold : ∀ w, t.at? none = some w → w.WellFormed := fun w hw => wellFormed_at? ht hw
  refine .of_eq (apply_value hvalue (by simp [AcceptsAt])) ⟨?_, fun hone => by cases hone⟩
  exact wellFormed_combine hold (hpatch v hvalue) patch.policy patch.idempotent

theorem writeLeaves_idles (hpatch : patch.WellFormed) (hremoval : patch.isRemoval = false)
    (last : Bool) (left depth : Nat) :
    Idles config.idField (writeLeaves config patch last left depth) fun _ => True := by
  induction left generalizing depth with
  | zero => exact fun t ht => .trip (.same ht trivial _)
  | succ left ih =>
    intro t ht
    unfold writeLeaves
    apply Write.Leaves.view_bind
    split
    · exact .pure (.same ht trivial _)
    · apply Write.Leaves.view_bind
      split
      · split
        · exact apply_idles config hpatch hremoval t ht
        · exact .pure (.same ht trivial _)
      · apply Write.Leaves.view_bind
        apply Idles.sum_trivial _ t ht
        intro key _ u hu
        apply Write.Leaves.view_bind
        split
        · have hchild := (ih (depth + 1)).inChild key
          exact hchild.congr (fun _ => ⟨fun _ => trivial, fun _ _ _ => trivial⟩) u hu
        · split
          · exact finish_idles config hpatch hremoval (some key) depth u hu
          · exact .pure (.same hu trivial _)

end Ends

section Segments

variable (config : Config) {patch : Patch} {s : Segment} {rest : Path} {depth : Nat} {t u : Json}
  {key : ChildKey}

/-- The way along a name or a position is paved where the child that it means is there. -/
theorem paved_slot (hs : s.isConcrete = true) (hdepth : depth ≤ config.maxDepth)
    (ht : t.WellFormed) (hslot : slot? config s t = some (key, u)) :
    Paved config (s :: rest) depth t ↔ u = t ∧ ∃ c, t.child? key = some c ∧
      (rest ≠ [] → c ≠ .null) ∧ Paved config rest (depth + 1) c := by
  have hpicked : ∀ e ∈ picked config s t, u = t ∧ key = e.1 ∧ t.child? key = some e.2 := by
    intro e he
    have hfound := slot?_of_mem_picked hs he
    rw [hslot] at hfound
    obtain ⟨rfl, rfl⟩ := Prod.mk.inj (Option.some.inj hfound)
    exact ⟨rfl, rfl, child?_of_mem ht (mem_children_of_picked he)⟩
  rw [paved_segment (Segment.selectsChildren_of_isConcrete hs) hdepth]
  constructor
  · intro hpaved
    obtain ⟨hthere, -, hbelow⟩ := hpaved
    obtain ⟨hsome, hnull⟩ := hthere hs
    obtain ⟨e, he⟩ := List.exists_mem_of_ne_nil _ hsome
    obtain ⟨rfl, rfl, hchild⟩ := hpicked e he
    exact ⟨rfl, e.2, hchild, fun hrest => hnull hrest e he, hbelow e he⟩
  · intro hpaved
    obtain ⟨rfl, c, hc, hnull, hbelow⟩ := hpaved
    have hlists := (slot_of_slot? ht hslot).lists
    have hmem := mem_picked_of_slot? ht hslot ((mem_children_iff ht hlists).mpr hc)
    have hsame : ∀ e ∈ picked config s u, e.2 = c := by
      intro e he
      obtain ⟨-, -, hchild⟩ := hpicked e he
      exact Option.some.inj (hchild.symm.trans hc)
    refine ⟨fun _ => ⟨List.ne_nil_of_mem hmem, fun hrest e he => ?_⟩, ?_, fun e he => ?_⟩
    · rw [hsame e he]
      exact hnull hrest
    · intro hstays
      cases s with
      | predicate query => cases hs
      | key | index | slice | tag | union | tuple => exact absurd hstays id
    · rw [hsame e he]
      exact hbelow

/-- Along a name or a position, room is made for the child that it means. -/
theorem writeOn_slot_idles (hpatch : patch.WellFormed) (hremoval : patch.isRemoval = false)
    (hs : s.isConcrete = true) (done : Path) (hdepth : depth ≤ config.maxDepth)
    (hinside : ∀ after more, rest = after :: more → Idles config.idField
      (writeAt config patch (done.append s) rest (depth + 1)) (Paved config rest (depth + 1))) :
    Idles config.idField (writeOn config patch done (s :: rest) depth)
      (Paved config (s :: rest) depth) := by
  intro t ht
  apply writeOn_slot config done hs hremoval rest depth ht
  · intro _ e _
    exact .refused (wellFormed_filled_self s.container ht) e
  · intro hrest key u hslot
    subst hrest
    have hin := slot_of_slot? ht hslot
    have hkey := acceptsAt_some hin.lists.accepts
    refine (finish_leaves config hpatch hremoval (some key) depth hin.wellFormed hkey).imp ?_
    intro r w hw
    obtain ⟨n, d, hd, rfl, rfl, hsame⟩ := hw
    refine ⟨wellFormed_putChild hin.wellFormed hd key, fun hzero => ?_⟩
    have hchild : u.child? key = some d := hsame (Except.ok.inj hzero)
    rw [putAt, putChild_child? hin.wellFormed hchild, paved_slot config hs hdepth ht hslot]
    refine ⟨hin.roomMade ht, ?_, And.left⟩
    intro hu
    subst hu
    exact ⟨rfl, d, hchild, fun hne => absurd rfl hne, paved_nil⟩
  · intro after more hmore key u hslot
    subst hmore
    have hin := slot_of_slot? ht hslot
    have hfilled : (orEmpty after.container (u.child? key)).WellFormed :=
      wellFormed_filled_child after.container hin.wellFormed key
    refine (hinside after more rfl _ hfilled).imp ?_
    intro r d hd
    refine ⟨wellFormed_putChild hin.wellFormed hd.wellFormed key, fun hzero => ?_⟩
    obtain ⟨hroom, hsame⟩ := hd.zero hzero
    have hmade := hin.roomMade ht
    have hmade' := roomMade_putChild hin.wellFormed hd.wellFormed hin.lists.accepts
      ((roomMade_filled after.container (u.child? key)).trans hroom)
    refine ⟨hmade.trans hmade', ?_⟩
    rw [paved_slot config hs hdepth ht hslot]
    constructor
    · intro hput
      rw [hput] at hmade'
      obtain rfl : u = t := hmade.antisymm hmade'
      have hchild := child?_putChild hin.lists.accepts d
      rw [hput] at hchild
      rw [hchild] at hroom hsame
      have hpresent : d ≠ .null := by
        intro hnull
        subst hnull
        exact orEmpty_ne_null after.container_ne_leaf _ hroom.pruned.eq_null
      rw [orEmpty_of_ne after.container hpresent] at hsame
      exact ⟨rfl, d, hchild, fun _ => hpresent, hsame.mp rfl⟩
    · intro hpaved
      obtain ⟨rfl, c, hc, hnull, hbelow⟩ := hpaved
      have hpresent := hnull (List.cons_ne_nil _ _)
      rw [hc, orEmpty_of_ne after.container hpresent] at hsame
      rw [hsame.mpr hbelow]
      exact putChild_child? ht hc

/-- At several children, room is made below each of them. -/
theorem writeInto_idles (hpatch : patch.WellFormed) (hremoval : patch.isRemoval = false)
    (done : Path)
    (hinside : ∀ after more, rest = after :: more → Idles config.idField
      (writeAt config patch done rest (depth + 1)) (Paved config rest (depth + 1)))
    (key : ChildKey) :
    Idles config.idField (writeInto config patch done rest depth key) fun t =>
      ∀ c, t.child? key = some c → Paved config rest (depth + 1) c := by
  cases rest with
  | nil =>
    exact (finish_idles config hpatch hremoval (some key) depth).congr fun t =>
      ⟨fun _ _ _ => paved_nil, fun _ => trivial⟩
  | cons after more => exact (hinside after more rfl).inChild key

theorem writeOn_spreads_idles (hpatch : patch.WellFormed) (hremoval : patch.isRemoval = false)
    (hs : s.selectsChildren = true) (hconcrete : s.isConcrete = false) (done : Path)
    (hdepth : depth ≤ config.maxDepth)
    (hself : Idles config.idField (writeAt config patch (done.append s) rest depth)
      (Paved config rest depth))
    (hinside : ∀ after more, rest = after :: more → Idles config.idField
      (writeAt config patch (done.append s) rest (depth + 1)) (Paved config rest (depth + 1))) :
    Idles config.idField (writeOn config patch done (s :: rest) depth)
      (Paved config (s :: rest) depth) := by
  intro t ht
  have hpaved : Paved config (s :: rest) depth t ↔ _ := paved_segment hs hdepth
  apply writeOn_spreads config done hs hconcrete rest depth ht
  · exact fun _ e => .refused ht e
  · intro hstays
    have hleaf : t.kind = .leaf := by
      cases s with
      | predicate query => exact hstays.1
      | key | index | slice | tag | union | tuple => exact absurd hstays id
    refine (hself t ht).imp fun _ _ hidle => hidle.congr ?_
    rw [hpaved, picked_leaf config hleaf, hconcrete]
    simp [hstays]
  · intro _ hgone
    rw [writeEach_eq config hremoval]
    have heach := Idles.sum fun key (_ : key ∈ (picked config s t).map Prod.fst) =>
      writeInto_idles config hpatch hremoval (done.append s) hinside key
    refine (heach t ht).imp fun _ _ hidle => hidle.congr ?_
    rw [hpaved, hconcrete]
    constructor
    · intro hall
      refine ⟨fun h => (by cases h), fun h => absurd h hgone, fun e he => ?_⟩
      exact hall e.1 (List.mem_map_of_mem he) e.2 (child?_of_mem ht (mem_children_of_picked he))
    · intro hall key hkey c hc
      obtain ⟨e, he, rfl⟩ := List.mem_map.mp hkey
      have hchild := child?_of_mem ht (mem_children_of_picked he)
      obtain rfl := Option.some.inj (hchild.symm.trans hc)
      exact hall.2.2 e he

end Segments

section Paths

variable (config : Config) {patch : Patch}

mutual

theorem writeAt_idles (hpatch : patch.WellFormed) (hremoval : patch.isRemoval = false)
    (done path : Path) (depth : Nat) :
    Idles config.idField (writeAt config patch done path depth) (Paved config path depth) := by
  rw [writeAt]
  split
  · next hdeep => exact fun t ht => .trip (.same ht (paved_deep hdeep path) _)
  · next hdepth => exact writeOn_idles hpatch hremoval done path (Nat.le_of_not_lt hdepth)
termination_by (pathWeight path, 1)

/-- One case for each kind of segment at the head of the path. -/
theorem writeOn_idles (hpatch : patch.WellFormed) (hremoval : patch.isRemoval = false)
    (done path : Path) {depth : Nat} (hdepth : depth ≤ config.maxDepth) :
    Idles config.idField (writeOn config patch done path depth) (Paved config path depth) := by
  match path with
  | [] =>
    rw [writeOn]
    exact (finish_idles config hpatch hremoval none depth).congr fun t =>
      ⟨fun _ => paved_nil, fun _ => trivial⟩
  | .key _ :: rest | .index _ :: rest =>
    apply writeOn_slot_idles config hpatch hremoval rfl done hdepth
    exact fun _ _ _ => writeAt_idles hpatch hremoval _ rest (depth + 1)
  | .slice _ :: rest | .predicate _ :: rest =>
    apply writeOn_spreads_idles config hpatch hremoval rfl rfl done hdepth
    · exact writeAt_idles hpatch hremoval _ rest depth
    · exact fun _ _ _ => writeAt_idles hpatch hremoval _ rest (depth + 1)
  | .tag tag :: rest =>
    cases tag using Tag.writable_cases with
    | children =>
      apply writeOn_spreads_idles config hpatch hremoval rfl rfl done hdepth
      · exact writeAt_idles hpatch hremoval _ rest depth
      · exact fun _ _ _ => writeAt_idles hpatch hremoval _ rest (depth + 1)
    | current =>
      rw [writeOn]
      exact (writeAt_idles hpatch hremoval _ rest depth).congr fun t => (paved_current hdepth).symm
    | descendants =>
      rw [writeOn]
      refine (writeLeaves_idles config hpatch hremoval _ _ depth).congr fun t => ?_
      exact ⟨fun _ => paved_descendants, fun _ => trivial⟩
    | unwritable tag htag =>
      rw [writeOn_unwritable config patch done htag]
      exact fun t ht => .fail (.refused ht _)
  | .union alternatives named :: rest =>
    rw [writeOn]
    exact (writeAlternately_idles hpatch hremoval alternatives rest (depth + 1)).congr fun t =>
      (paved_union hdepth alternatives named).symm
  | .tuple members :: rest =>
    rw [writeOn]
    exact (writeAt_idles hpatch hremoval [] (members ++ rest) (depth + 1)).congr fun t =>
      (paved_tuple hdepth members).symm
termination_by (pathWeight path, 0)

theorem writeAlternately_idles (hpatch : patch.WellFormed) (hremoval : patch.isRemoval = false)
    (alternatives : List Path) (rest : Path) (depth : Nat) :
    Idles config.idField (writeAlternately config patch alternatives rest depth) fun t =>
      ∀ p ∈ alternatives, Paved config (Path.absolute p ++ rest) depth t := by
  match alternatives with
  | [] =>
    rw [writeAlternately]
    exact fun t ht => .pure (.same ht (fun _ hp => absurd hp List.not_mem_nil) _)
  | p :: more =>
    rw [writeAlternately]
    have hfirst := writeAt_idles hpatch hremoval [] (p.absolute ++ rest) depth
    have hothers := writeAlternately_idles hpatch hremoval more rest depth
    refine (hfirst.add hothers).congr fun t => ?_
    exact (List.forall_mem_cons (p := fun p => Paved config (Path.absolute p ++ rest) depth t)).symm
termination_by (pathsWeight alternatives + pathWeight rest, 0)
decreasing_by
  · have := pathWeight_absolute_le p
    exact Prod.Lex.left _ _ (by simp only [pathsWeight, pathWeight_append]; omega)
  · exact Prod.Lex.left _ _ (by simp only [pathsWeight]; omega)

end

end Paths

section Resolving

/-- A write of a value that counts nothing has written nothing, but it may have made room on its way:
what is new are containers, nulls and the names of identified elements, and everything else is as it
was. Nothing at all has changed just when the way was paved, so that there was no room to make. -/
theorem writePath_zero {t t' : Json} (ht : t.WellFormed) (p : Path) {patch : Patch}
    (hpatch : patch.WellFormed) (hremoval : patch.isRemoval = false) {r r' : Resolver}
    (hwrite : Resolver.writePath t p patch r = ((.ok 0, t'), r')) :
    RoomMade r.config.idField t t' ∧ (t' = t ↔ Paved r.config p.target 0 t) := by
  have hidle : (write r.config p patch : Write Json Nat).Leaves t
      (Idle r.config.idField (Paved r.config p.target 0 t) t) := by
    unfold write
    split
    · exact .fail (.refused ht _)
    · exact writeAt_idles r.config hpatch hremoval [] p.target 0 t ht
  obtain ⟨hresult, htree⟩ := Prod.mk.inj (congrArg Prod.fst hwrite)
  obtain rfl : (write r.config p patch t).tree = t' := htree
  exact hidle.zero hresult

theorem writePath_zero_union :
    let row : Json := .obj [("k", .bool true)]
    let t : Json := .obj [("rows", .arr [row])]
    let q : Query := [([.key "k"], .value (.bool false))]
    let p : Path := [.union [[.key "rows", .predicate q], [.key "more", .index 1]] false,
      .tag .children]
    let r : Resolver := .new .default
    ∃ t' r', Resolver.writePath t p (.merge (.str "x")) r = ((.ok 0, t'), r') ∧
      RoomMade r.config.idField t t' ∧ (t' = t ↔ Paved r.config p.target 0 t) ∧ t' ≠ t := by
  intro row t q p r
  have hrow : row.WellFormed := ⟨Fields.ascending_single _ _, trivial, trivial⟩
  have ht : t.WellFormed := ⟨Fields.ascending_single _ _, ⟨hrow, trivial⟩, trivial⟩
  have hpatch : (Patch.merge (.str "x")).WellFormed := by
    intro v hv
    cases hv
    trivial
  have hresult : (Resolver.writePath t p (.merge (.str "x")) r).1 =
      (.ok 0, .obj [("more", .arr [.null, .arr []]), ("rows", .arr [row])]) := by
    cbv
    simp only [writeEach]
    cbv
  have hrun : Resolver.writePath t p (.merge (.str "x")) r =
      ((.ok 0, .obj [("more", .arr [.null, .arr []]), ("rows", .arr [row])]),
        (Resolver.writePath t p (.merge (.str "x")) r).2) := Prod.ext hresult rfl
  obtain ⟨hroom, hsame⟩ := writePath_zero ht p hpatch rfl hrun
  exact ⟨_, _, hrun, hroom, hsame, by simp [t]⟩

/-- A predicate that matches nothing does not keep the write from changing the tree: the sequence that
is made for it stays. -/
theorem writePath_unmatched :
    let two : Json := .num (.int ⟨2, by decide, by decide⟩)
    let t : Json := .obj []
    let p : Path := [.key "a", .predicate [([.key "k"], .value two)], .key "x"]
    let patch : Patch := .merge (.num (.int ⟨1, by decide, by decide⟩))
    let r : Resolver := .new .default
    t.WellFormed ∧ patch.WellFormed ∧ patch.isRemoval = false ∧
      (Resolver.writePath t p patch r).1 = (.ok 0, .obj [("a", .arr [])]) ∧
      (Resolver.writePath t p patch r).1.2 ≠ t := by
  intro two t p patch r
  have hresult : (Resolver.writePath t p patch r).1 = (.ok 0, .obj [("a", .arr [])]) := by
    cbv
    simp only [writeEach]
    cbv
  refine ⟨⟨.nil, trivial⟩, ?_, rfl, hresult, ?_⟩
  · intro v hv
    cases hv
    trivial
  · rw [hresult]
    simp [t]

end Resolving

end TreePath

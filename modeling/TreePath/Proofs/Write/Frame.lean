import Mathlib
import TreePath.Proofs.Write.Slot

namespace TreePath

open TreeUpdate Json

/-- The keys along which a write goes down, as far as it gets: a segment may be refused, and the
depth limit may be reached. -/
def route (config : Config) (depth : Nat) (p : Path) (t : Json) : Location :=
  match p with
  | [] => []
  | s :: rest =>
    if config.maxDepth < depth then []
    else
      match slot? config s t with
      | some (key, u) => key :: route config (depth + 1) rest ((u.child? key).getD .null)
      | none => []

/-- Neither of the locations is on the way to the other one. -/
def Location.Apart (l m : Location) : Prop := ¬l <+: m ∧ ¬m <+: l

/-- A slot that has been filled up with null in front of a position on the way. -/
def PaddedSlot (way l : Location) (v : Json) : Prop :=
  ∃ front i behind j, way = front ++ .index i :: behind ∧ l = front ++ [.index j] ∧ j < i ∧ v = .null

/-- The identifying field of an element that has been added on the way, for a name on the path. -/
def AddedIdentity (idField : String) (p : Path) (t : Json) (way l : Location) (v : Json) : Prop :=
  ∃ front i behind name, way = front ++ .index i :: behind ∧ p[front.length]? = some (.key name) ∧
    (∀ w, ¬t.Has (front ++ [.index i]) w) ∧ l = front ++ [.index i, .name idField] ∧ v = .str name

/-- What a write along `p` leaves of `t` apart from the way that it has gone. -/
structure Framed (idField : String) (p : Path) (way : Location) (t u : Json) : Prop where
  there : ∃ v, u.Has way v
  kept : ∀ l v, l.Apart way → t.Has l v → u.Has l v
  made : ∀ l v, l.Apart way → u.Has l v →
    t.Has l v ∨ PaddedSlot way l v ∨ AddedIdentity idField p t way l v

/-- How far the write has got along `p`. -/
structure Got (config : Config) (done p : Path) (depth : Nat) (way : Location)
    (r : Except PathError Nat) : Prop where
  ok : ∀ n, r = .ok n → way.length = min p.length (config.maxDepth + 1 - depth)
  error : ∀ e, r = .error e →
    way.length < p.length ∧ e.refusedAt? = some (done ++ p.take way.length)

section Ways

variable {idField : String} {p : Path} {s : Segment} {t u d v : Json} {way l m : Location}
  {key k : ChildKey}

theorem Location.Apart.ne_nil (h : l.Apart m) : l ≠ [] := by
  rintro rfl
  exact h.1 (List.nil_prefix)

theorem Location.Apart.tail (h : Apart (key :: l) (key :: m)) : l.Apart m :=
  ⟨fun hl => h.1 ((List.prefix_cons_inj key).mpr hl),
    fun hm => h.2 ((List.prefix_cons_inj key).mpr hm)⟩

theorem PaddedSlot.cons (h : PaddedSlot way l v) : PaddedSlot (key :: way) (key :: l) v := by
  obtain ⟨front, i, behind, j, rfl, rfl, hlt, hnull⟩ := h
  exact ⟨key :: front, i, behind, j, rfl, rfl, hlt, hnull⟩

/-- Nothing is apart from a way that ends where it starts. -/
theorem Framed.root (idField : String) (p : Path) (t u : Json) : Framed idField p [] t u where
  there := ⟨u, rfl⟩
  kept _ _ hl := absurd List.nil_prefix hl.2
  made _ _ hl := absurd List.nil_prefix hl.2

/-- Inside of an empty container there is as little as inside of what was missing. -/
theorem has_filled (container : NodeKind) (child : Option Json) (hl : l ≠ []) :
    (orEmpty container child).Has l v ↔ (child.getD .null).Has l v := by
  have hempty : ∀ w : Json, w.children = [] → ¬w.Has l v := fun w hw h => hl (h.of_childless hw).1
  have hmade := hempty _ (children_emptyValue container)
  have hnull := hempty _ children_null
  cases child with
  | none => exact iff_of_false hmade hnull
  | some w =>
    cases w with
    | null => exact iff_of_false hmade hnull
    | bool | num | str | arr | obj => exact Iff.rfl

theorem Framed.of_filled {container : NodeKind} {child : Option Json}
    (h : Framed idField p way (orEmpty container child) d) :
    Framed idField p way (child.getD .null) d where
  there := h.there
  kept l v hl hv := h.kept l v hl ((has_filled container child hl.ne_nil).mpr hv)
  made l v hl hv := by
    rcases h.made l v hl hv with hold | hslot | ⟨front, i, behind, name, hway, hname, hnew, hl'⟩
    · exact .inl ((has_filled container child hl.ne_nil).mp hold)
    · exact .inr (.inl hslot)
    · refine .inr (.inr ⟨front, i, behind, name, hway, hname, fun w hw => hnew w ?_, hl'⟩)
      exact (has_filled container child (by simp)).mpr hw

end Ways

section Slots

variable {config : Config} {s : Segment} {rest : Path} {t u c d : Json} {key k : ChildKey}
  {way l : Location} {v : Json}

/-- Below the child that a segment means stands what stood there in `t`, or the identifying field of
an element that is new. -/
theorem Slot.has_child (h : Slot config s t key u) (hl : l ≠ []) :
    ((u.child? key).getD .null).Has l v → t.Has (key :: l) v ∨ ∃ name items, s = .key name ∧
      t = .arr items ∧ key = .index items.length ∧ l = [.name config.idField] ∧ v = .str name := by
  intro hv
  cases hchild : u.child? key with
  | none =>
    rw [hchild] at hv
    exact absurd (hv.of_childless children_null).1 hl
  | some c =>
    rw [hchild] at hv
    rcases h.mem_or ((mem_children_iff h.wellFormed h.lists).mpr hchild) with
      hc | ⟨name, items, hs, ht, -, hkey, rfl⟩
    · exact .inl ⟨c, hc, hv⟩
    · rcases has_identityElement hv with ⟨hnil, -⟩ | ⟨hfield, hname⟩
      · exact absurd hnil hl
      · exact .inr ⟨name, items, hs, ht, hkey, hfield, hname⟩

theorem Slot.has_of_child (h : Slot config s t key u) (hv : t.Has (key :: l) v) :
    ((u.child? key).getD .null).Has l v := by
  obtain ⟨c, hc, hcv⟩ := hv
  rw [(mem_children_iff h.wellFormed h.lists).mp (h.mem hc)]
  exact hcv

/-- What is left of the child that a segment means is left of the whole, one key further up. -/
theorem Framed.step (h : Slot config s t key u)
    (hinside : Framed config.idField rest way ((u.child? key).getD .null) d) :
    Framed config.idField (s :: rest) (key :: way) t (u.putChild key d) where
  there := by
    obtain ⟨v, hv⟩ := hinside.there
    exact ⟨v, d, (mem_children_put h.wellFormed h.lists).mpr (.inl ⟨rfl, rfl⟩), hv⟩
  kept l v hl hv := by
    cases l with
    | nil => exact absurd rfl hl.ne_nil
    | cons k l =>
      by_cases hk : k = key
      · subst hk
        have hbelow := hinside.kept l v hl.tail (h.has_of_child hv)
        exact ⟨d, (mem_children_put h.wellFormed h.lists).mpr (.inl ⟨rfl, rfl⟩), hbelow⟩
      · obtain ⟨c, hc, hcv⟩ := hv
        have hput := (mem_children_put (w := d) h.wellFormed h.lists).mpr
          (.inr ⟨hk, .inl (h.mem hc)⟩)
        exact ⟨c, hput, hcv⟩
  made l v hl hv := by
    cases l with
    | nil => exact absurd rfl hl.ne_nil
    | cons k l =>
      obtain ⟨c, hc, hcv⟩ := hv
      rcases (mem_children_put h.wellFormed h.lists).mp hc with
        ⟨rfl, rfl⟩ | ⟨hk, hold | ⟨rfl, i, j, rfl, rfl, -, hlt⟩⟩
      · -- below the child, where the rest of the path has been followed
        rcases hinside.made l v hl.tail hcv with hold | hslot | hadded
        · rcases h.has_child hl.tail.ne_nil hold with hbefore | ⟨name, items, rfl, rfl, rfl, rfl, rfl⟩
          · exact .inl hbefore
          · refine .inr (.inr ⟨[], items.length, way, name, rfl, rfl, fun w hw => ?_, rfl, rfl⟩)
            obtain ⟨c, hc, -⟩ := hw
            obtain ⟨i, hi, hget⟩ := mem_children_arr.mp hc
            obtain rfl := ChildKey.index.inj hi
            obtain ⟨hlt, -⟩ := List.getElem?_eq_some_iff.mp hget
            exact Nat.lt_irrefl _ hlt
        · exact .inr (.inl hslot.cons)
        · obtain ⟨front, i, behind, name, rfl, hname, hnew, rfl, rfl⟩ := hadded
          refine .inr (.inr ⟨k :: front, i, behind, name, rfl, hname, fun w hw => ?_, rfl, rfl⟩)
          exact hnew w (h.has_of_child hw)
      · -- beside the child
        rcases h.mem_or hold with hbefore | ⟨name, items, -, -, hkey, -⟩
        · exact .inl ⟨c, hbefore, hcv⟩
        · exact absurd hkey hk
      · -- a slot that has been filled up in front of the child
        obtain ⟨rfl, rfl⟩ := hcv.of_childless children_null
        exact .inr (.inl ⟨[], i, way, j, rfl, rfl, hlt, rfl⟩)

end Slots

section Writing

variable (config : Config) {patch : Patch} {s : Segment} {rest : Path} {depth : Nat} {t u : Json}
  {key : ChildKey}

theorem route_deep (h : config.maxDepth < depth) (p : Path) (t : Json) :
    route config depth p t = [] := by
  cases p with
  | nil => rfl
  | cons s rest => rw [route, if_pos h]

theorem route_refused (hslot : slot? config s t = none) : route config depth (s :: rest) t = [] := by
  rw [route, hslot]
  split <;> rfl

theorem route_slot (hdepth : ¬config.maxDepth < depth) (hslot : slot? config s t = some (key, u)) :
    route config depth (s :: rest) t =
      key :: route config (depth + 1) rest ((u.child? key).getD .null) := by
  rw [route, if_neg hdepth, hslot]

/-- The way from a missing child is the way from the container that is made of it. -/
theorem route_filled (after : Segment) (more : Path) (child : Option Json) :
    route config depth (after :: more) (orEmpty after.container child) =
      route config depth (after :: more) (child.getD .null) := by
  rw [route, route, slot?_filled]

/-- Below the depth limit, a write gets nowhere. -/
theorem Got.deep (done p : Path) (hdepth : config.maxDepth < depth) :
    Got config done p depth [] (.ok 0) where
  ok n _ := by
    have hnone : config.maxDepth + 1 - depth = 0 := by omega
    rw [hnone, Nat.min_zero]
    rfl
  error e he := by cases he

/-- A write has got one segment further than it has got from the child. -/
theorem Got.step {done : Path} {way : Location} {r : Except PathError Nat}
    (hdepth : ¬config.maxDepth < depth) (h : Got config (done.append s) rest (depth + 1) way r) :
    Got config done (s :: rest) depth (key :: way) r where
  ok n hn := by
    have hlength := h.ok n hn
    simp only [List.length_cons]
    omega
  error e he := by
    obtain ⟨hlength, hat⟩ := h.error e he
    have hfront : done.append s ++ rest.take way.length =
        done ++ (s :: rest).take (key :: way).length := by
      simp [Path.append]
    exact ⟨Nat.succ_lt_succ hlength, hat.trans (congrArg some hfront)⟩

/-- A write goes down along its way, and what it does there it does to the child that it means. -/
theorem writeAt_framed (hpatch : patch.WellFormed) (hremoval : patch.isRemoval = false) {p : Path}
    (hp : p.IsConcrete) (done : Path) (depth : Nat) (ht : t.WellFormed) :
    (writeAt config patch done p depth : Write Json Nat).Leaves t fun r u =>
      Framed config.idField p (route config depth p t) t u ∧
        Got config done p depth (route config depth p t) r := by
  induction p generalizing done depth t with
  | nil =>
    rw [writeAt, route]
    split
    · next hdepth => exact .trip ⟨.root _ _ _ _, Got.deep config done [] hdepth⟩
    · rw [writeOn]
      refine (finish_leaves config hpatch hremoval none depth ht (by simp [AcceptsAt])).imp ?_
      rintro _ u ⟨n, w, -, rfl, -, -⟩
      exact ⟨.root _ _ _ _, fun m _ => by simp, fun e he => by cases he⟩
  | cons s rest ih =>
    rw [writeAt]
    split
    · next hdepth =>
      rw [route_deep config hdepth]
      exact .trip ⟨.root _ _ _ _, Got.deep config done _ hdepth⟩
    · next hdepth =>
      apply writeOn_slot config done hp.head hremoval rest depth ht
      · intro hslot e hat
        rw [route_refused config hslot]
        refine ⟨.root _ _ _ _, ⟨fun n hn => (by cases hn), fun e' he => ?_⟩⟩
        obtain rfl := Except.error.inj he
        exact ⟨Nat.succ_pos _, by simpa using hat⟩
      · rintro rfl key u hslot
        have hin := slot_of_slot? ht hslot
        rw [route_slot config hdepth hslot]
        refine (finish_leaves config hpatch hremoval (some key) depth hin.wellFormed
          (acceptsAt_some hin.lists.accepts)).imp ?_
        rintro _ _ ⟨n, w, -, rfl, rfl, -⟩
        refine ⟨.step hin (.root _ _ _ _), ?_⟩
        exact .step config hdepth ⟨fun m _ => by simp [route], fun e he => by cases he⟩
      · rintro after more rfl key u hslot
        have hin := slot_of_slot? ht hslot
        have hchild : (orEmpty after.container (u.child? key)).WellFormed :=
          wellFormed_filled_child after.container hin.wellFormed key
        have hinside := ih hp.tail (done.append s) (depth + 1) hchild
        rw [route_slot config hdepth hslot]
        rw [route_filled] at hinside
        refine hinside.imp ?_
        rintro r d ⟨hframed, hgot⟩
        exact ⟨.step hin hframed.of_filled, .step config hdepth hgot⟩

end Writing

section Resolving

/-- The frame of a write along names and positions, whether it succeeds or fails. The way that it has
gone is there afterwards: it goes as far as the depth limit allows, and when the write fails, to the
segment that the error names. Apart from the way everything stays where it was, and what is new there
is null in front of a position on the way, or the identifying field of an element that has been
added on the way. -/
theorem writePath_frame {t : Json} (ht : t.WellFormed) {p : Path} (hp : p.IsConcrete)
    {patch : Patch} (hpatch : patch.WellFormed) (hremoval : patch.isRemoval = false)
    (r : Resolver) :
    let run := (Resolver.writePath t p patch r).1
    let way := route r.config 0 p t
    (∃ v, run.2.Has way v) ∧
      (∀ n, run.1 = .ok n → way.length = min p.length (r.config.maxDepth + 1)) ∧
      (∀ e, run.1 = .error e →
        way.length < p.length ∧ e.refusedAt? = some (p.take way.length)) ∧
      (∀ (l : Location) v, l.Apart way → t.Has l v → run.2.Has l v) ∧
      ∀ (l : Location) v, l.Apart way → run.2.Has l v → (∀ w, ¬t.Has l w) →
        PaddedSlot way l v ∨ AddedIdentity r.config.idField p t way l v := by
  intro run way
  have hrun : run = _ := hp.selectsChildren.writePath_eq t patch r
  obtain ⟨hframed, hgot⟩ := writeAt_framed r.config hpatch hremoval hp [] 0 ht
  rw [hrun]
  refine ⟨hframed.there, hgot.ok, hgot.error, hframed.kept, fun l v hl hv hnew => ?_⟩
  rcases hframed.made l v hl hv with hold | hmade
  · exact absurd hold (hnew v)
  · exact hmade

theorem writePath_frame_nested :
    let t : Json := .obj [("a", .arr [.obj [("name", .str "x")]]), ("b", .bool false)]
    let p : Path := [.key "a", .key "y", .key "l", .index 2]
    let patch : Patch := .merge (.bool true)
    let r : Resolver := .new .default
    let run := (Resolver.writePath t p patch r).1
    let way := route r.config 0 p t
    way = [.name "a", .index 1, .name "l", .index 2] ∧ run.1 = .ok 1 ∧
      (∃ v, run.2.Has way v) ∧
      (∀ n, run.1 = .ok n → way.length = min p.length (r.config.maxDepth + 1)) ∧
      (∀ e, run.1 = .error e →
        way.length < p.length ∧ e.refusedAt? = some (p.take way.length)) ∧
      (∀ (l : Location) v, l.Apart way → t.Has l v → run.2.Has l v) ∧
      ∀ (l : Location) v, l.Apart way → run.2.Has l v → (∀ w, ¬t.Has l w) →
        PaddedSlot way l v ∨ AddedIdentity r.config.idField p t way l v := by
  intro t p patch r run way
  have ht : t.WellFormed :=
    ⟨Fields.ascending_pair (by decide) _ _, ⟨⟨Fields.ascending_single _ _, trivial, trivial⟩,
      trivial⟩, trivial, trivial⟩
  have hpatch : patch.WellFormed := by
    rintro _ ⟨⟩
    trivial
  have hway : way = [.name "a", .index 1, .name "l", .index 2] := by cbv
  have hcount : run.1 = .ok 1 := by cbv
  exact ⟨hway, hcount, writePath_frame ht (by decide) hpatch rfl r⟩

end Resolving

end TreePath

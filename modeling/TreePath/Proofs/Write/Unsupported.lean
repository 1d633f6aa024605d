import TreePath.Proofs.Write.Failure
import TreePath.Proofs.Write.Occurrence
import TreePath.Proofs.Write.Spreading

namespace TreePath

open TreeUpdate Json

namespace Write.Refuses

variable {τ α β : Type} {t : τ} {post : PathError → τ → Prop}

theorem pure (a : α) : Refuses (Pure.pure a) t post := .of_ok rfl

theorem walk_bind {f : τ → Guarded α} {k : α → Write τ β} (hk : Refuses (k (f t).value) t post) :
    Refuses (Write.walk f >>= k) t post := by
  refine .bind (.of_ok rfl) fun a ha => ?_
  obtain rfl := Except.ok.inj ha
  exact hk

/-- What the first step ensures, the steps behind it can rely on. -/
theorem bind_ensures (mid : α → τ → Prop) {x : Write τ α} {f : α → Write τ β}
    (hx : Refuses x t post) (hmid : x.Ensures t mid) (hf : ∀ a u, mid a u → Refuses (f a) u post) :
    Refuses (x >>= f) t post :=
  .bind hx fun a ha => hf a _ (hmid a ha)

/-- One count after the other. -/
theorem add {x y : Write τ Nat} (hx : Refuses x t post) (hy : ∀ u, Refuses y u post) :
    Refuses (do
      let n ← x
      let m ← y
      return n + m) t post :=
  .bind hx fun _ _ => .bind (hy _) fun _ _ => .pure _

theorem sum {f : α → Write τ Nat} {items : List α} (hf : ∀ a ∈ items, ∀ u, Refuses (f a) u post) :
    Refuses (Write.sum f items) t post := by
  induction items generalizing t with
  | nil => exact .pure 0
  | cons a rest ih =>
    exact .add (hf a List.mem_cons_self t) fun _ => ih fun b hb => hf b (List.mem_cons_of_mem a hb)

/-- A step at a child fails as it does there. -/
theorem inChild {x : Write Json Nat} {t : Json} {key : ChildKey} {post : PathError → Json → Prop}
    (hx : ∀ c, t.child? key = some c → Refuses x c fun e d => post e (t.putChild key d)) :
    Refuses (TreeUpdate.inChild key x) t post := by
  have hleaves : (TreeUpdate.inChild key x).Leaves t fun r u => ∀ e, r = .error e → post e u := by
    refine .inChild (fun _ e he => ?_) hx
    cases he
  exact hleaves

end Write.Refuses

section Steps

variable (config : Config) {t : Json}

/-- The write is refused for another reason than a segment it does not support. -/
def PathError.Supported (e : PathError) : Prop := ∀ place s, e ≠ .unsupportedTarget place s

theorem PathError.supported_of_refusedAt? {e : PathError} {place : Path}
    (h : e.refusedAt? = some place) : e.Supported := by
  rintro place' s rfl
  cases h

theorem enter_supported (done : Path) {s : Segment} (hs : s.isConcrete = true) (removal : Bool)
    (t : Json) : (enter config done s removal : Write Json (Option ChildKey)).Refuses t
      fun e _ => e.Supported := by
  cases removal with
  | true =>
    exact (enter_removal_refuses config done hs t).imp fun e _ h =>
      PathError.supported_of_refusedAt? h.1
  | false =>
    exact (enter_refuses config done hs t).imp fun e _ h => PathError.supported_of_refusedAt? h.1

theorem atKey_supported {x : Write Json Nat} (hx : ∀ u, x.Refuses u fun e _ => e.Supported)
    (key : Option ChildKey) : (atKey key x).Refuses t fun e _ => e.Supported := by
  cases key with
  | none => exact hx t
  | some key => exact .inChild fun c _ => hx c

theorem apply_supported (key : Option ChildKey) (patch : Patch) :
    (apply key patch : Write Json Nat).Refuses t fun e _ => e.Supported := .of_ok rfl

theorem reach_supported (key : ChildKey) (container : NodeKind) (t : Json) :
    (reach key container : Write Json Bool).Refuses t fun e _ => e.Supported := by
  unfold reach
  apply Write.Refuses.view_bind
  split <;> exact .of_ok rfl

mutual

theorem settle_supported (policy : MergePolicy) (idempotent : Bool) (v : Json)
    (key : Option ChildKey) (depth : Nat) (t : Json) :
    (settle config policy idempotent v key depth : Write Json Nat).Refuses t
      fun e _ => e.Supported := by
  match v with
  | .obj fields =>
    rw [settle]
    apply Write.Refuses.view_bind
    split
    · exact settleFields_supported idempotent fields key depth t
    · exact apply_supported key _
  | .null | .bool _ | .num _ | .str _ | .arr _ =>
    rw [settle]
    · exact apply_supported key _
    all_goals simp

theorem settleFields_supported (idempotent : Bool) (fields : List (String × Json))
    (key : Option ChildKey) (depth : Nat) (t : Json) :
    (settleFields config idempotent fields key depth : Write Json Nat).Refuses t
      fun e _ => e.Supported := by
  match fields with
  | [] =>
    rw [settleFields]
    exact .pure 0
  | (name, v) :: rest =>
    rw [settleFields]
    refine .add (atKey_supported ?_ key) fun u => settleFields_supported idempotent rest key depth u
    intro u
    split
    · exact .of_ok rfl
    · refine .bind (enter_supported config [] rfl false u) fun field _ => ?_
      cases field with
      | some field => exact settle_supported .merge idempotent v (some field) (depth + 1) _
      | none => exact .pure 0

end

theorem finish_supported (patch : Patch) (key : Option ChildKey) (depth : Nat) (t : Json) :
    (finish config patch key depth : Write Json Nat).Refuses t fun e _ => e.Supported := by
  unfold finish
  split
  · exact settle_supported config _ _ _ key depth t
  · exact apply_supported key patch

theorem writeLeaves_supported (patch : Patch) (last : Bool) (left depth : Nat) (t : Json) :
    (writeLeaves config patch last left depth : Write Json Nat).Refuses t
      fun e _ => e.Supported := by
  induction left generalizing depth t with
  | zero => exact .of_ok rfl
  | succ left ih =>
    unfold writeLeaves
    apply Write.Refuses.view_bind
    split
    · exact .pure 0
    · apply Write.Refuses.view_bind
      split
      · split
        · exact apply_supported none patch
        · exact .pure 0
      · apply Write.Refuses.view_bind
        refine .sum fun key _ u => ?_
        apply Write.Refuses.view_bind
        split
        · exact .inChild fun c _ => ih (depth + 1) c
        · split
          · exact finish_supported config patch (some key) depth u
          · exact .pure 0

end Steps

section Leading

/-- The child at the key can be one that the segment stands for: a name stands for the field of this
name or for an element, a position for an element or for the field that is called like it, and a
slice for elements; a predicate and the children tag stand for any children. -/
def Segment.MayPick : Segment → ChildKey → Prop
  | .key name, .name n => n = name
  | .index i, .name n => n = toString i.toInt
  | .key _, .index _ | .index _, .index _ | .slice _, .index _ => True
  | .predicate _, _ | .tag .children, _ => True
  | _, _ => False

/-- Followed from a value, the path leads down to the location with the second path left to follow
there. -/
inductive Path.LeadsTo : Path → Location → Path → Prop where
  | here (p : Path) : LeadsTo p [] p
  | down {s : Segment} {rest left : Path} {key : ChildKey} {l : Location} (hkey : s.MayPick key)
      (h : LeadsTo rest l left) : LeadsTo (s :: rest) (key :: l) left
  | current {rest left : Path} {l : Location} (h : LeadsTo rest l left) :
      LeadsTo (.tag .current :: rest) l left
  | matched {query : Query} {rest left : Path} {l : Location} (h : LeadsTo rest l left) :
      LeadsTo (.predicate query :: rest) l left
  | alternative {alternatives : List Path} {named : Bool} {q rest left : Path} {l : Location}
      (hq : q ∈ alternatives) (h : LeadsTo (q.absolute ++ rest) l left) :
      LeadsTo (.union alternatives named :: rest) l left
  | members {members rest left : Path} {l : Location} (h : LeadsTo (members ++ rest) l left) :
      LeadsTo (.tuple members :: rest) l left

end Leading

section Entering

variable (config : Config) {t u : Json} {key : ChildKey}

theorem eq_index_of_mem_childKeys {items : List Json} (h : key ∈ (Json.arr items).childKeys) :
    ∃ i, key = .index i := by
  obtain ⟨e, he, rfl⟩ := List.mem_map.mp h
  obtain ⟨⟨v, i⟩, -, rfl⟩ := List.mem_map.mp he
  exact ⟨i, rfl⟩

theorem identifiedKey_accepts (name : String) (removal : Bool) (items : List Json) :
    (identifiedKey config name removal : Write Json (Option ChildKey)).Ensures (.arr items)
      fun key u => ∀ k, key = some k → u.Accepts k ∧ ∃ i, k = .index i := by
  unfold identifiedKey
  refine .view_bind ?_
  split
  · refine .pure fun k hk => ?_
    obtain ⟨i, rfl⟩ := eq_index_of_mem_childKeys (List.mem_of_find?_eq_some hk)
    exact ⟨trivial, i, rfl⟩
  · let element : Json := .obj [(config.idField, .str name)]
    have hadd : (apply (some (.index items.length)) (Patch.overwrite element) : Write Json Nat)
        (.arr items) = ⟨.ok 1, (Json.arr items).putChild (.index items.length) element, 0⟩ :=
      apply_value rfl (by rintro _ ⟨⟩; trivial)
    refine .view_bind (.bind (fun _ u => u = _) (.of_eq hadd rfl) ?_)
    rintro _ _ rfl
    refine .pure fun k hk => ?_
    obtain rfl := Option.some.inj hk
    exact ⟨trivial, _, rfl⟩

theorem positionKey_accepts (done : Path) (i : Int64) (removal : Bool) (items : List Json) :
    (positionKey config done i removal : Write Json (Option ChildKey)).Ensures (.arr items)
      fun key u => ∀ k, key = some k → u.Accepts k ∧ ∃ i, k = .index i := by
  unfold positionKey
  refine .view_bind ?_
  split
  · simp only
    split
    · exact .fail _
    · refine .pure fun k hk => ?_
      obtain rfl := Option.some.inj hk
      exact ⟨trivial, _, rfl⟩
  · split
    · exact .pure (by simp)
    · exact .fail _

/-- In a container, the key of an element or a field is one that the container accepts, and one that
the segment stands for. -/
theorem childKey_accepts (done : Path) (s : Segment) (removal : Bool)
    (hcontainer : t.kind.isContainer = true) :
    (childKey config done s removal : Write Json (Option ChildKey)).Ensures t
      fun key u => ∀ k, key = some k → u.Accepts k ∧ s.MayPick k := by
  unfold childKey
  refine .view_bind ?_
  cases t with
  | arr items =>
    split
    · refine (identifiedKey_accepts config _ removal items).imp fun key u h k hk => ?_
      obtain ⟨haccepts, i, rfl⟩ := h k hk
      exact ⟨haccepts, trivial⟩
    · refine (positionKey_accepts config done _ removal items).imp fun key u h k hk => ?_
      obtain ⟨haccepts, i, rfl⟩ := h k hk
      exact ⟨haccepts, trivial⟩
    · exact .pure (by simp)
  | obj fields =>
    split
    · refine .pure fun k hk => ?_
      obtain rfl := Option.some.inj hk
      exact ⟨trivial, rfl⟩
    · refine .pure fun k hk => ?_
      obtain rfl := Option.some.inj hk
      exact ⟨trivial, rfl⟩
    · exact .pure (by simp)
  | null | bool | num | str => cases hcontainer

/-- A node that has been entered accepts the key that it has been entered with. -/
theorem enter_accepts (done : Path) (s : Segment) (removal : Bool) (t : Json) :
    (enter config done s removal : Write Json (Option ChildKey)).Ensures t
      fun key u => ∀ k, key = some k → u.Accepts k ∧ s.MayPick k := by
  unfold enter
  refine .view_bind ?_
  split
  · exact .pure (by simp)
  · refine .bind (fun found u => found = u.kind.isContainer) ?_ fun found u hfound => ?_
    · intro found hok
      obtain rfl := Except.ok.inj hok
      rfl
    · split
      · next htrue => exact childKey_accepts config done s removal (hfound ▸ htrue)
      · exact .view_bind (.fail _)

/-- There can be a child at a key that is accepted and fits. -/
theorem reach_answers (haccepts : u.Accepts key) (hfits : KeyFits key u) (container : NodeKind) :
    (reach key container : Write Json Bool).Ensures u fun found _ => found = true := by
  unfold reach
  refine .view_bind ?_
  split
  · exact .pure rfl
  · intro found hok
    obtain rfl := Except.ok.inj hok
    cases u with
    | obj fields => rfl
    | arr items =>
      cases key with
      | name n => exact absurd haccepts id
      | index k =>
        change (Json.ensureChild (.index k) container (.arr items)).1 = true
        rw [Json.ensureChild, if_pos hfits.room]
    | null | bool | num | str => exact absurd haccepts id

end Entering

section Writing

variable (config : Config) {patch : Patch}

/-- A write can follow all the tags that occur in the path. -/
def TagsWritable (p : Path) : Prop :=
  ∀ tag : Tag, (Segment.tag tag).OccursIn p → tag.isWritable = true

theorem TagsWritable.tail {s : Segment} {rest : Path} (h : TagsWritable (s :: rest)) :
    TagsWritable rest := fun tag htag => h tag (htag.tail s)

theorem TagsWritable.union {alternatives : List Path} {named : Bool} {rest : Path}
    (h : TagsWritable (.union alternatives named :: rest)) :
    ∀ q ∈ alternatives, TagsWritable (q.absolute ++ rest) := by
  intro q hq tag htag
  rcases htag.of_append with htag | htag
  · exact h tag (.inUnion List.mem_cons_self hq htag)
  · exact h.tail tag htag

theorem TagsWritable.tuple {members rest : Path} (h : TagsWritable (.tuple members :: rest)) :
    TagsWritable (members ++ rest) := by
  intro tag htag
  rcases htag.of_append with htag | htag
  · exact h tag (.inTuple List.mem_cons_self htag)
  · exact h.tail tag htag

/-- When a segment is refused as unsupported, it is a slice, and it has met a mapping where the path
has led to with the slice as the next segment. -/
def OnlySlices (path : Path) (e : PathError) (u : Json) : Prop :=
  ∀ place s, e = .unsupportedTarget place s → ∃ slice l rest fields, s = .slice slice ∧
    path.LeadsTo l (s :: rest) ∧ u.locate? l = some (.obj fields)

theorem OnlySlices.of_leadsTo {p q : Path} {e : PathError} {u : Json} (h : OnlySlices p e u)
    (hlead : ∀ l left, p.LeadsTo l left → q.LeadsTo l left) : OnlySlices q e u := by
  intro place s he
  obtain ⟨slice, l, rest, fields, hs, hl, hmapping⟩ := h place s he
  exact ⟨slice, l, rest, fields, hs, hlead l _ hl, hmapping⟩

theorem PathError.Supported.onlySlices {e : PathError} (h : e.Supported) (path : Path) (u : Json) :
    OnlySlices path e u := fun place s he => absurd he (h place s)

namespace Write.Refuses

variable {x : Write Json Nat} {t : Json}

theorem supported {α : Type} {x : Write Json α} (hx : x.Refuses t fun e _ => e.Supported)
    (path : Path) : x.Refuses t (OnlySlices path) := hx.imp fun _ u h => h.onlySlices path u

theorem of_leadsTo {p q : Path} (hx : x.Refuses t (OnlySlices p))
    (hlead : ∀ l left, p.LeadsTo l left → q.LeadsTo l left) : x.Refuses t (OnlySlices q) :=
  hx.imp fun _ _ h => h.of_leadsTo hlead

/-- A mapping that has been met in a child is met one level further down. -/
theorem down {s : Segment} {rest : Path} {key : ChildKey} (hkey : s.MayPick key)
    (hx : ∀ c, x.Refuses c (OnlySlices rest)) :
    (TreeUpdate.inChild key x).Refuses t (OnlySlices (s :: rest)) := by
  refine .inChild fun c hc => (hx c).imp fun e d h place a he => ?_
  obtain ⟨slice, l, left, fields, ha, hl, hmapping⟩ := h place a he
  refine ⟨slice, key :: l, left, fields, ha, hl.down hkey, ?_⟩
  rw [Json.locate?, child?_putChild (accepts_of_child? hc)]
  exact hmapping

end Write.Refuses

mutual

theorem writeAt_onlySlices (done : Path) {path : Path} (hpath : TagsWritable path) (depth : Nat)
    (t : Json) :
    (writeAt config patch done path depth : Write Json Nat).Refuses t (OnlySlices path) := by
  rw [writeAt]
  split
  · exact .of_ok rfl
  · exact writeOn_onlySlices done hpath depth t
termination_by (pathWeight path, 1)

/-- One case for each kind of segment at the head of the path. -/
theorem writeOn_onlySlices (done : Path) {path : Path} (hpath : TagsWritable path) (depth : Nat)
    (t : Json) :
    (writeOn config patch done path depth : Write Json Nat).Refuses t (OnlySlices path) := by
  match path with
  | [] =>
    rw [writeOn]
    exact (finish_supported config patch none depth t).supported []
  | .key _ :: rest | .index _ :: rest =>
    rw [writeOn_concrete config patch done rfl]
    exact writeBelow_onlySlices done rfl hpath.tail depth t
  | .slice slice :: rest =>
    rw [writeOn]
    apply Write.Refuses.view_bind
    split
    · apply Write.Refuses.view_bind
      refine writeEach_onlySlices _ hpath.tail depth (fun key hkey => ?_) t
      obtain ⟨i, -, rfl⟩ := List.mem_map.mp hkey
      trivial
    · apply Write.Refuses.view_bind
      split
      · exact .pure 0
      · apply Write.Refuses.view_bind
        split
        · next hmapping =>
          refine .fail fun place s he => ?_
          obtain ⟨-, rfl⟩ := PathError.unsupportedTarget.inj he
          cases t with
          | obj fields => exact ⟨slice, [], rest, fields, rfl, .here _, rfl⟩
          | null | bool | num | str | arr => cases hmapping
        · exact .fail nofun
  | .predicate query :: rest =>
    rw [writeOn]
    apply Write.Refuses.view_bind
    split
    · exact .pure 0
    · apply Write.Refuses.view_bind
      split
      · apply Write.Refuses.walk_bind
        split
        · exact (writeAt_onlySlices _ hpath.tail depth t).of_leadsTo fun _ _ => .matched
        · exact .pure 0
      · apply Write.Refuses.walk_bind
        exact writeEach_onlySlices (s := .predicate query) _ hpath.tail depth (fun _ _ => trivial) t
  | .tag tag :: rest =>
    cases tag using Tag.writable_cases with
    | children =>
      rw [writeOn]
      apply Write.Refuses.view_bind
      split
      · exact .pure 0
      · apply Write.Refuses.view_bind
        split
        · exact .fail nofun
        · apply Write.Refuses.view_bind
          exact writeEach_onlySlices (s := .tag .children) _ hpath.tail depth (fun _ _ => trivial) t
    | current =>
      rw [writeOn]
      exact (writeAt_onlySlices _ hpath.tail depth t).of_leadsTo fun _ _ => .current
    | descendants =>
      rw [writeOn]
      exact (writeLeaves_supported config patch _ _ depth t).supported _
    | unwritable tag htag =>
      cases htag.symm.trans (hpath tag (.here List.mem_cons_self))
  | .union alternatives _ :: rest =>
    rw [writeOn]
    exact writeAlternately_onlySlices hpath.union (fun q hq _ _ => .alternative hq) (depth + 1) t
  | .tuple members :: rest =>
    rw [writeOn]
    exact (writeAt_onlySlices [] hpath.tuple (depth + 1) t).of_leadsTo fun _ _ => .members
termination_by (pathWeight path, 0)

/-- Below a name or a position that has been entered there can always be a child, so that the
segment behind it is never refused there. -/
theorem writeBelow_onlySlices (done : Path) {s : Segment} (hs : s.isConcrete = true) {rest : Path}
    (hrest : TagsWritable rest) (depth : Nat) (t : Json) :
    (do
      match ← enter config done s patch.isRemoval with
      | some key => writeBelow config patch done s rest depth key
      | none => return 0 : Write Json Nat).Refuses t (OnlySlices (s :: rest)) := by
  refine .bind_ensures (fun key u => ∀ k, key = some k → (u.Accepts k ∧ s.MayPick k) ∧ KeyFits k u)
    ((enter_supported config done hs patch.isRemoval t).supported _) ?_ ?_
  · intro key hok k hk
    exact ⟨enter_accepts config done s patch.isRemoval t key hok k hk,
      enter_fits config done s patch.isRemoval t key hok k hk⟩
  · intro key u hkey
    cases key with
    | none => exact .pure 0
    | some key =>
      obtain ⟨⟨haccepts, hpicks⟩, hfits⟩ := hkey key rfl
      match rest with
      | [] =>
        simp only
        rw [writeBelow]
        exact (finish_supported config patch (some key) depth u).supported _
      | after :: more =>
        simp only
        rw [writeBelow]
        apply Write.Refuses.view_bind
        split
        · exact .pure 0
        · refine .bind_ensures (fun found _ => found = true) ?_
            (reach_answers haccepts hfits after.container) ?_
          · exact (reach_supported key after.container u).supported _
          · rintro found w rfl
            exact .down hpicks fun c => writeAt_onlySlices _ hrest (depth + 1) c
termination_by (pathWeight rest, 2)

theorem writeEach_onlySlices (done : Path) {s : Segment} {rest : Path} (hrest : TagsWritable rest)
    (depth : Nat) {keys : List ChildKey} (hkeys : ∀ key ∈ keys, s.MayPick key) (t : Json) :
    (writeEach config patch done rest depth keys : Write Json Nat).Refuses t
      (OnlySlices (s :: rest)) := by
  match rest with
  | [] =>
    rw [writeEach]
    exact .sum fun key _ u => (finish_supported config patch (some key) depth u).supported _
  | after :: more =>
    rw [writeEach]
    · exact .sum fun key hkey u =>
        .down (hkeys key hkey) fun c => writeAt_onlySlices done hrest (depth + 1) c
    · simp
termination_by (pathWeight rest, 2)

theorem writeAlternately_onlySlices {alternatives : List Path} {rest target : Path}
    (htags : ∀ q ∈ alternatives, TagsWritable (q.absolute ++ rest))
    (hlead : ∀ q ∈ alternatives, ∀ l left, Path.LeadsTo (q.absolute ++ rest) l left →
      target.LeadsTo l left) (depth : Nat) (t : Json) :
    (writeAlternately config patch alternatives rest depth : Write Json Nat).Refuses t
      (OnlySlices target) := by
  match alternatives with
  | [] =>
    rw [writeAlternately]
    exact .pure 0
  | p :: more =>
    rw [writeAlternately]
    have hfirst := writeAt_onlySlices [] (htags p List.mem_cons_self) depth t
    refine .add (hfirst.of_leadsTo (hlead p List.mem_cons_self)) fun u => ?_
    exact writeAlternately_onlySlices (fun q hq => htags q (List.mem_cons_of_mem _ hq))
      (fun q hq => hlead q (List.mem_cons_of_mem _ hq)) depth u
termination_by (pathsWeight alternatives + pathWeight rest, 0)
decreasing_by
  · have := pathWeight_absolute_le p
    exact Prod.Lex.left _ _ (by simp only [pathsWeight, pathWeight_append]; omega)
  · exact Prod.Lex.left _ _ (by simp only [pathsWeight]; omega)

end

end Writing

section Resolving

theorem Tag.isWritable_eq_true {tag : Tag} :
    tag.isWritable = true ↔ tag ∈ [Tag.current, .children, .descendants] := by
  cases tag <;> decide

variable {τ : Type} [TreeUpdate τ]

/-- A target with a tag that no write can follow is refused as it is. -/
theorem write_unwritable (config : Config) {p : Path} (hp : ¬ TagsWritable p.target)
    (patch : Patch) (t : τ) : ∃ place s, IsUnwritable p.target s ∧
      (write config p patch : Write τ Nat) t = ⟨.error (.unsupportedTarget place s), t, 0⟩ := by
  obtain ⟨tag, hoccurs, hwritable⟩ : ∃ tag : Tag, (Segment.tag tag).OccursIn p.target ∧
      tag.isWritable = false := by
    simpa [TagsWritable] using hp
  have hsome := unwritable?_isSome_iff.mpr ⟨.tag tag, tag, rfl, hwritable, hoccurs⟩
  obtain ⟨⟨place, s⟩, hfound⟩ := Option.isSome_iff_exists.mp hsome
  refine ⟨place, s, isUnwritable_of_unwritable? hfound, ?_⟩
  rw [write, hfound]
  rfl

/-- A target with tags that a write can follow goes on to be written to, and a slice is the only
segment that is ever refused. -/
theorem write_onlySlices (config : Config) {p : Path} (hp : TagsWritable p.target) (patch : Patch)
    (t : Json) : (write config p patch : Write Json Nat).Refuses t (OnlySlices p.target) := by
  have hnone : unwritable? p.target = none := by
    cases hfound : unwritable? p.target with
    | none => rfl
    | some found =>
      obtain ⟨tag, htag, hwritable, hoccurs⟩ := isUnwritable_of_unwritable? hfound
      rw [htag] at hoccurs
      rw [hp tag hoccurs] at hwritable
      cases hwritable
  rw [write, hnone]
  exact writeAt_onlySlices config [] hp 0 t

/-- The tags of a path are checked before anything is written. With a tag in the target of the
write, however deep in unions and tuples, that a write cannot follow, every write of every patch to
every kind of tree is refused for such a tag and leaves the tree as it is. Without one, no write to
a plain value is ever refused for a tag; a segment that is refused as unsupported is a slice, and
the target leads to a mapping with this slice as the next segment. -/
theorem writePath_tags (p : Path) :
    ((∃ tag, (Segment.tag tag).OccursIn p.target ∧ tag ∉ [Tag.current, .children, .descendants]) →
      ∀ (τ : Type) [TreeUpdate τ] (t : τ) (patch : Patch) (r : Resolver), ∃ place tag,
        (Segment.tag tag).OccursIn p.target ∧ tag ∉ [Tag.current, .children, .descendants] ∧
          (Resolver.writePath t p patch r).1 = (.error (.unsupportedTarget place (.tag tag)), t)) ∧
    ((∀ tag, (Segment.tag tag).OccursIn p.target → tag ∈ [Tag.current, .children, .descendants]) →
      ∀ (t : Json) (patch : Patch) (r : Resolver) (place : Path) (s : Segment),
        let run := (Resolver.writePath t p patch r).1
        run.1 = .error (.unsupportedTarget place s) → ∃ slice l rest fields, s = .slice slice ∧
          p.target.LeadsTo l (s :: rest) ∧ run.2.locate? l = some (.obj fields)) := by
  constructor
  · rintro ⟨tag, hoccurs, hout⟩ τ _ t patch r
    have htags : ¬ TagsWritable p.target := fun htags =>
      hout (Tag.isWritable_eq_true.mp (htags tag hoccurs))
    obtain ⟨place, _, ⟨tag', rfl, hwritable, hoccurs'⟩, hrun⟩ :=
      write_unwritable r.config htags patch t
    refine ⟨place, tag', hoccurs', fun hin => ?_, ?_⟩
    · rw [Tag.isWritable_eq_true.mpr hin] at hwritable
      cases hwritable
    · have hpath : (Resolver.writePath t p patch r).1 =
          ((write r.config p patch t).result, (write r.config p patch t).tree) := rfl
      rw [hpath, hrun]
  · intro hin t patch r place s run herror
    have htags : TagsWritable p.target := fun tag h => Tag.isWritable_eq_true.mpr (hin tag h)
    exact write_onlySlices r.config htags patch t _ herror place s rfl

/-- A tag in a tuple in an alternative is found behind the first segment. A parent that cancels a
name does not matter, and the slice behind it meets a mapping. -/
theorem writePath_tags_nested :
    let refused : Path := [.key "a", .union [[.key "b"], [.tuple [.tag .next]]] true]
    let slice : Segment := .slice ⟨none, none, none⟩
    let sliced : Path := [.union [[.key "a", .tag .parent, .key "b", slice]] true]
    let t : Json := .obj [("b", .obj [])]
    let r : Resolver := .new .default
    let run := (Resolver.writePath t sliced .remove r).1
    (∃ place tag, (Resolver.writePath t refused .remove r).1 =
      (.error (.unsupportedTarget place (.tag tag)), t)) ∧
      run.1 = .error (.unsupportedTarget [.key "b"] slice) ∧
      ∃ l rest fields, sliced.target.LeadsTo l (slice :: rest) ∧
        run.2.locate? l = some (.obj fields) := by
  intro refused slice sliced t r run
  have hfound : unwritable? refused.target = some ([.key "a"], .tag .next) := by cbv
  obtain ⟨found, hnext, -, hoccurs⟩ := isUnwritable_of_unwritable? hfound
  obtain rfl := Segment.tag.inj hnext
  have hsliced : ∀ tag : Tag, (Segment.tag tag).OccursIn sliced.target →
      tag ∈ [Tag.current, .children, .descendants] := fun tag h =>
    Tag.isWritable_eq_true.mp (isWritable_of_occursIn h (by cbv))
  have herror : run.1 = .error (.unsupportedTarget [.key "b"] slice) := by cbv
  obtain ⟨place, tag, -, -, hrefused⟩ :=
    (writePath_tags refused).1 ⟨.next, hoccurs, by decide⟩ Json t .remove r
  obtain ⟨-, l, rest, fields, -, hlead, hmapping⟩ :=
    (writePath_tags sliced).2 hsliced t .remove r _ _ herror
  exact ⟨⟨place, tag, hrefused⟩, herror, l, rest, fields, hlead, hmapping⟩

end Resolving

end TreePath

import TreePath.Proofs.Write.ReadAfterWrite
import TreePath.Proofs.Write.Removal

namespace TreePath

open TreeUpdate Json

/-- The path in front of the segment that a write has been refused at. -/
def PathError.refusedAt? : PathError → Option Path
  | .gapTooLarge path .. => some path.dropLast
  | .beforeStart path .. => some path.dropLast
  | .notContainer path _ => some path
  | _ => none

/-- If the write fails, the error and the tree afterwards are as stated. -/
def Write.Refuses {τ α : Type} (x : Write τ α) (t : τ) (post : PathError → τ → Prop) : Prop :=
  ∀ e, (x t).result = .error e → post e (x t).tree

namespace Write.Refuses

variable {τ α β : Type} {t u : τ} {post : PathError → τ → Prop}

theorem of_ok {x : Write τ α} {a : α} (h : (x t).result = .ok a) : Refuses x t post := by
  intro e he
  rw [h] at he
  cases he

theorem fail {e : PathError} (h : post e t) : Refuses (Write.fail e : Write τ α) t post := by
  intro e' he
  exact Except.error.inj he ▸ h

theorem bind {x : Write τ α} {f : α → Write τ β} (hx : Refuses x t post)
    (hf : ∀ a, (x t).result = .ok a → Refuses (f a) (x t).tree post) :
    Refuses (x >>= f) t post := by
  intro e he
  rw [Write.bind_apply] at he ⊢
  unfold Refuses at hx
  cases hxt : x t with
  | mk result t' trips =>
    rw [hxt] at he hx hf
    cases result with
    | error e' =>
      obtain rfl : e' = e := Except.error.inj he
      exact hx e' rfl
    | ok a => exact hf a rfl e he

theorem view_bind {f : τ → α} {k : α → Write τ β} (hk : Refuses (k (f t)) t post) :
    Refuses (Write.view f >>= k) t post := by
  rw [Refuses, Write.view_bind_apply]
  exact hk

theorem imp {x : Write τ α} {weaker : PathError → τ → Prop} (hx : Refuses x t post)
    (h : ∀ e u, post e u → weaker e u) : Refuses x t weaker :=
  fun e he => h e _ (hx e he)

end Write.Refuses

section Keeping

/-- What stood somewhere in `t` stands there in `u` as well, apart from nulls: scalars are the same,
and containers may have more in them. -/
def Json.Keeps (t u : Json) : Prop :=
  ∀ l v, t.locate? l = some v → v ≠ .null →
    ∃ w, u.locate? l = some w ∧ w.kind = v.kind ∧ (v.kind = .leaf → w = v)

variable {t u w : Json}

theorem Json.Keeps.refl (t : Json) : t.Keeps t := fun _ v hv _ => ⟨v, hv, rfl, fun _ => rfl⟩

theorem Json.Keeps.trans (h : t.Keeps u) (h' : u.Keeps w) : t.Keeps w := by
  intro l v hv hnull
  obtain ⟨v', hv', hkind, hleaf⟩ := h l v hv hnull
  have hnull' : v' ≠ .null := by
    intro heq
    have hvleaf : v.kind = .leaf := by rw [← hkind, heq]; rfl
    exact hnull ((hleaf hvleaf).symm.trans heq)
  obtain ⟨v'', hv'', hkind', hleaf'⟩ := h' l v' hv' hnull'
  refine ⟨v'', hv'', hkind'.trans hkind, fun hvleaf => ?_⟩
  exact (hleaf' (hkind.trans hvleaf)).trans (hleaf hvleaf)

/-- A missing value that becomes an empty container has held nothing. -/
theorem Json.keeps_filled (container : NodeKind) (t : Json) :
    t.Keeps (orEmpty container (some t)) := by
  cases t with
  | null =>
    intro l v hv hnull
    cases l with
    | nil => exact absurd (Option.some.inj hv).symm hnull
    | cons key l => cases key <;> cases hv
  | bool | num | str | arr | obj => exact .refl _

/-- Beside the child that is put in, the children stay. -/
theorem Json.child?_putChild_or {k key : ChildKey} {c : Json} (haccepts : t.Accepts k)
    (hc : t.child? key = some c) (w : Json) :
    (t.putChild k w).child? key = some c ∨
      t.child? k = some c ∧ (t.putChild k w).child? key = some w := by
  cases t with
  | obj fields =>
    rw [child?_obj] at hc
    rw [putChild_obj, child?_obj, child?_obj]
    by_cases hname : key.asName = k.asName
    · rw [hname] at hc ⊢
      exact .inr ⟨hc, Fields.find?_insert_self _ _ _⟩
    · exact .inl ((Fields.find?_insert_of_ne w hname).trans hc)
  | arr items =>
    cases k with
    | name n => exact absurd haccepts id
    | index k =>
      cases key with
      | name n => cases hc
      | index i =>
        have hget : items[i]? = some c := hc
        obtain ⟨hi, -⟩ := List.getElem?_eq_some_iff.mp hget
        by_cases hik : k = i
        · subst hik
          exact .inr ⟨hc, child?_putChild haccepts w⟩
        · refine .inl ?_
          change ((padded items (k + 1)).set k w)[i]? = some c
          rw [List.getElem?_set_ne hik, padded, List.getElem?_append_left hi, hget]
  | null | bool | num | str => exact absurd haccepts id

/-- What keeps the child keeps the container that the child is put in. -/
theorem Json.keeps_putChild {k : ChildKey} (haccepts : t.Accepts k)
    (h : ∀ c, t.child? k = some c → c.Keeps w) : t.Keeps (t.putChild k w) := by
  intro l v hv hnull
  cases l with
  | nil =>
    obtain rfl := Option.some.inj hv
    refine ⟨_, rfl, ?_, fun hleaf => ?_⟩
    · cases t with
      | obj fields => rw [putChild_obj]; rfl
      | arr items => cases k <;> rfl
      | null | bool | num | str => exact absurd haccepts id
    · cases t with
      | obj | arr => cases hleaf
      | null | bool | num | str => exact absurd haccepts id
  | cons key l =>
    obtain ⟨c, hc, hl⟩ := Option.bind_eq_some_iff.mp hv
    rcases child?_putChild_or haccepts hc w with hsame | ⟨hk, hput⟩
    · exact ⟨v, Option.bind_eq_some_iff.mpr ⟨c, hsame, hl⟩, rfl, fun _ => rfl⟩
    · obtain ⟨v', hv', hkind⟩ := h c hk l v hl hnull
      exact ⟨v', Option.bind_eq_some_iff.mpr ⟨w, hput, hv'⟩, hkind⟩

end Keeping

section Finishing

variable {t : Json} {key : Option ChildKey}

/-- A patch with a value is carried out at its place in any case. -/
theorem finish_refuses (config : Config) {patch : Patch} (hpatch : patch.WellFormed)
    (hremoval : patch.isRemoval = false) (key : Option ChildKey) (depth : Nat) (ht : t.WellFormed)
    (hkey : t.AcceptsAt key) (post : PathError → Json → Prop) :
    (finish config patch key depth : Write Json Nat).Refuses t post := by
  cases hvalue : patch.value with
  | none => simp [Patch.isRemoval, hvalue] at hremoval
  | some v =>
    obtain ⟨n, trips, hrun, -⟩ := finish_eq config hvalue (hpatch v hvalue) key depth ht hkey rfl
    exact .of_ok (congrArg Outcome.result hrun)

end Finishing

section Entering

variable (config : Config) (done : Path) {s : Segment} {t : Json}

/-- The segment has been entered at `t`, which has become `u` for it. Where the segment led to
something before, `t` is as it was. -/
structure Opened (idField : String) (s : Segment) (t u : Json) (key : ChildKey) : Prop where
  accepts : u.Accepts key
  fits : KeyFits key u
  wellFormed : u.WellFormed
  keeps : t.Keeps u
  unchanged : ∀ c, hop? idField s t = some c → u = t ∧ t.child? key = some c

theorem hop?_null (idField : String) (s : Segment) : hop? idField s Json.null = none := by
  cases s <;> rfl

theorem Entered.opened {idField : String} {key : ChildKey}
    (h : Entered idField s t (orEmpty s.container (some t)) key) :
    Opened idField s t (orEmpty s.container (some t)) key where
  accepts := h.accepts
  fits := h.fits
  wellFormed := h.wellFormed
  keeps := keeps_filled s.container t
  unchanged c hc := by
    have hsame : orEmpty s.container (some t) = t := by
      cases t with
      | null => simp [hop?_null] at hc
      | bool | num | str | arr | obj => rfl
    have hbefore := h.before
    rw [hsame] at hbefore
    exact ⟨hsame, hbefore.symm.trans hc⟩

theorem hop?_key_arr (idField name : String) (items : List Json) :
    hop? idField (.key name) (Json.arr items) =
      ((Json.arr items).children.find? fun e => hasIdentity idField name e.2).map Prod.snd := rfl

/-- An element that is added behind the others, because a name identifies none of them. -/
theorem opened_added (idField : String) {name : String} {items : List Json} {element : Json}
    (hw : (Json.arr items).WellFormed) (helement : element.WellFormed)
    (hmissing : hop? idField (.key name) (Json.arr items) = none) :
    Opened idField (.key name) (.arr items)
      ((Json.arr items).putChild (.index items.length) element) (.index items.length) where
  accepts := trivial
  fits := by
    rintro _ ⟨⟩
    left
    change items.length < ((padded items (items.length + 1)).set items.length element).length
    rw [List.length_set]
    exact lt_length_padded items items.length
  wellFormed := wellFormed_putChild hw helement _
  keeps := keeps_putChild trivial fun c hc => by simp [Json.child?] at hc
  unchanged c hc := by
    rw [hmissing] at hc
    cases hc

/-- A name in a sequence is entered as the element that it identifies, which is added behind the
others if there is none. -/
theorem identifiedKey_opens (name : String) {items : List Json}
    (hw : (Json.arr items).WellFormed) :
    (identifiedKey config name false : Write Json (Option ChildKey)).Ensures (.arr items)
      fun key u => ∃ k, key = some k ∧ Opened config.idField (.key name) (.arr items) u k := by
  have hhop := hop?_key_arr config.idField name items
  unfold identifiedKey
  apply Write.Ensures.view_bind
  rw [identified?_eq _ _ hw]
  cases hfind : (Json.arr items).children.find? fun e => hasIdentity config.idField name e.2 with
  | some e =>
    rw [hfind] at hhop
    have he := List.mem_of_find?_eq_some hfind
    have hchild := child?_of_mem hw he
    have hfits := keyFits_childKeys (List.mem_map_of_mem (f := Prod.fst) he)
    refine .pure ⟨e.1, rfl, accepts_of_child? hchild, hfits, hw, .refl _, fun c hc => ⟨rfl, ?_⟩⟩
    rw [hhop] at hc
    exact hchild.trans hc
  | none =>
    rw [hfind] at hhop
    let element : Json := .obj [(config.idField, .str name)]
    have helement : element.WellFormed := ⟨Fields.ascending_single _ _, trivial, trivial⟩
    have hadd : (apply (some (.index items.length)) (Patch.overwrite element) : Write Json Nat)
        (.arr items) = ⟨.ok 1, (Json.arr items).putChild (.index items.length) element, 0⟩ :=
      apply_value rfl (by rintro _ ⟨⟩; trivial)
    refine .view_bind (.bind (fun _ u => u = _) (.of_eq hadd rfl) ?_)
    rintro _ _ rfl
    exact .pure ⟨_, rfl, opened_added config.idField hw helement hhop⟩

/-- What a name or a position is entered as, when that succeeds. -/
theorem enter_opens (hs : s.isConcrete = true) (hw : t.WellFormed) :
    (enter config done s false : Write Json (Option ChildKey)).Ensures t
      fun key u => ∃ k, key = some k ∧ Opened config.idField s t u k := by
  by_cases havoid : s.isKey = true → t.kind ≠ .sequence
  · intro key hok
    obtain ⟨k, hrun, hin⟩ := enter_concrete config done hs hw havoid hok
    rw [hrun] at hok ⊢
    exact ⟨k, (Except.ok.inj hok).symm, hin.opened⟩
  · obtain ⟨hkey, hsequence⟩ : s.isKey = true ∧ t.kind = .sequence := by simpa using havoid
    rcases s.eq_of_isConcrete hs with ⟨name, rfl⟩ | ⟨i, rfl⟩
    · cases t with
      | arr items =>
        rw [Write.Ensures, enter_eq]
        exact identifiedKey_opens config name hw
      | null | bool | num | str | obj => cases hsequence
    · cases hkey

/-- A position that is refused is so before anything is filled up. -/
theorem positionKey_refuses (i : Int64) (removal : Bool) (t : Json) :
    (positionKey config done i removal : Write Json (Option ChildKey)).Refuses t
      fun e u => e.refusedAt? = some done ∧ u = t := by
  have hplace : (done.append (.index i)).dropLast = done := by simp [Path.append]
  unfold positionKey
  apply Write.Refuses.view_bind
  split
  · simp only
    split
    · exact .fail ⟨congrArg some hplace, rfl⟩
    · exact .of_ok rfl
  · split
    · exact .of_ok rfl
    · exact .fail ⟨congrArg some hplace, rfl⟩

theorem identifiedKey_refuses (name : String) (removal : Bool) (t : Json)
    (post : PathError → Json → Prop) :
    (identifiedKey config name removal : Write Json (Option ChildKey)).Refuses t post := by
  unfold identifiedKey
  apply Write.Refuses.view_bind
  split
  · exact .of_ok rfl
  · exact .view_bind (.bind (.of_ok rfl) fun _ _ => .of_ok rfl)

theorem childKey_refuses (hs : s.isConcrete = true) (removal : Bool) (t : Json) :
    (childKey config done s removal : Write Json (Option ChildKey)).Refuses t
      fun e u => e.refusedAt? = some done ∧ u = t := by
  unfold childKey
  apply Write.Refuses.view_bind
  rcases s.eq_of_isConcrete hs with ⟨name, rfl⟩ | ⟨i, rfl⟩
  · simp only
    split
    · exact identifiedKey_refuses config name removal t _
    · exact .of_ok rfl
  · simp only
    split
    · exact positionKey_refuses config done i removal t
    · exact .of_ok rfl

/-- Where a segment cannot be entered, at most an empty container has been made of a missing
value. -/
theorem enter_refuses (hs : s.isConcrete = true) (t : Json) :
    (enter config done s false : Write Json (Option ChildKey)).Refuses t
      fun e u => e.refusedAt? = some done ∧ u = orEmpty s.container (some t) := by
  rw [Write.Refuses, enter_eq]
  split
  · exact childKey_refuses config done hs false _
  · intro e he
    obtain rfl := Except.error.inj he
    exact ⟨rfl, rfl⟩

end Entering

section Writing

variable (config : Config) {patch : Patch} {s : Segment} {t u : Json}

/-- A write along `p` has been refused at one of its segments. What was there is kept, and where the
path in front of that segment led to something, nothing has changed. -/
structure Refused (idField : String) (done p : Path) (t : Json) (e : PathError) (u : Json) :
    Prop where
  keeps : t.Keeps u
  place : ∃ q s rest, p = q ++ s :: rest ∧ e.refusedAt? = some (done ++ q) ∧
    ∀ v, reached? idField q t = some v → v ≠ .null → u = t

theorem reached?_null {idField : String} {q : Path} {v : Json}
    (h : reached? idField q Json.null = some v) : v = .null := by
  cases q with
  | nil => exact (Option.some.inj h).symm
  | cons s q => simp [reached?, hop?_null] at h

theorem orEmpty_of_ne (container : NodeKind) (h : t ≠ .null) : orEmpty container (some t) = t := by
  cases t with
  | null => exact absurd rfl h
  | bool | num | str | arr | obj => rfl

/-- Below the child that a segment has been entered as, a write is refused where it is refused by
what is there, or by the empty container that has been made there. -/
theorem writeBelow_refuses (hpatch : patch.WellFormed) (hremoval : patch.isRemoval = false)
    (done rest : Path) (depth : Nat) {key : ChildKey} (ht : t.WellFormed)
    (hopened : Opened config.idField s t u key)
    (hinside : ∀ c : Json, c.WellFormed →
      (writeAt config patch (done.append s) rest (depth + 1) : Write Json Nat).Refuses c
        (Refused config.idField (done.append s) rest c)) :
    (writeBelow config patch done s rest depth key : Write Json Nat).Refuses u
      (Refused config.idField done (s :: rest) t) := by
  cases rest with
  | nil =>
    rw [writeBelow]
    exact finish_refuses config hpatch hremoval (some key) depth hopened.wellFormed
      (acceptsAt_some hopened.accepts) _
  | cons after more =>
    intro e he
    have hchild : (orEmpty after.container (u.child? key)).WellFormed :=
      wellFormed_filled_child after.container hopened.wellFormed key
    rw [writeBelow_eq config hremoval done s after more depth hopened.wellFormed hopened.accepts
      hopened.fits] at he ⊢
    obtain ⟨hkeeps, q, s', more', hq, hat, hunchanged⟩ := hinside _ hchild e he
    refine ⟨hopened.keeps.trans (keeps_putChild hopened.accepts fun c hc => ?_),
      s :: q, s', more', by rw [hq]; rfl, by rw [hat]; simp [Path.append], fun v hv hnull => ?_⟩
    · rw [hc] at hkeeps ⊢
      exact (keeps_filled after.container c).trans hkeeps
    · -- the segment led to `c`, and the rest of the path from there to `v`
      obtain ⟨c, hc, hcv⟩ := Option.bind_eq_some_iff.mp hv
      obtain ⟨hsame, htc⟩ := hopened.unchanged c hc
      have hcnull : c ≠ .null := by
        rintro rfl
        exact hnull (reached?_null hcv)
      rw [hsame, htc, orEmpty_of_ne after.container hcnull] at hunchanged ⊢
      have hinner := hunchanged v hcv hnull
      exact (congrArg (t.putChild key) hinner).trans (putChild_child? ht htc)

/-- A write along names and positions fails only where one of them is refused. -/
theorem writeAt_refuses (hpatch : patch.WellFormed) (hremoval : patch.isRemoval = false) {p : Path}
    (hp : p.IsConcrete) (done : Path) (depth : Nat) (ht : t.WellFormed) :
    (writeAt config patch done p depth : Write Json Nat).Refuses t
      (Refused config.idField done p t) := by
  induction p generalizing done depth t with
  | nil =>
    rw [writeAt]
    split
    · exact .of_ok rfl
    · rw [writeOn]
      exact finish_refuses config hpatch hremoval none depth ht (by simp [AcceptsAt]) _
  | cons s rest ih =>
    rw [writeAt]
    split
    · exact .of_ok rfl
    · rw [writeOn_concrete config patch done hp.head, hremoval]
      refine .bind ((enter_refuses config done hp.head t).imp ?_) fun key hkey => ?_
      · rintro e _ ⟨hat, rfl⟩
        refine ⟨keeps_filled s.container t, [], s, rest, rfl, by simpa using hat, ?_⟩
        intro v hv hnull
        obtain rfl := Option.some.inj hv
        exact orEmpty_of_ne s.container hnull
      · obtain ⟨k, rfl, hopened⟩ := enter_opens config done hp.head ht key hkey
        exact writeBelow_refuses config hpatch hremoval done rest depth ht hopened
          fun c hc => ih hp.tail (done.append s) (depth + 1) hc

end Writing

section Removing

variable (config : Config) {patch : Patch} {s : Segment} {t : Json}

theorem enter_removal_refuses (done : Path) (hs : s.isConcrete = true) (t : Json) :
    (enter config done s true : Write Json (Option ChildKey)).Refuses t
      fun e u => e.refusedAt? = some done ∧ u = t := by
  unfold enter
  apply Write.Refuses.view_bind
  split
  · exact .of_ok rfl
  · next hvacant =>
    have hcontainer := ensureContainer_present s.container hvacant
    refine .bind (.of_ok (congrArg Outcome.result hcontainer)) fun container _ => ?_
    rw [hcontainer]
    split
    · exact childKey_refuses config done hs true t
    · exact .view_bind (.fail ⟨rfl, rfl⟩)

/-- Below a child, a removal is refused where it is refused by the child. -/
theorem writeBelow_removal_refuses (hvalue : patch.value = none) (done rest : Path) (depth : Nat)
    {key : ChildKey} (ht : t.WellFormed)
    (hinside : ∀ c : Json, c.WellFormed →
      (writeAt config patch (done.append s) rest (depth + 1) : Write Json Nat).Refuses c
        fun e u => u = c ∧ ∃ q s' more, rest = q ++ s' :: more ∧
          e.refusedAt? = some (done.append s ++ q)) :
    (writeBelow config patch done s rest depth key : Write Json Nat).Refuses t
      fun e u => u = t ∧ ∃ q s' more, s :: rest = q ++ s' :: more ∧
        e.refusedAt? = some (done ++ q) := by
  cases rest with
  | nil =>
    rw [writeBelow, finish_removal config hvalue]
    exact .of_ok rfl
  | cons after more =>
    by_cases hmissing : t.child? key = none ∨ after :: more ≠ [] ∧ t.child? key = some .null
    · have hrun := @writeBelow_missing config patch done (after :: more) depth s t hvalue key
        hmissing
      exact .of_ok (congrArg Outcome.result hrun)
    · obtain ⟨c, hc, hcnull⟩ : ∃ c, t.child? key = some c ∧ c ≠ .null := by
        cases hc : t.child? key with
        | none => exact absurd (.inl hc) hmissing
        | some c => exact ⟨c, rfl, fun hnull => hmissing (.inr ⟨by simp, hnull ▸ hc⟩)⟩
      intro e he
      rw [writeBelow_present config done (after :: more) depth hc (.inr hcnull), writeEach,
        sum_singleton, inChild_eq _ hc] at he ⊢
      · obtain ⟨hsame, q, s', more', hq, hat⟩ := hinside c (wellFormed_child? ht hc) e he
        refine ⟨?_, s :: q, s', more', by rw [hq]; rfl, by rw [hat]; simp [Path.append]⟩
        exact (congrArg (t.putChild key) hsame).trans (putChild_child? ht hc)
      all_goals simp

/-- A removal that is refused has removed nothing, and has made nothing either. -/
theorem writeAt_removal_refuses (hvalue : patch.value = none) {p : Path} (hp : p.IsConcrete)
    (done : Path) (depth : Nat) (ht : t.WellFormed) :
    (writeAt config patch done p depth : Write Json Nat).Refuses t fun e u =>
      u = t ∧ ∃ q s rest, p = q ++ s :: rest ∧ e.refusedAt? = some (done ++ q) := by
  have hremoval := Patch.isRemoval_of_none hvalue
  induction p generalizing done depth t with
  | nil =>
    rw [writeAt]
    split
    · exact .of_ok rfl
    · rw [writeOn, finish_removal config hvalue]
      exact .of_ok rfl
  | cons s rest ih =>
    rw [writeAt]
    split
    · exact .of_ok rfl
    · rw [writeOn_concrete config patch done hp.head, hremoval]
      refine .bind ((enter_removal_refuses config done hp.head t).imp ?_) fun key hkey => ?_
      · rintro e _ ⟨hat, rfl⟩
        exact ⟨rfl, [], s, rest, rfl, by simpa using hat⟩
      · obtain ⟨hsame, -⟩ := enter_removal config done hp.head ht key hkey
        rw [hsame]
        cases key with
        | none => exact .of_ok rfl
        | some key =>
          exact writeBelow_removal_refuses config hvalue done rest depth ht
            fun c hc => ih hp.tail (done.append s) (depth + 1) hc

end Removing

section Resolving

/-- A write along names and positions that fails takes nothing back, and loses nothing. Everything
that was there is still there, a removal has changed nothing at all, and the error names the path in
front of the segment that was refused: where that led to something, nothing had to be made, and the
tree is as it was. -/
theorem writePath_refused {t : Json} (ht : t.WellFormed) {p : Path} (hp : p.IsConcrete)
    {patch : Patch} (hpatch : patch.WellFormed) (r : Resolver) {e : PathError} {t' : Json}
    {r' : Resolver} (hwrite : Resolver.writePath t p patch r = ((.error e, t'), r')) :
    t.Keeps t' ∧ (patch.isRemoval = true → t' = t) ∧
      ∃ q s rest, p = q ++ s :: rest ∧ e.refusedAt? = some q ∧
        ∀ v, (Resolver.find t (.path q) r).1 = .ok (some v) → v ≠ .null → t' = t := by
  have hrun := hp.selectsChildren.writePath_eq t patch r
  rw [hwrite] at hrun
  obtain ⟨herror, rfl⟩ := Prod.mk.inj hrun
  cases hremoval : patch.isRemoval with
  | true =>
    have hvalue : patch.value = none := by simpa [Patch.isRemoval] using hremoval
    obtain ⟨hsame, q, s, rest, hq, hat⟩ :=
      writeAt_removal_refuses r.config hvalue hp [] 0 ht e herror.symm
    rw [hsame]
    exact ⟨.refl t, fun _ => rfl, q, s, rest, hq, hat, fun _ _ _ => rfl⟩
  | false =>
    obtain ⟨hkeeps, q, s, rest, hq, hat, hunchanged⟩ :=
      writeAt_refuses r.config hpatch hremoval hp [] 0 ht e herror.symm
    refine ⟨hkeeps, by simp, q, s, rest, hq, hat, fun v hv hnull => ?_⟩
    have hfront : q.IsConcrete := fun x hx => hp x (by rw [hq]; exact List.mem_append_left _ hx)
    rw [find_concrete t hfront r] at hv
    refine hunchanged v ?_ hnull
    have hreached := Except.ok.inj hv
    obtain ⟨w, hw, hwv⟩ := Option.map_eq_some_iff.mp hreached
    exact hw.trans (congrArg some hwv)

theorem writePath_refused_inside :
    let t : Json := .obj [("a", .arr [.bool true])]
    let p : Path := [.key "a", .index (-5), .key "b"]
    let r : Resolver := .new .default
    let e : PathError := .beforeStart [.key "a", .index (-5)] (-5) 1
    ∃ t' r', Resolver.writePath t p (.merge .null) r = ((.error e, t'), r') ∧
      t.Keeps t' ∧ ((Patch.merge .null).isRemoval = true → t' = t) ∧
        ∃ q s rest, p = q ++ s :: rest ∧ e.refusedAt? = some q ∧
          ∀ v, (Resolver.find t (.path q) r).1 = .ok (some v) → v ≠ .null → t' = t := by
  intro t p r e
  have ht : t.WellFormed := ⟨Fields.ascending_single _ _, ⟨trivial, trivial⟩, trivial⟩
  have hp : p.IsConcrete := by decide
  have hpatch : (Patch.merge .null).WellFormed := by
    rintro _ ⟨⟩
    trivial
  have herror : (Resolver.writePath t p (.merge .null) r).1.1 = .error e := by cbv
  have hrun := Resolver.run_eq herror
  exact ⟨_, _, hrun, writePath_refused ht hp hpatch r hrun⟩

/-- What has been made in front of the refused segment is not taken back: `a` is made a sequence
before `-1` is found to be in front of its start. -/
theorem writePath_refused_not_undone :
    let t : Json := .obj []
    let p : Path := [.key "a", .index (-1)]
    let r : Resolver := .new .default
    t.WellFormed ∧ p.IsConcrete ∧
      (Resolver.writePath t p (.merge (.bool true)) r).1 =
        (.error (.beforeStart p (-1) 0), .obj [("a", .arr [])]) ∧
      Json.obj [("a", .arr [])] ≠ t := by
  intro t p r
  refine ⟨⟨List.Pairwise.nil, trivial⟩, by decide, ?_, ?_⟩
  · cbv
  · intro h
    exact List.cons_ne_nil _ _ (Json.obj.inj h)

end Resolving

end TreePath

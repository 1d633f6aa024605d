import Mathlib
import TreePath.Proofs.Write.Merging
import TreePath.Proofs.Write.Slot

namespace TreePath

open TreeUpdate Json

/-- The write succeeds and leaves the tree as it is. -/
def Write.Fixes (x : Write Json Nat) (t : Json) : Prop :=
  x.Leaves t fun r u => (∃ n, r = .ok n) ∧ u = t

/-- Where a write along the path comes by, no name meets a sequence and no predicate a scalar. -/
def Suits (config : Config) : Path → Nat → Json → Prop
  | [], _, _ => True
  | s :: rest, depth, t =>
    depth ≤ config.maxDepth →
      (s.isKey = true → t.kind ≠ .sequence) ∧
        (∀ query, s = .predicate query → t.kind = .leaf → t = .null) ∧
        ∀ e ∈ picked config s t, Suits config rest (depth + 1) e.2

section Fixing

variable {t u c d : Json} {key : ChildKey}

theorem Write.Fixes.sum {α : Type} {f : α → Write Json Nat} {items : List α}
    (h : ∀ a ∈ items, (f a).Fixes t) : (Write.sum f items).Fixes t := by
  -- each step starts where the first one has started, as the others have changed nothing
  suffices hall : (Write.sum f items).Leaves t fun r u => t = t → (∃ n, r = .ok n) ∧ u = t from
    hall rfl
  refine .sum (P := fun v r u => v = t → (∃ n, r = .ok n) ∧ u = v) ?_ ?_ ?_
  · intro v u w n r hn hr hv
    obtain ⟨-, rfl⟩ := hn hv
    obtain ⟨⟨m, rfl⟩, rfl⟩ := hr hv
    exact ⟨⟨n + m, rfl⟩, rfl⟩
  · exact fun _ _ => ⟨⟨0, rfl⟩, rfl⟩
  · intro a ha u hu
    subst hu
    exact h a ha

theorem Write.Fixes.inChild {x : Write Json Nat} (ht : t.WellFormed)
    (hx : ∀ c, t.child? key = some c → x.Fixes c) : (inChild key x).Fixes t := by
  apply Write.Leaves.inChild
  · exact fun _ => ⟨⟨0, rfl⟩, rfl⟩
  · intro c hc
    refine (hx c hc).imp ?_
    intro r d hd
    obtain ⟨hok, rfl⟩ := hd
    exact ⟨hok, putChild_child? ht hc⟩

end Fixing

section Children

variable {t u w c d : Json} {key k : ChildKey} {keys : List ChildKey} {R : ChildKey → Json → Prop}

/-- The children at some of the keys have been exchanged for others, of which `R` holds. -/
structure Exchanged (R : ChildKey → Json → Prop) (keys : List ChildKey) (t u : Json) : Prop where
  wellFormed : u.WellFormed
  kind : u.kind = t.kind
  size : u.size = t.size
  null : t = .null → u = .null
  child : ∀ key d, (key, d) ∈ u.children →
    key ∈ keys ∧ R key d ∨ key ∉ keys ∧ (key, d) ∈ t.children

theorem Exchanged.refl (ht : t.WellFormed) : Exchanged R [] t t where
  wellFormed := ht
  kind := rfl
  size := rfl
  null h := h
  child _ _ hd := .inr ⟨List.not_mem_nil, hd⟩

theorem size_putChild (ht : t.WellFormed) (hc : (key, c) ∈ t.children) (w : Json) :
    (t.putChild key w).size = t.size := by
  cases t with
  | arr items =>
    obtain ⟨i, rfl, hget⟩ := mem_children_arr.mp hc
    obtain ⟨hi, -⟩ := List.getElem?_eq_some_iff.mp hget
    rw [putChild_arr_of_lt hi]
    exact List.length_set
  | obj fields =>
    obtain ⟨name, rfl, hmem⟩ := mem_children_obj.mp hc
    rw [putChild_obj, ChildKey.asName, Fields.insert_eq_map ht.1 hmem]
    exact List.length_map _
  | null | bool | num | str => exact absurd hc List.not_mem_nil

theorem Exchanged.cons (ht : t.WellFormed) (hc : (key, c) ∈ t.children) (hd : d.WellFormed)
    (hR : R key d) (hkey : key ∉ keys) (h : Exchanged R keys (t.putChild key d) u) :
    Exchanged R (key :: keys) t u where
  wellFormed := h.wellFormed
  kind := h.kind.trans (kind_putChild t key d)
  size := h.size.trans (size_putChild ht hc d)
  null hnull := by
    subst hnull
    exact absurd hc List.not_mem_nil
  child k w hw := by
    rcases h.child k w hw with ⟨hmem, hRw⟩ | ⟨hnot, hold⟩
    · exact .inl ⟨List.mem_cons_of_mem _ hmem, hRw⟩
    · rcases (mem_children_exchange ht hc).mp hold with ⟨rfl, rfl⟩ | ⟨hne, hbefore⟩
      · exact .inl ⟨List.mem_cons_self, hR⟩
      · refine .inr ⟨?_, hbefore⟩
        rw [List.mem_cons]
        exact fun hor => hor.elim hne hnot

/-- When the steps at several children succeed, each of them has been exchanged. -/
theorem sum_exchanges {f : ChildKey → Write Json Nat} (hkeys : keys.Nodup) (ht : t.WellFormed)
    (hmem : ∀ key ∈ keys, ∃ c, (key, c) ∈ t.children)
    (hf : ∀ key ∈ keys, ∀ u c, u.WellFormed → (key, c) ∈ t.children → (key, c) ∈ u.children →
      (f key).Ensures u fun _ w => ∃ d, d.WellFormed ∧ R key d ∧ w = u.putChild key d) :
    (Write.sum f keys).Ensures t fun _ u => Exchanged R keys t u := by
  induction keys generalizing t with
  | nil => exact .pure (.refl ht)
  | cons key rest ih =>
    obtain ⟨hkey, hrest⟩ := List.nodup_cons.mp hkeys
    obtain ⟨c, hc⟩ := hmem key List.mem_cons_self
    rw [Write.sum]
    refine .bind _ (hf key List.mem_cons_self t c ht hc hc) ?_
    intro n u hu
    obtain ⟨d, hd, hR, rfl⟩ := hu
    have hother : ∀ k ∈ rest, k ≠ key := fun k hk hsame => hkey (hsame ▸ hk)
    have hothers : (Write.sum f rest).Ensures (t.putChild key d) fun _ w =>
        Exchanged R rest (t.putChild key d) w := by
      refine ih hrest (wellFormed_putChild ht hd key) ?_ ?_
      · intro k hk
        obtain ⟨b, hb⟩ := hmem k (List.mem_cons_of_mem _ hk)
        exact ⟨b, mem_children_putChild ht hc d hb (hother k hk)⟩
      · intro k hk w b hw hb hbw
        have hbefore : (k, b) ∈ t.children := by
          rcases (mem_children_exchange ht hc).mp hb with ⟨hsame, -⟩ | ⟨-, hbefore⟩
          · exact absurd hsame (hother k hk)
          · exact hbefore
        exact hf k (List.mem_cons_of_mem _ hk) w b hw hbefore hbw
    refine .bind _ hothers ?_
    intro m w hw
    exact .pure (.cons ht hc hd hR hkey hw)

end Children

section Ends

variable (config : Config) {v : Json} {t d : Json} {key : Option ChildKey} {depth : Nat}

/-- At the end of a path the value is merged into what is there. -/
theorem finish_merge (hv : v.WellFormed) (ht : t.WellFormed) (hkey : t.AcceptsAt key) :
    (finish config (.merge v) key depth : Write Json Nat).Leaves t fun r u => (∃ n, r = .ok n) ∧
      u = t.putAt key (combinedTo .merge true (config.maxDepth - depth) (t.at? key) v) := by
  have hvalue : (Patch.merge v).value = some v := rfl
  obtain ⟨n, trips, hrun, -⟩ := finish_eq config hvalue hv key depth ht hkey rfl
  exact .of_eq hrun ⟨⟨n, rfl⟩, rfl⟩

theorem finish_fixes (hv : v.WellFormed) (ht : t.WellFormed) (hd : t.at? key = some d)
    (habsorbs : Absorbs (config.maxDepth - depth) d v) :
    (finish config (.merge v) key depth : Write Json Nat).Fixes t := by
  refine (finish_merge config hv ht (acceptsAt_of_at? hd)).imp ?_
  intro r u hu
  obtain ⟨hok, rfl⟩ := hu
  rw [hd, habsorbs]
  exact ⟨hok, putAt_at? ht hd⟩

end Ends

section Steps

variable (config : Config) {v : Json} {t u : Json} {s : Segment} {rest : Path}

/-- A write has been carried out to the end: to do it again changes nothing. -/
structure Settled (v : Json) (done p : Path) (depth : Nat) (t u : Json) : Prop where
  wellFormed : u.WellFormed
  present : p ≠ [] → t ≠ .null → u ≠ .null
  fixed : (writeAt config (.merge v) done p depth : Write Json Nat).Fixes u

/-- In an empty container that is made for the path, nothing is in its way. -/
theorem suits_empty (depth : Nat) (hs : s.selectsChildren = true) (rest : Path) :
    Suits config (s :: rest) depth s.container.emptyValue := by
  intro _
  have hnone : picked config s s.container.emptyValue = [] := by
    apply List.eq_nil_iff_forall_not_mem.mpr
    intro e he
    have hchild := mem_children_of_picked he
    rw [children_emptyValue] at hchild
    exact absurd hchild List.not_mem_nil
  refine ⟨?_, ?_, ?_⟩
  · intro hkey hkind
    cases s with
    | key name => cases hkind
    | index | slice | predicate | tag | union | tuple => cases hkey
  · intro query hquery hkind
    subst hquery
    cases hkind
  · rw [hnone]
    exact fun e he => absurd he List.not_mem_nil

theorem suits_filled {depth : Nat} {after : Segment} {more : Path}
    (hafter : after.selectsChildren = true) {child : Option Json}
    (h : ∀ c, child = some c → Suits config (after :: more) depth c) :
    Suits config (after :: more) depth (orEmpty after.container child) := by
  cases child with
  | none => exact suits_empty config depth hafter more
  | some c =>
    cases c with
    | null => exact suits_empty config depth hafter more
    | bool | num | str | arr | obj => exact h _ rfl

/-- What has been put in the slot of a name or a position is found there again. -/
theorem Settled.of_slot {done : Path} {depth : Nat} {key : ChildKey} {d : Json}
    (hs : s.isConcrete = true) (hdepth : depth ≤ config.maxDepth) (ht : t.WellFormed)
    (havoid : s.isKey = true → t.kind ≠ .sequence) (hslot : slot? config s t = some (key, u))
    (hd : d.WellFormed)
    (hend : rest = [] → (finish config (.merge v) (some key) depth : Write Json Nat).Fixes
      (u.putChild key d))
    (hbelow : rest ≠ [] → d ≠ .null ∧
      (writeAt config (.merge v) (done.append s) rest (depth + 1) : Write Json Nat).Fixes d) :
    Settled config v done (s :: rest) depth t (u.putChild key d) := by
  have hin := slot_of_slot? ht hslot
  have hput := wellFormed_putChild hin.wellFormed hd key
  have hagain := slot?_put havoid hslot d
  have hchild := child?_putChild hin.lists.accepts d
  refine ⟨hput, ?_, ?_⟩
  · intro _ _ hnull
    have hlists := lists_putChild hin.lists key d
    rw [hnull] at hlists
    cases key <;> exact hlists
  · rw [writeAt, if_neg (Nat.not_lt.mpr hdepth)]
    apply writeOn_slot config done hs rfl rest depth hput
    · intro hnone
      rw [hagain] at hnone
      cases hnone
    · intro hrest k w hfound
      rw [hagain] at hfound
      obtain ⟨rfl, rfl⟩ := Prod.mk.inj (Option.some.inj hfound)
      exact hend hrest
    · intro after more hrest k w hfound
      rw [hagain] at hfound
      obtain ⟨rfl, rfl⟩ := Prod.mk.inj (Option.some.inj hfound)
      subst hrest
      obtain ⟨hpresent, hfixes⟩ := hbelow (List.cons_ne_nil _ _)
      rw [hchild, orEmpty_of_ne after.container hpresent]
      refine hfixes.imp ?_
      intro r e he
      obtain ⟨hok, rfl⟩ := he
      exact ⟨hok, putChild_child? hput hchild⟩

theorem writeOn_slot_settles (hv : v.WellFormed) (hs : s.isConcrete = true)
    (hrest : Path.SelectsChildren rest) (done : Path) {depth : Nat}
    (hdepth : depth ≤ config.maxDepth) (ht : t.WellFormed)
    (hsuits : Suits config (s :: rest) depth t)
    (hinside : ∀ c : Json, c.WellFormed → Suits config rest (depth + 1) c →
      (writeAt config (.merge v) (done.append s) rest (depth + 1) : Write Json Nat).Ensures c
        fun _ d => Settled config v (done.append s) rest (depth + 1) c d) :
    (writeOn config (.merge v) done (s :: rest) depth : Write Json Nat).Ensures t
      fun _ u => Settled config v done (s :: rest) depth t u := by
  obtain ⟨havoid, -, hbelow⟩ := hsuits hdepth
  apply Write.Ensures.of_leaves
  apply writeOn_slot config done hs rfl rest depth ht
  · intro _ e _ n hn
    cases hn
  · intro hend key u hslot
    have hin := slot_of_slot? ht hslot
    have hold := fun w (hw : u.child? key = some w) => wellFormed_child? hin.wellFormed hw
    refine (finish_merge config hv hin.wellFormed (acceptsAt_some hin.lists.accepts)).imp ?_
    intro r w hw n hn
    obtain ⟨-, rfl⟩ := hw
    have hd := wellFormed_combinedTo .merge true (config.maxDepth - depth) hold v hv
    refine .of_slot config hs hdepth ht havoid hslot hd (fun _ => ?_) (fun hne => absurd hend hne)
    have hput := wellFormed_putChild hin.wellFormed hd key
    exact finish_fixes config hv hput (child?_putChild hin.lists.accepts _)
      (combinedTo_absorbs v hv _ hold)
  · intro after more hmore key u hslot
    subst hmore
    have hin := slot_of_slot? ht hslot
    have hchild : (orEmpty after.container (u.child? key)).WellFormed :=
      wellFormed_filled_child after.container hin.wellFormed key
    have hon : Suits config (after :: more) (depth + 1) (orEmpty after.container (u.child? key)) := by
      apply suits_filled config hrest.head
      intro c hc
      rcases hin.mem_or ((mem_children_iff hin.wellFormed hin.lists).mpr hc) with
        hbefore | ⟨name, items, rfl, rfl, -⟩
      · exact hbelow _ (mem_picked_of_slot? ht hslot hbefore)
      · exact absurd rfl (havoid rfl)
    have hpresent := orEmpty_ne_null after.container_ne_leaf (u.child? key)
    intro n hn
    have hsettled := hinside _ hchild hon n hn
    exact .of_slot config hs hdepth ht havoid hslot hsettled.wellFormed
      (fun hnil => absurd hnil (List.cons_ne_nil _ _))
      fun hne => ⟨hsettled.present hne hpresent, hsettled.fixed⟩

/-- Where a write does not refuse to go on at several children, only null is no container. -/
theorem null_of_leaf (hs : s.selectsChildren = true) (hconcrete : s.isConcrete = false)
    (haccepted : ¬s.refusesAt t) (havoid : ∀ query, s = .predicate query → t.kind = .leaf → t = .null)
    (hleaf : t.kind = .leaf) : t = .null := by
  by_contra hnull
  rcases s.eq_of_selectsChildren hs with h | ⟨slice, rfl⟩ | ⟨query, rfl⟩ | rfl
  · rw [hconcrete] at h
    cases h
  · exact haccepted ⟨by rw [hleaf]; exact NodeKind.noConfusion, hnull⟩
  · exact hnull (havoid query rfl hleaf)
  · exact haccepted ⟨hleaf, hnull⟩

theorem refusesAt_of_kind (hkind : u.kind = t.kind) (hnull : t = .null → u = .null)
    (h : s.refusesAt u) : s.refusesAt t := by
  cases s with
  | slice slice =>
    obtain ⟨hsequence, hpresent⟩ := h
    exact ⟨hkind ▸ hsequence, fun ht => hpresent (hnull ht)⟩
  | tag tag =>
    cases tag with
    | children =>
      obtain ⟨hleaf, hpresent⟩ := h
      exact ⟨hkind ▸ hleaf, fun ht => hpresent (hnull ht)⟩
    | _ => exact h
  | key | index | predicate | union | tuple => exact h

/-- Several children that are picked in a container of the same kind and size were picked before, if
they have been there before. -/
theorem mem_picked_of_size (hconcrete : s.isConcrete = false) (ht : t.WellFormed)
    (hkind : u.kind = t.kind) (hsize : u.size = t.size) {e : ChildKey × Json}
    (he : e ∈ picked config s u) (hmem : e ∈ t.children) : e ∈ picked config s t := by
  cases s with
  | slice slice =>
    rw [picked] at he ⊢
    by_cases hsequence : t.kind = .sequence
    · rw [if_pos (hkind.trans hsequence)] at he
      rw [if_pos hsequence]
      obtain ⟨i, hi, hentry⟩ := List.mem_filterMap.mp he
      obtain ⟨w, -, rfl⟩ := Option.map_eq_some_iff.mp hentry
      refine List.mem_filterMap.mpr ⟨i, hsize ▸ hi, ?_⟩
      rw [entryAt?, child?_of_mem ht hmem]
      rfl
    · rw [if_neg (fun h => hsequence (hkind.symm.trans h))] at he
      exact absurd he List.not_mem_nil
  | predicate query => exact List.mem_filter.mpr ⟨hmem, (List.mem_filter.mp he).2⟩
  | tag tag =>
    cases tag with
    | children => exact hmem
    | _ => exact absurd he List.not_mem_nil
  | key | index => cases hconcrete
  | union | tuple => exact absurd he List.not_mem_nil

/-- The step at a child exchanges it for one at which the step changes nothing. -/
theorem writeInto_settles (hv : v.WellFormed) (done : Path) (depth : Nat)
    (ht : t.WellFormed) {key : ChildKey} {c : Json} (hc : t.child? key = some c)
    (hinside : rest ≠ [] →
      (writeAt config (.merge v) done rest (depth + 1) : Write Json Nat).Ensures c
        fun _ d => Settled config v done rest (depth + 1) c d) :
    (writeInto config (.merge v) done rest depth key).Ensures t fun _ w =>
      ∃ d, d.WellFormed ∧ (∀ u : Json, u.WellFormed → u.child? key = some d →
        (writeInto config (.merge v) done rest depth key).Fixes u) ∧ w = t.putChild key d := by
  have hold : t.at? (some key) = some c := hc
  have hchild : ∀ w, t.at? (some key) = some w → w.WellFormed := fun w hw => wellFormed_child? ht hw
  cases rest with
  | nil =>
    apply Write.Ensures.of_leaves
    refine (finish_merge config hv ht (acceptsAt_of_at? hold)).imp ?_
    intro r w hw n hn
    obtain ⟨-, rfl⟩ := hw
    refine ⟨_, wellFormed_combinedTo .merge true _ hchild v hv, ?_, rfl⟩
    intro u hu hd
    exact finish_fixes config hv hu hd (combinedTo_absorbs v hv _ hchild)
  | cons after more =>
    intro n hn
    rw [writeInto, inChild_eq _ hc] at hn ⊢
    have hsettled := hinside (List.cons_ne_nil _ _) n hn
    refine ⟨_, hsettled.wellFormed, ?_, rfl⟩
    intro u hu hd
    apply Write.Fixes.inChild hu
    intro e he
    obtain rfl := Option.some.inj (hd.symm.trans he)
    exact hsettled.fixed

theorem writeOn_spreads_settles (hv : v.WellFormed) (hs : s.selectsChildren = true)
    (hconcrete : s.isConcrete = false) (done : Path) {depth : Nat}
    (hdepth : depth ≤ config.maxDepth) (ht : t.WellFormed)
    (hsuits : Suits config (s :: rest) depth t)
    (hinside : ∀ c : Json, c.WellFormed → Suits config rest (depth + 1) c →
      (writeAt config (.merge v) (done.append s) rest (depth + 1) : Write Json Nat).Ensures c
        fun _ d => Settled config v (done.append s) rest (depth + 1) c d) :
    (writeOn config (.merge v) done (s :: rest) depth : Write Json Nat).Ensures t
      fun _ u => Settled config v done (s :: rest) depth t u := by
  obtain ⟨-, havoid, hbelow⟩ := hsuits hdepth
  apply Write.Ensures.of_leaves
  apply writeOn_spreads config done hs hconcrete rest depth ht
  · intro _ e n hn
    cases hn
  · exact fun hstays => absurd hstays (not_staysAt config havoid)
  · intro haccepted _
    let step := writeInto config (.merge v) (done.append s) rest depth
    let settled (key : ChildKey) (d : Json) : Prop :=
      ∀ u : Json, u.WellFormed → u.child? key = some d → (step key).Fixes u
    have hexchanged : (Write.sum step ((picked config s t).map Prod.fst)).Ensures t
        fun _ u => Exchanged settled ((picked config s t).map Prod.fst) t u := by
      apply sum_exchanges (picked_nodup ht) ht
      · intro key hkey
        obtain ⟨e, he, rfl⟩ := List.mem_map.mp hkey
        exact ⟨e.2, mem_children_of_picked he⟩
      · intro key hkey u c hu hc hcu
        obtain ⟨e, he, rfl⟩ := List.mem_map.mp hkey
        obtain rfl := children_unique ht hc (mem_children_of_picked he)
        have hwell := wellFormed_of_mem_children ht hc
        exact writeInto_settles config hv (done.append s) depth hu (child?_of_mem hu hcu)
          fun _ => hinside _ hwell (hbelow e he)
    rw [writeEach_eq config rfl]
    intro n hn
    have hu := hexchanged n hn
    have hnull := null_of_leaf hs hconcrete haccepted havoid
    refine ⟨hu.wellFormed, ?_, ?_⟩
    · intro _ hpresent hgone
      apply hpresent
      apply hnull
      rw [← hu.kind, hgone]
      rfl
    · rw [writeAt, if_neg (Nat.not_lt.mpr hdepth)]
      apply writeOn_spreads config done hs hconcrete rest depth hu.wellFormed
      · intro hrefuses
        exact absurd (refusesAt_of_kind hu.kind hu.null hrefuses) haccepted
      · intro hstays
        refine absurd hstays (not_staysAt config fun query hquery hleaf => ?_)
        exact hu.null (hnull (hu.kind.symm.trans hleaf))
      · intro _ _
        rw [writeEach_eq config rfl]
        apply Write.Fixes.sum
        intro key hkey
        obtain ⟨e, he, rfl⟩ := List.mem_map.mp hkey
        have hmem := mem_children_of_picked he
        rcases hu.child e.1 e.2 hmem with ⟨-, hsettled⟩ | ⟨hnot, hbefore⟩
        · exact hsettled _ hu.wellFormed (child?_of_mem hu.wellFormed hmem)
        · have hpicked := mem_picked_of_size config hconcrete ht hu.kind hu.size he hbefore
          exact absurd (List.mem_map_of_mem hpicked) hnot

end Steps

section Paths

variable (config : Config) {v : Json} {t : Json}

theorem Settled.deep (done p : Path) {depth : Nat} (hdeep : config.maxDepth < depth)
    (ht : t.WellFormed) : Settled config v done p depth t t where
  wellFormed := ht
  present _ h := h
  fixed := by
    rw [writeAt, if_pos hdeep]
    exact .trip ⟨⟨0, rfl⟩, rfl⟩

/-- What has been written along a path once is settled. -/
theorem writeAt_settles (hv : v.WellFormed) {p : Path} (hp : p.SelectsChildren) (done : Path)
    (depth : Nat) (ht : t.WellFormed) (hsuits : Suits config p depth t) :
    (writeAt config (.merge v) done p depth : Write Json Nat).Ensures t
      fun _ u => Settled config v done p depth t u := by
  induction p generalizing done depth t with
  | nil =>
    apply Write.Ensures.of_leaves
    by_cases hdeep : config.maxDepth < depth
    · rw [writeAt, if_pos hdeep]
      exact .trip fun _ _ => .deep config done [] hdeep ht
    · have hold : ∀ w, some t = some w → w.WellFormed := fun w hw => Option.some.inj hw ▸ ht
      have hd := wellFormed_combinedTo .merge true (config.maxDepth - depth) hold v hv
      rw [writeAt, if_neg hdeep, writeOn]
      have hkey : t.AcceptsAt none := by simp [AcceptsAt]
      refine (finish_merge config hv ht hkey).imp ?_
      intro r u hu n hn
      obtain ⟨-, rfl⟩ := hu
      refine ⟨hd, fun hne => absurd rfl hne, ?_⟩
      have hroot : ∀ u : Json, u.at? none = some u := fun _ => rfl
      rw [writeAt, if_neg hdeep, writeOn]
      exact finish_fixes config hv hd (hroot _) (combinedTo_absorbs v hv _ hold)
  | cons s rest ih =>
    by_cases hdeep : config.maxDepth < depth
    · apply Write.Ensures.of_leaves
      rw [writeAt, if_pos hdeep]
      exact .trip fun _ _ => .deep config done (s :: rest) hdeep ht
    · have hdepth := Nat.le_of_not_lt hdeep
      have hinside := fun (c : Json) (hc : c.WellFormed) (hon : Suits config rest (depth + 1) c) =>
        ih hp.tail (done.append s) (depth + 1) hc hon
      rw [writeAt, if_neg hdeep]
      cases hconcrete : s.isConcrete with
      | true =>
        exact writeOn_slot_settles config hv hconcrete hp.tail done hdepth ht hsuits hinside
      | false =>
        exact writeOn_spreads_settles config hv hp.head hconcrete done hdepth ht hsuits hinside

end Paths

section Resolving

/-- Updates are idempotent where merges replace: when an update along names, positions, slices,
predicates and children succeeds, the same update succeeds once more and changes nothing. -/
theorem update_idempotent {t v : Json} (ht : t.WellFormed) (hv : v.WellFormed) {p : Path}
    (hp : p.SelectsChildren) (r : Resolver) (hidempotent : r.config.idempotent = true)
    (hsuits : Suits r.config p 0 t) {n : Nat} {t' : Json} {r' : Resolver}
    (hupdate : Resolver.update t (.path p) v r = ((.ok n, t'), r')) :
    ∃ m, (Resolver.update t' (.path p) v r').1 = (.ok m, t') := by
  have hrun : ∀ (u : Json) (r : Resolver), r.config.idempotent = true →
      (Resolver.update u (.path p) v r).1 =
        let o := (writeAt r.config (.merge v) [] p 0 : Write Json Nat) u
        (o.result, o.tree) := by
    intro u r hr
    have hpatch : (Patch.merge v).withIdempotent r.config.idempotent = .merge v := by
      rw [hr]
      rfl
    rw [← hp.writePath_eq, ← hpatch]
    rfl
  have hconfig : r'.config = r.config := (congrArg (fun run => run.2.config) hupdate).symm
  have hfirst := hrun t r hidempotent
  rw [hupdate] at hfirst
  obtain ⟨hok, rfl⟩ := Prod.mk.inj hfirst
  have hsettled := writeAt_settles r.config hv hp [] 0 ht hsuits n hok.symm
  obtain ⟨⟨m, hm⟩, hsame⟩ := hsettled.fixed
  refine ⟨m, ?_⟩
  rw [hrun _ r' (hconfig ▸ hidempotent), hconfig]
  exact Prod.ext hm hsame

theorem update_idempotent_nested :
    let a : Json := .obj [("ok", .bool true), ("x", .obj [("y", .null)])]
    let b : Json := .obj [("ok", .bool true)]
    let t : Json := .obj [("rows", .arr [a, .null, b])]
    let v : Json := .obj [("u", .obj [("w", .arr [])])]
    let p : Path := [.key "rows", .predicate [([.key "ok"], .value (.bool true))], .key "x",
      .key "l", .index 1]
    let r : Resolver := .new .default
    ∃ t' r', Resolver.update t (.path p) v r = ((.ok 2, t'), r') ∧
      ∃ m, (Resolver.update t' (.path p) v r').1 = (.ok m, t') := by
  intro a b t v p r
  have ha : a.WellFormed :=
    ⟨Fields.ascending_pair (by decide) _ _, trivial, ⟨Fields.ascending_single _ _, trivial, trivial⟩,
      trivial⟩
  have hb : b.WellFormed := ⟨Fields.ascending_single _ _, trivial, trivial⟩
  have ht : t.WellFormed := ⟨Fields.ascending_single _ _, ⟨ha, trivial, hb, trivial⟩, trivial⟩
  have hv : v.WellFormed :=
    ⟨Fields.ascending_single _ _, ⟨Fields.ascending_single _ _, trivial, trivial⟩, trivial⟩
  have hsuits : Suits r.config p 0 t := by
    have hname : ∀ (name : String) (rest : Path) (depth : Nat) (c : Json), c.kind = .mapping →
        (∀ e ∈ picked r.config (.key name) c, Suits r.config rest (depth + 1) e.2) →
        Suits r.config (.key name :: rest) depth c := by
      intro name rest depth c hmapping hrest _
      refine ⟨fun _ => ?_, ?_, hrest⟩
      · rw [hmapping]
        exact NodeKind.noConfusion
      · intro query hquery
        cases hquery
    have hrows : picked r.config (.key "rows") t = [(.name "rows", .arr [a, .null, b])] := by cbv
    have hmatching : picked r.config (.predicate [([.key "ok"], .value (.bool true))])
        (.arr [a, .null, b]) = [(.index 0, a), (.index 2, b)] := by cbv
    have hx : picked r.config (.key "x") a = [(.name "x", .obj [("y", .null)])] := by cbv
    have hmissing : picked r.config (.key "x") b = [] := by cbv
    have hl : picked r.config (.key "l") (.obj [("y", .null)]) = [] := by cbv
    apply hname "rows" _ _ t rfl
    intro e he
    rw [hrows, List.mem_singleton] at he
    subst he
    refine fun _ => ⟨by simp [Segment.isKey], fun _ _ hleaf => NodeKind.noConfusion hleaf, ?_⟩
    intro e he
    simp only [hmatching, List.mem_cons, List.not_mem_nil, or_false] at he
    rcases he with rfl | rfl
    · apply hname "x" _ _ a rfl
      rw [hx]
      intro e he
      rw [List.mem_singleton] at he
      subst he
      apply hname "l" _ _ _ rfl
      rw [hl]
      exact fun e he => absurd he List.not_mem_nil
    · apply hname "x" _ _ b rfl
      rw [hmissing]
      exact fun e he => absurd he List.not_mem_nil
  have hok : (Resolver.update t (.path p) v r).1.1 = .ok 2 := by
    cbv
    simp only [writeEach]
    cbv
  have hrun := Resolver.run_eq hok
  exact ⟨_, _, hrun, update_idempotent ht hv (by decide) r rfl hsuits hrun⟩

end Resolving

end TreePath

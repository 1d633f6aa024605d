import Mathlib.Data.List.Basic
import TreePath.Proofs.Write.Deletion
import TreePath.Proofs.Write.Spreading
import TreePath.Proofs.Write.Untripped

namespace TreePath

open TreeUpdate Json

section Children

namespace Json

/-- The value with its children exchanged for what `g` makes of them. -/
def mapChildren (g : ChildKey → Json → Json) : Json → Json
  | .obj fields => .obj (fields.map fun f => (f.1, g (.name f.1) f.2))
  | .arr items => .arr (items.mapIdx fun i v => g (.index i) v)
  | v => v

variable {t v : Json} {key : ChildKey} {f g : ChildKey → Json → Json}

theorem mapChildren_congr (h : ∀ key v, (key, v) ∈ t.children → f key v = g key v) :
    t.mapChildren f = t.mapChildren g := by
  cases t with
  | arr items =>
    refine congrArg Json.arr (List.ext_getElem? fun i => ?_)
    rw [List.getElem?_mapIdx, List.getElem?_mapIdx]
    refine Option.map_congr fun v hv => ?_
    exact h _ v (mem_children_arr.mpr ⟨i, rfl, hv⟩)
  | obj fields =>
    refine congrArg Json.obj (List.map_congr_left fun f hf => ?_)
    rw [h _ f.2 (mem_children_obj.mpr ⟨f.1, rfl, hf⟩)]
  | null | bool | num | str => rfl

theorem mapChildren_self (t : Json) : t.mapChildren (fun _ v => v) = t := by
  cases t with
  | arr items => exact congrArg Json.arr (List.ext_getElem? fun i => by simp)
  | obj fields => exact congrArg Json.obj (List.map_id _)
  | null | bool | num | str => rfl

/-- The keys stay what they are. -/
theorem childKeys_mapChildren (g : ChildKey → Json → Json) (t : Json) :
    (t.mapChildren g).childKeys = t.childKeys := by
  cases t with
  | arr items =>
    simp only [mapChildren, childKeys, children]
    refine List.ext_getElem? fun i => ?_
    simp [Function.comp_def]
  | obj fields => simp [mapChildren, childKeys, children]
  | null | bool | num | str => rfl

theorem child?_mapChildren (ht : t.WellFormed) (h : (key, v) ∈ t.children) :
    (t.mapChildren g).child? key = some (g key v) := by
  cases t with
  | arr items =>
    obtain ⟨i, rfl, hget⟩ := mem_children_arr.mp h
    simp [mapChildren, child?, hget]
  | obj fields =>
    obtain ⟨name, rfl, hmem⟩ := mem_children_obj.mp h
    refine Fields.find?_of_mem ?_ (List.mem_map.mpr ⟨(name, v), hmem, rfl⟩)
    exact List.pairwise_map.mpr ht.1
  | null | bool | num | str => exact absurd h List.not_mem_nil

/-- To exchange one child more is to exchange all of them at once. -/
theorem putChild_mapChildren (ht : t.WellFormed) (h : (key, v) ∈ t.children) (w : Json) :
    (t.mapChildren g).putChild key w =
      t.mapChildren fun k u => if k = key then w else g k u := by
  cases t with
  | arr items =>
    obtain ⟨i, rfl, hget⟩ := mem_children_arr.mp h
    obtain ⟨hi, -⟩ := List.getElem?_eq_some_iff.mp hget
    rw [mapChildren, putChild_arr_of_lt (by simpa using hi), mapChildren]
    refine congrArg Json.arr (List.ext_getElem? fun j => ?_)
    by_cases hij : i = j
    · subst hij
      simp [hi]
    · have hji : ¬j = i := fun he => hij he.symm
      simp [hij, hji]
  | obj fields =>
    obtain ⟨name, rfl, hmem⟩ := mem_children_obj.mp h
    have hascending : Fields.Ascending (fields.map fun f => (f.1, g (.name f.1) f.2)) :=
      List.pairwise_map.mpr ht.1
    rw [mapChildren, putChild_obj, ChildKey.asName,
      Fields.insert_eq_map hascending (List.mem_map.mpr ⟨(name, v), hmem, rfl⟩), List.map_map,
      mapChildren]
    refine congrArg Json.obj (List.map_congr_left fun f _ => ?_)
    by_cases hf : f.1 = name <;> simp [hf]
  | null | bool | num | str => exact absurd h List.not_mem_nil

end Json

end Children

section Sums

/-- What is left by steps inside of the chosen children of a value, when the others have become what
`g` makes of them: each of the chosen ones is as the step alone leaves it, and the counts are added
up; or the step alone fails at one of them. -/
def Stepped (alone : Write Json Nat) (chosen : List (ChildKey × Json))
    (g : ChildKey → Json → Json) (t : Json) (o : Outcome Json Nat) : Prop :=
  match o.result with
  | .ok n =>
    o.tree = t.mapChildren (fun k u => if k ∈ chosen.map Prod.fst then (alone u).tree else g k u) ∧
      ∃ counts, List.Forall₂ (fun e count => (alone e.2).result = .ok count) chosen counts ∧
        n = counts.sum
  | .error _ => ∃ e ∈ chosen, ∃ error, (alone e.2).result = .error error

theorem exists_of_forall₂ {α β : Type} {R : α → β → Prop} {xs : List α} {ys : List β}
    (h : List.Forall₂ R xs ys) {x : α} (hx : x ∈ xs) : ∃ y, R x y := by
  induction h with
  | nil => cases hx
  | cons hfirst _ ih =>
    rcases List.mem_cons.mp hx with rfl | hx
    · exact ⟨_, hfirst⟩
    · exact ih hx

theorem Stepped.fails_iff {alone : Write Json Nat} {chosen : List (ChildKey × Json)}
    {g : ChildKey → Json → Json} {t : Json} {o : Outcome Json Nat}
    (h : Stepped alone chosen g t o) :
    (∃ error, o.result = .error error) ↔
      ∃ e ∈ chosen, ∃ error, (alone e.2).result = .error error := by
  cases hresult : o.result with
  | error error =>
    rw [Stepped, hresult] at h
    exact ⟨fun _ => h, fun _ => ⟨error, rfl⟩⟩
  | ok n =>
    rw [Stepped, hresult] at h
    obtain ⟨-, counts, hcounts, -⟩ := h
    constructor
    · rintro ⟨error, herror⟩
      cases herror
    · rintro ⟨e, he, error, herror⟩
      obtain ⟨count, hcount⟩ := exists_of_forall₂ hcounts he
      rw [hcount] at herror
      cases herror

variable {x alone : Write Json Nat} {t : Json}

/-- One child after the other is stepped into, and none of the others is touched. -/
theorem sum_inChild_stepped (hx : x.EchoedBy alone) {chosen : List (ChildKey × Json)}
    (ht : t.WellFormed) (hmem : ∀ e ∈ chosen, e ∈ t.children)
    (hkeys : (chosen.map Prod.fst).Nodup) {g : ChildKey → Json → Json}
    (hg : ∀ e ∈ chosen, g e.1 e.2 = e.2)
    (htrips : (Write.sum (fun key => inChild key x) (chosen.map Prod.fst) (t.mapChildren g)).trips
      = 0) :
    Stepped alone chosen g t
      (Write.sum (fun key => inChild key x) (chosen.map Prod.fst) (t.mapChildren g)) := by
  induction chosen generalizing g with
  | nil => exact ⟨mapChildren_congr fun key v _ => by simp, [], .nil, rfl⟩
  | cons e rest ih =>
    obtain ⟨key, v⟩ := e
    have hv : (key, v) ∈ t.children := hmem _ List.mem_cons_self
    obtain ⟨hkey, hrest⟩ := List.nodup_cons.mp hkeys
    have hchild : (t.mapChildren g).child? key = some v := by
      rw [child?_mapChildren ht hv, hg _ List.mem_cons_self]
    have hfirst := inChild_eq x hchild
    rw [List.map_cons, Write.sum, Write.bind_apply, hfirst] at htrips ⊢
    have halone := hx v
    rcases hxv : x v with ⟨r, w, k⟩
    rw [hxv] at htrips halone
    cases r with
    | error error =>
      obtain ⟨-, -, hresult⟩ := halone htrips
      obtain ⟨error, herror⟩ := Write.toOption_eq_none.mp hresult
      exact ⟨_, List.mem_cons_self, error, herror⟩
    | ok n =>
      simp only at htrips halone ⊢
      obtain ⟨-, htree, hresult⟩ := halone (by omega)
      have hcount := Write.toOption_eq_some.mp hresult
      obtain ⟨g', hg'⟩ : ∃ g', g' = fun k u => if k = key then w else g k u := ⟨_, rfl⟩
      rw [putChild_mapChildren ht hv, ← hg', Write.bind_apply] at htrips ⊢
      have hsame : ∀ e ∈ rest, g' e.1 e.2 = e.2 := by
        intro e he
        have hne : e.1 ≠ key := fun he' => hkey (List.mem_map.mpr ⟨e, he, he'⟩)
        simp only [hg', hne, if_false]
        exact hg e (List.mem_cons_of_mem _ he)
      have hothers := ih (fun e he => hmem e (List.mem_cons_of_mem _ he)) hrest hsame
      rcases hrun : Write.sum (fun key => inChild key x) (rest.map Prod.fst) (t.mapChildren g')
        with ⟨last, u, trips⟩
      rw [hrun] at htrips hothers
      cases last with
      | error error =>
        obtain ⟨e, he, herror⟩ := hothers (Nat.eq_zero_of_add_eq_zero_left htrips)
        exact ⟨e, List.mem_cons_of_mem _ he, herror⟩
      | ok m =>
        simp only [Write.pure_apply, Nat.add_zero] at htrips
        obtain ⟨hu, counts, hcounts, rfl⟩ := hothers (Nat.eq_zero_of_add_eq_zero_left htrips)
        refine ⟨hu.trans (mapChildren_congr fun k u hk => ?_), n :: counts, .cons hcount hcounts,
          rfl⟩
        by_cases hkk : k = key
        · subst hkk
          obtain rfl := children_unique ht hk hv
          simp [hkey, hg', htree]
        · simp only [hg', List.map_cons, List.mem_cons, hkk, false_or, if_false]

end Sums

section Spreading

variable (config : Config) {patch : Patch} {t : Json} {s : Segment}

/-- The segments that lead to several children of a value: a slice in a sequence, a predicate and
the children tag in any container. -/
def Segment.SpreadsAt (s : Segment) (t : Json) : Prop :=
  match s with
  | .slice _ => t.kind = .sequence
  | .predicate _ | .tag .children => t.kind ≠ .leaf
  | _ => False

theorem Segment.SpreadsAt.cases (hs : s.SpreadsAt t) :
    (∃ slice, s = .slice slice ∧ t.kind = .sequence) ∨
    (∃ query, s = .predicate query ∧ t.kind ≠ .leaf) ∨ s = .tag .children ∧ t.kind ≠ .leaf := by
  cases s with
  | slice slice => exact .inl ⟨slice, rfl, hs⟩
  | predicate query => exact .inr (.inl ⟨query, rfl, hs⟩)
  | tag tag =>
    cases tag with
    | children => exact .inr (.inr ⟨rfl, hs⟩)
    | _ => exact hs.elim
  | key | index | union | tuple => exact hs.elim

theorem Segment.SpreadsAt.selectsChildren (hs : s.SpreadsAt t) : s.selectsChildren = true := by
  obtain ⟨slice, rfl, -⟩ | ⟨query, rfl, -⟩ | ⟨rfl, -⟩ := hs.cases <;> rfl

/-- A read of the segment comes to the children that it picks. -/
theorem walk_spreadsAt (hs : s.SpreadsAt t) :
    (walk config [s] 0 t).value = .value (assemble t.kind (picked config s t)) := by
  have hnear : ¬config.maxDepth < 0 := Nat.not_lt_zero _
  have hend : ∀ child : Json, walk config [] 0 child = pure (.node child) := by
    intro child
    rw [walk, if_neg hnear, follow]
  have hspread : (spread t.kind (picked config s t) fun child => walk config [] 0 child).value =
      .value (assemble t.kind (picked config s t)) := by
    simp only [spread, hend, Guarded.value_bind, Guarded.value_mapM, Guarded.value_pure]
    exact congrArg (fun l => Resolved.value (assemble t.kind l)) (List.map_id _)
  rw [walk, if_neg hnear, ← hspread]
  obtain ⟨slice, rfl, hkind⟩ | ⟨query, rfl, hkind⟩ | ⟨rfl, hkind⟩ := hs.cases
  · rw [follow_slice config [] 0 slice hkind]
  · rw [follow_predicate config [] 0 query hkind]
  · rw [follow_children config [] 0 hkind]

theorem isVacant_of_kind (h : t.kind ≠ .leaf) : isVacant t = false := by
  cases t with
  | arr | obj => rfl
  | null | bool | num | str => exact absurd rfl h

theorem Write.walk_bind_apply {α β : Type} {f : Json → Guarded α} {k : α → Write Json β}
    (h : (f t).trips = 0) : (Write.walk f >>= k) t = k (f t).value t :=
  bind_ok (show Write.walk f t = ⟨.ok (f t).value, t, 0⟩ by rw [← h]; rfl) k

/-- Where a segment leads to several children, the write goes on at those that it picks. -/
theorem writeOn_eq_writeEach (done rest : Path) (depth : Nat) (ht : t.WellFormed)
    (hs : s.SpreadsAt t)
    (htrips : ((writeOn config patch done (s :: rest) depth : Write Json Nat) t).trips = 0) :
    (writeOn config patch done (s :: rest) depth : Write Json Nat) t =
      (writeEach config patch (done.append s) rest depth ((picked config s t).map Prod.fst) :
        Write Json Nat) t := by
  obtain ⟨slice, rfl, hkind⟩ | ⟨query, rfl, hkind⟩ | ⟨rfl, hkind⟩ := hs.cases
  · have hsequence : TreeUpdate.kind t = .sequence := hkind
    rw [writeOn, Write.view_bind_apply, if_pos hsequence, Write.view_bind_apply,
      ← sliceKeys_eq config slice hkind]
    rfl
  · have hpresent : ¬isVacant t = true := by simp [isVacant_of_kind hkind]
    have hcontainer : ¬TreeUpdate.kind t = .leaf := hkind
    rw [writeOn, Write.view_bind_apply, if_neg hpresent, Write.view_bind_apply,
      if_neg hcontainer] at htrips ⊢
    rw [Write.walk_bind_apply (Nat.eq_zero_of_add_eq_zero_right htrips),
      matchingKeys_eq config query ht]
  · have hpresent : ¬isVacant t = true := by simp [isVacant_of_kind hkind]
    have hcontainer : ¬TreeUpdate.kind t = .leaf := hkind
    rw [writeOn, Write.view_bind_apply, if_neg hpresent, Write.view_bind_apply,
      if_neg hcontainer, Write.view_bind_apply]
    rfl

/-- The whole write steps into the children that the segment picks, with the write of the rest of
the path to each of them. -/
theorem write_stepped (ht : t.WellFormed) (hs : s.SpreadsAt t) {rest : Path}
    (hrest : rest.SelectsChildren) (hne : rest ≠ [])
    (htrips : ((write config (s :: rest) patch : Write Json Nat) t).trips = 0) :
    Stepped (write config rest patch) (picked config s t) (fun _ v => v) t
      ((write config (s :: rest) patch : Write Json Nat) t) := by
  have hpath : Path.SelectsChildren (s :: rest) := by
    intro r hr
    rcases List.mem_cons.mp hr with rfl | hr
    · exact hs.selectsChildren
    · exact hrest r hr
  have hnear : ¬config.maxDepth < 0 := Nat.not_lt_zero _
  have hecho : (writeAt config patch [s] rest 1 : Write Json Nat).EchoedBy
      (write config rest patch) := by
    rw [hrest.write_eq]
    exact writeAt_upward config patch [s] [] rest (Nat.zero_le 1)
  have hon : (write config (s :: rest) patch : Write Json Nat) t =
      (writeOn config patch [] (s :: rest) 0 : Write Json Nat) t := by
    rw [hpath.write_eq, writeAt, if_neg hnear]
  have hsum : (write config (s :: rest) patch : Write Json Nat) t =
      Write.sum (fun key => inChild key (writeAt config patch [s] rest 1))
        ((picked config s t).map Prod.fst) (t.mapChildren fun _ v => v) := by
    rw [hon, writeOn_eq_writeEach config [] rest 0 ht hs (hon ▸ htrips), mapChildren_self]
    cases rest with
    | nil => exact absurd rfl hne
    | cons after more =>
      rw [writeEach]
      · rfl
      · simp
  rw [hsum]
  exact sum_inChild_stepped hecho ht (fun e he => mem_children_of_picked he) (picked_nodup ht)
    (fun e he => rfl) (hsum ▸ htrips)

/-- Writes through a segment that leads to several children are pointwise. Each child that a read of
the segment leads to in the value before the write is left as a write of the rest of the path to it
alone leaves it. All other children, the keys and the length stay what they are. The counts are
added up, and the write fails just when one of these writes fails. -/
theorem write_pointwise (ht : t.WellFormed) (hs : s.SpreadsAt t) {rest : Path}
    (hrest : rest.SelectsChildren) (hne : rest ≠ [])
    (htrips : ((write config (s :: rest) patch : Write Json Nat) t).trips = 0) :
    let chosen := picked config s t
    let alone := (write config rest patch : Write Json Nat)
    let o := (write config (s :: rest) patch : Write Json Nat) t
    (walk config [s] 0 t).value = .value (assemble t.kind chosen) ∧
    (∀ n, o.result = .ok n →
      o.tree = t.mapChildren (fun key v =>
        if key ∈ chosen.map Prod.fst then (alone v).tree else v) ∧
      o.tree.childKeys = t.childKeys ∧
      ∃ counts, List.Forall₂ (fun e count => (alone e.2).result = .ok count) chosen counts ∧
        n = counts.sum) ∧
    ((∃ error, o.result = .error error) ↔
      ∃ e ∈ chosen, ∃ error, (alone e.2).result = .error error) := by
  intro chosen alone o
  have hstepped : Stepped alone chosen (fun _ v => v) t o :=
    write_stepped config ht hs hrest hne htrips
  refine ⟨walk_spreadsAt config hs, fun n hn => ?_, hstepped.fails_iff⟩
  rw [Stepped, hn] at hstepped
  obtain ⟨htree, hcounts⟩ := hstepped
  exact ⟨htree, htree ▸ childKeys_mapChildren _ t, hcounts⟩

/-- A list is put at each of the elements that match, and the other one stays. -/
theorem write_pointwise_matching :
    let a : Json := .obj [("ok", .bool true)]
    let b : Json := .obj [("ok", .bool false)]
    let s : Segment := .predicate [([.key "ok"], .value (.bool true))]
    let rest : Path := [.key "v", .index 0]
    let o := (write .default (s :: rest) (.overwrite (.str "x")) : Write Json Nat) (.arr [a, b, a])
    let c : Json := .obj [("ok", .bool true), ("v", .arr [.str "x"])]
    o.trips = 0 ∧ o.result = .ok 2 ∧ o.tree = .arr [c, b, c] := by
  intro a b s rest o c
  have hobj : ∀ flag, (Json.obj [("ok", .bool flag)]).WellFormed := fun flag =>
    ⟨Fields.ascending_single _ _, trivial, trivial⟩
  have ht : (Json.arr [a, b, a]).WellFormed := ⟨hobj true, hobj false, hobj true, trivial⟩
  have hs : s.SpreadsAt (.arr [a, b, a]) := NodeKind.noConfusion
  have hrest : rest.SelectsChildren := by decide
  have htrips : ((write .default (s :: rest) (.overwrite (.str "x")) : Write Json Nat)
      (.arr [a, b, a])).trips = 0 := by
    simp only [s, rest]
    cbv
    simp only [writeEach]
    cbv
  have hresult : ((write .default (s :: rest) (.overwrite (.str "x")) : Write Json Nat)
      (.arr [a, b, a])).result = .ok 2 := by
    simp only [s, rest]
    cbv
    simp only [writeEach]
    cbv
  obtain ⟨-, hok, -⟩ := write_pointwise .default ht hs hrest (List.cons_ne_nil _ _) htrips
  obtain ⟨htree, -, -⟩ := hok 2 hresult
  refine ⟨htrips, hresult, htree.trans ?_⟩
  cbv

end Spreading

end TreePath

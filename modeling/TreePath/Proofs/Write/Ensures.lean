import TreePath.Proofs.Tree.Steps
import TreePath.Write.Enter

namespace TreePath

open TreeUpdate

variable {τ α β : Type}

/-- If the write succeeds, its answer and the tree afterwards are as stated. -/
def Write.Ensures (x : Write τ α) (t : τ) (post : α → τ → Prop) : Prop :=
  ∀ a, (x t).result = .ok a → post a (x t).tree

namespace Write.Ensures

variable {t : τ} {post : α → τ → Prop}

theorem pure {a : α} (h : post a t) : Ensures (Pure.pure a) t post := by
  intro b hb
  exact Except.ok.inj hb ▸ h

theorem fail (e : PathError) : Ensures (Write.fail e) t post := by
  intro a ha
  simp [Write.fail] at ha

theorem bind (mid : α → τ → Prop) {x : Write τ α} {f : α → Write τ β} {post : β → τ → Prop}
    (hx : Ensures x t mid) (hf : ∀ a t, mid a t → Ensures (f a) t post) :
    Ensures (x >>= f) t post := by
  intro b hb
  rw [Write.bind_apply] at hb ⊢
  have hmid := hx
  unfold Ensures at hmid
  cases hxt : x t with
  | mk r t' trips =>
    rw [hxt] at hb hmid
    cases r with
    | error e => simp at hb
    | ok a => exact hf a t' (hmid a rfl) b hb

theorem view_bind {f : τ → α} {k : α → Write τ β} {post : β → τ → Prop}
    (hk : Ensures (k (f t)) t post) : Ensures (Write.view f >>= k) t post :=
  bind (fun a t' => a = f t ∧ t' = t)
    (fun _ ha => ⟨(Except.ok.inj ha).symm, rfl⟩) fun _ _ hmid => by
      obtain ⟨rfl, rfl⟩ := hmid
      exact hk

/-- What a write does is what it ensures. -/
theorem of_eq {x : Write τ α} {a : α} {u : τ} {trips : Nat} (hx : x t = ⟨.ok a, u, trips⟩)
    (h : post a u) : Ensures x t post := by
  intro b hb
  rw [hx] at hb ⊢
  exact Except.ok.inj hb ▸ h

theorem imp {x : Write τ α} {weaker : α → τ → Prop} (hx : Ensures x t post)
    (h : ∀ a u, post a u → weaker a u) : Ensures x t weaker :=
  fun a ha => h a _ (hx a ha)

end Write.Ensures

/-- The result of the write, or its error, and the tree afterwards are as stated. -/
def Write.Leaves (x : Write τ α) (t : τ) (post : Except PathError α → τ → Prop) : Prop :=
  post (x t).result (x t).tree

theorem Write.Ensures.of_leaves {x : Write τ α} {t : τ} {post : α → τ → Prop}
    (h : x.Leaves t fun r u => ∀ a, r = .ok a → post a u) : x.Ensures t post := h

namespace Write.Leaves

variable {t : τ} {post : Except PathError α → τ → Prop}

theorem pure {a : α} (h : post (.ok a) t) : Leaves (Pure.pure a) t post := h

theorem trip {a : α} (h : post (.ok a) t) : Leaves (Write.trip a) t post := h

theorem fail {e : PathError} (h : post (.error e) t) : Leaves (Write.fail e) t post := h

theorem of_eq {x : Write τ α} {r : Except PathError α} {u : τ} {trips : Nat}
    (hx : x t = ⟨r, u, trips⟩) (h : post r u) : Leaves x t post := by
  rw [Leaves, hx]
  exact h

theorem bind (mid : Except PathError α → τ → Prop) {x : Write τ α} {f : α → Write τ β}
    {post : Except PathError β → τ → Prop} (hx : Leaves x t mid)
    (hok : ∀ a u, mid (.ok a) u → Leaves (f a) u post)
    (herror : ∀ e u, mid (.error e) u → post (.error e) u) : Leaves (x >>= f) t post := by
  unfold Leaves at hx ⊢
  rw [Write.bind_apply]
  rcases hxt : x t with ⟨result, u, trips⟩
  rw [hxt] at hx
  cases result with
  | error e => exact herror e u hx
  | ok a => exact hok a u hx

theorem view_bind {f : τ → α} {k : α → Write τ β} {post : Except PathError β → τ → Prop}
    (hk : Leaves (k (f t)) t post) : Leaves (Write.view f >>= k) t post := by
  refine bind (fun r u => r = .ok (f t) ∧ u = t) ⟨rfl, rfl⟩ ?_ ?_
  · rintro a u ⟨ha, rfl⟩
    exact Except.ok.inj ha ▸ hk
  · rintro e u ⟨he, -⟩
    cases he

theorem walk_bind {f : τ → Guarded α} {k : α → Write τ β} {post : Except PathError β → τ → Prop}
    (hk : Leaves (k (f t).value) t post) : Leaves (Write.walk f >>= k) t post := by
  refine bind (fun r u => r = .ok (f t).value ∧ u = t) ⟨rfl, rfl⟩ ?_ ?_
  · rintro a u ⟨ha, rfl⟩
    exact Except.ok.inj ha ▸ hk
  · rintro e u ⟨he, -⟩
    cases he

theorem imp {x : Write τ α} {weaker : Except PathError α → τ → Prop} (hx : Leaves x t post)
    (h : ∀ r u, post r u → weaker r u) : Leaves x t weaker :=
  h _ _ hx

section Counts

variable {P : τ → Except PathError Nat → τ → Prop}
  (hadd : ∀ {t u w n r}, P t (.ok n) u → P u r w → P t (r.map (n + ·)) w)

include hadd

/-- One count after the other, where what holds of both holds of their sum. -/
theorem add {x y : Write τ Nat} (hx : Leaves x t (P t)) (hy : ∀ u, Leaves y u (P u)) :
    Leaves (do
      let n ← x
      let m ← y
      return n + m) t (P t) := by
  refine bind (P t) hx (fun n u hn => ?_) fun _ _ he => he
  refine bind (fun r w => P t (r.map (n + ·)) w) ?_ (fun m w hm => hm) fun _ _ he => he
  exact hadd hn (hy u)

theorem sum {f : α → Write τ Nat} {items : List α} (hnothing : ∀ t, P t (.ok 0) t)
    (hf : ∀ a ∈ items, ∀ u, Leaves (f a) u (P u)) : Leaves (Write.sum f items) t (P t) := by
  induction items generalizing t with
  | nil => exact pure (hnothing t)
  | cons a rest ih =>
    have hfirst : Leaves (f a) t (P t) := hf a List.mem_cons_self t
    have hothers : ∀ u, Leaves (Write.sum f rest) u (P u) := fun u =>
      ih fun b hb => hf b (List.mem_cons_of_mem _ hb)
    exact add hadd hfirst hothers

end Counts

end Write.Leaves

section Keys

theorem place?_lt {i : Int64} {len p : Nat} (h : place? i len = some p) : p < len ∨ p < 2 ^ 63 := by
  have hlt := Int64.toInt_lt i
  unfold place? at h
  by_cases hneg : i.toInt < 0
  · simp only [hneg, if_true, Option.ite_none_left_eq_some, Option.some.injEq] at h
    omega
  · simp only [hneg, if_false, Option.some.injEq] at h
    omega

theorem keyFits_name (n : String) (t : Json) : KeyFits (.name n) t := by
  intro k hk
  simp at hk

theorem keyFits_childKeys {key : ChildKey} {t : Json} (hkey : key ∈ t.childKeys) :
    KeyFits key t := by
  intro k hk
  obtain rfl := hk
  cases t with
  | arr items =>
    simp only [Json.childKeys, Json.children, List.mem_map, Prod.exists] at hkey
    obtain ⟨key, v, ⟨w, p, hmem, heq⟩, hk⟩ := hkey
    obtain ⟨rfl, rfl⟩ := Prod.mk.inj heq
    obtain rfl : p = k := by simpa using hk
    exact .inl (List.snd_lt_of_mem_zipIdx hmem)
  | obj fields =>
    simp only [Json.childKeys, Json.children, List.map_map, List.mem_map] at hkey
    obtain ⟨field, -, hk⟩ := hkey
    simp at hk
  | null | bool | num | str => simp [Json.childKeys, Json.children] at hkey

theorem size_patchedChild_end {items : List Json} (element : Json) :
    items.length < (Json.patchedChild (.index items.length) (Patch.overwrite element)
      (.arr items)).2.size := by
  unfold Json.patchedChild
  simp [Patch.resolve, Patch.overwrite, Patch.ofValue, Json.combine, Json.size, Json.padded]

theorem identifiedKey_fits (config : Config) (name : String) (removal : Bool) {items : List Json} :
    (identifiedKey config name removal : Write Json (Option ChildKey)).Ensures (.arr items)
      fun key t => ∀ k, key = some k → KeyFits k t := by
  unfold identifiedKey
  refine .view_bind ?_
  split
  · refine .pure fun key hkey => keyFits_childKeys ?_
    exact List.mem_of_find?_eq_some hkey
  · refine .view_bind (.bind (fun _ t => items.length < t.size) ?_ fun _ t ht => .pure ?_)
    · intro a _
      exact size_patchedChild_end _
    · intro key hkey k hk
      cases hkey
      cases hk
      exact .inl ht

theorem positionKey_fits (config : Config) (done : Path) (i : Int64) (removal : Bool) (t : Json) :
    (positionKey config done i removal : Write Json (Option ChildKey)).Ensures t
      fun key t => ∀ k, key = some k → KeyFits k t := by
  unfold positionKey
  refine .view_bind ?_
  split
  · next place hplace =>
    simp only
    split
    · exact .fail _
    · refine .pure ?_
      intro key hkey k hk
      cases hkey
      cases hk
      exact place?_lt hplace
  · split
    · exact .pure (by simp)
    · exact .fail _

theorem childKey_fits (config : Config) (done : Path) (s : Segment) (removal : Bool) (t : Json) :
    (childKey config done s removal : Write Json (Option ChildKey)).Ensures t
      fun key t => ∀ k, key = some k → KeyFits k t := by
  unfold childKey
  refine .view_bind ?_
  split
  · next name =>
    split
    · next hseq =>
      cases t with
      | arr items => exact identifiedKey_fits config name removal
      | null | bool | num | str | obj => simp [TreeUpdate.kind, Json.kind] at hseq
    · refine .pure ?_
      intro key hkey
      cases hkey
      exact keyFits_name _ _
  · split
    · exact positionKey_fits config done _ removal t
    · refine .pure ?_
      intro key hkey
      cases hkey
      exact keyFits_name _ _
  · exact .pure (by simp)

/-- The key that is entered can stand for a child. -/
theorem enter_fits (config : Config) (done : Path) (s : Segment) (removal : Bool) (t : Json) :
    (enter config done s removal : Write Json (Option ChildKey)).Ensures t
      fun key t => ∀ k, key = some k → KeyFits k t := by
  unfold enter
  refine .view_bind ?_
  split
  · exact .pure (by simp)
  · refine .bind (fun _ _ => True) (fun _ _ => trivial) fun a t _ => ?_
    split
    · exact childKey_fits config done s removal t
    · exact .view_bind (.fail _)

end Keys

end TreePath

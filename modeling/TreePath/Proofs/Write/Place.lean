import TreePath.Proofs.Patch
import TreePath.Proofs.Tree.Steps
import TreePath.Write.Settle

namespace TreePath

open TreeUpdate

namespace Write

variable {τ α β : Type}

/-- A step that succeeds without tripping a guard hands on to what follows. -/
theorem bind_ok {x : Write τ α} {t t' : τ} {a : α} (hx : x t = ⟨.ok a, t', 0⟩) (f : α → Write τ β) :
    (x >>= f) t = f a t' := by
  rw [bind_apply, hx]
  simp only [Nat.zero_add]

theorem bind_error {x : Write τ α} {t : τ} {e : PathError} (hx : (x t).result = .error e)
    (f : α → Write τ β) : ((x >>= f) t).result = .error e := by
  rw [bind_apply]
  cases hxt : x t with
  | mk result t' trips =>
    rw [hxt] at hx
    subst hx
    rfl

theorem bind_trips {x : Write τ α} {f : α → Write τ β} {t u w : τ} {a : α} {b : β} {k m : Nat}
    (hx : x t = ⟨.ok a, u, k⟩) (hf : f a u = ⟨.ok b, w, m⟩) :
    (x >>= f) t = ⟨.ok b, w, k + m⟩ := by
  rw [bind_apply, hx]
  simp only [hf]

theorem view_bind_apply (f : τ → α) (k : α → Write τ β) (t : τ) : (view f >>= k) t = k (f t) t :=
  bind_ok (show view f t = ⟨.ok (f t), t, 0⟩ from rfl) k

end Write

namespace Json

/-- Whether there can be a child at the key. -/
def Accepts (t : Json) (key : ChildKey) : Prop :=
  match t, key with
  | .obj _, _ => True
  | .arr _, .index _ => True
  | _, _ => False

/-- The value with `v` as its child at a key; a sequence is filled up to there. -/
def putChild (t : Json) (key : ChildKey) (v : Json) : Json :=
  match t, key with
  | .obj fields, key => .obj (Fields.insert fields key.asName v)
  | .arr items, .index k => .arr ((padded items (k + 1)).set k v)
  | t, _ => t

section Children

variable {t v w : Json} {key : ChildKey}

@[simp] theorem child?_obj (fields : List (String × Json)) (key : ChildKey) :
    (Json.obj fields).child? key = Fields.find? fields key.asName := by cases key <;> rfl

@[simp] theorem putChild_obj (fields : List (String × Json)) (key : ChildKey) (v : Json) :
    (Json.obj fields).putChild key v = .obj (Fields.insert fields key.asName v) := by
  cases key <;> rfl

@[simp] theorem replaceChild_obj (fields : List (String × Json)) (key : ChildKey) (v : Json) :
    (Json.obj fields).replaceChild key v = .obj (Fields.insert fields key.asName v) := by
  cases key <;> rfl

theorem padded_of_lt {items : List Json} {k : Nat} (hk : k < items.length) :
    padded items (k + 1) = items := by
  have hzero : k + 1 - items.length = 0 := by omega
  rw [padded, hzero, List.replicate_zero, List.append_nil]

theorem putChild_arr_of_lt {items : List Json} {k : Nat} (hk : k < items.length) (v : Json) :
    (Json.arr items).putChild (.index k) v = .arr (items.set k v) := by
  rw [putChild, padded_of_lt hk]

theorem lt_length_padded (items : List Json) (k : Nat) : k < (padded items (k + 1)).length := by
  simp [padded]
  omega

theorem child?_putChild (h : t.Accepts key) (v : Json) :
    (t.putChild key v).child? key = some v := by
  cases t with
  | obj fields =>
    rw [putChild_obj, child?_obj]
    exact Fields.find?_insert_self _ _ _
  | arr items =>
    cases key with
    | name n => exact absurd h id
    | index k =>
      change ((padded items (k + 1)).set k v)[k]? = some v
      rw [List.getElem?_set_self (lt_length_padded items k)]
  | null | bool | num | str => exact absurd h id

theorem putChild_putChild (h : t.Accepts key) (v w : Json) :
    (t.putChild key v).putChild key w = t.putChild key w := by
  cases t with
  | obj fields =>
    rw [putChild_obj, putChild_obj, putChild_obj, Fields.insert_insert]
  | arr items =>
    cases key with
    | name n => exact absurd h id
    | index k =>
      change Json.arr ((padded ((padded items (k + 1)).set k v) (k + 1)).set k w) = _
      rw [padded_of_lt (by simpa using lt_length_padded items k), List.set_set]
      rfl
  | null | bool | num | str => exact absurd h id

/-- To put in the child that is there changes nothing. -/
theorem putChild_child? (ht : t.WellFormed) (hv : t.child? key = some v) :
    t.putChild key v = t := by
  cases t with
  | obj fields =>
    rw [child?_obj] at hv
    rw [putChild_obj, Fields.insert_find? ht.1 hv]
  | arr items =>
    cases key with
    | name n => simp [child?] at hv
    | index k =>
      obtain ⟨hk, hget⟩ := List.getElem?_eq_some_iff.mp (show items[k]? = some v from hv)
      rw [putChild_arr_of_lt hk, ← hget, List.set_getElem_self]
  | null | bool | num | str => cases key <;> simp [child?] at hv

theorem accepts_of_child? (hv : t.child? key = some v) : t.Accepts key := by
  cases t with
  | obj fields => trivial
  | arr items =>
    cases key with
    | name n => simp [child?] at hv
    | index k => trivial
  | null | bool | num | str => cases key <;> simp [child?] at hv

/-- Where there is a child, to replace it is to put in another one. -/
theorem replaceChild_eq (hv : t.child? key = some v) (w : Json) :
    t.replaceChild key w = t.putChild key w := by
  cases t with
  | obj fields => rw [replaceChild_obj, putChild_obj]
  | arr items =>
    cases key with
    | name n => simp [child?] at hv
    | index k =>
      obtain ⟨hk, -⟩ := List.getElem?_eq_some_iff.mp (show items[k]? = some v from hv)
      rw [putChild_arr_of_lt hk]
      rfl
  | null | bool | num | str => cases key <;> simp [child?] at hv

theorem wellFormedItems_padded {items : List Json} (hw : WellFormedItems items) (n : Nat) :
    WellFormedItems (padded items n) := by
  refine wellFormedItems_append hw ?_
  generalize n - items.length = m
  induction m with
  | zero => trivial
  | succ m ih => exact ⟨trivial, ih⟩

theorem wellFormed_child? (ht : t.WellFormed) (hv : t.child? key = some v) : v.WellFormed := by
  cases t with
  | obj fields =>
    rw [child?_obj] at hv
    exact wellFormed_of_find? ht.2 hv
  | arr items =>
    cases key with
    | name n => simp [child?] at hv
    | index k => exact wellFormed_of_mem ht (List.mem_of_getElem? hv)
  | null | bool | num | str => cases key <;> simp [child?] at hv

theorem wellFormed_putChild (ht : t.WellFormed) (hv : v.WellFormed) (key : ChildKey) :
    (t.putChild key v).WellFormed := by
  cases t with
  | obj fields =>
    rw [putChild_obj]
    exact ⟨Fields.ascending_insert ht.1 _ _, wellFormedFields_insert ht.2 _ hv⟩
  | arr items =>
    cases key with
    | name n => exact ht
    | index k => exact wellFormedItems_set (wellFormedItems_padded ht _) k hv
  | null | bool | num | str => cases key <;> exact ht

end Children

section Places

/-- What is at a key, or the value itself. -/
def at? (t : Json) : Option ChildKey → Option Json
  | none => some t
  | some key => t.child? key

/-- The value with `v` at a key, or `v` itself. -/
def putAt (t : Json) (key : Option ChildKey) (v : Json) : Json :=
  match key with
  | none => v
  | some key => t.putChild key v

def AcceptsAt (t : Json) (key : Option ChildKey) : Prop := ∀ k, key = some k → t.Accepts k

variable {t : Json} {key : Option ChildKey} {patch : Patch} {v : Json}

theorem resolve_value (hvalue : patch.value = some v) (old : Option Json) :
    patch.resolve old = some (combine old v patch.policy patch.idempotent) := by
  rw [Patch.resolve, hvalue, Option.map_some]

theorem combine_present (v new : Json) (policy : MergePolicy) (idempotent : Bool) :
    combine v.present? new policy idempotent = combine (some v) new policy idempotent := by
  cases v with
  | null => exact (combine_null new policy idempotent).symm
  | bool | num | str | arr | obj => rfl

theorem patched_value (hvalue : patch.value = some v) (t : Json) :
    t.patched patch = (1, combine (some t) v patch.policy patch.idempotent) := by
  unfold patched
  rw [resolve_present, resolve_value hvalue]

theorem patchedChild_value (hvalue : patch.value = some v) {key : ChildKey} (h : t.Accepts key) :
    t.patchedChild key patch =
      (1, t.putChild key (combine (t.child? key) v patch.policy patch.idempotent)) := by
  cases t with
  | obj fields =>
    rw [patchedChild_obj, resolve_value hvalue, child?_obj, putChild_obj]
  | arr items =>
    cases key with
    | name n => exact absurd h id
    | index k =>
      change patchedChild (.index k) patch (.arr items) = (1, (Json.arr items).putChild (.index k)
        (combine items[k]? v patch.policy patch.idempotent))
      unfold patchedChild
      simp only
      cases hk : items[k]? with
      | some old =>
        obtain ⟨hlt, -⟩ := List.getElem?_eq_some_iff.mp hk
        simp only [resolve_value hvalue, combine_present]
        rw [putChild_arr_of_lt hlt]
      | none =>
        have hge : items.length ≤ k := List.getElem?_eq_none_iff.mp hk
        simp only [resolve_value hvalue]
        rw [putChild, set_padded hge]
  | null | bool | num | str => exact absurd h id

/-- A patch with a value puts the combined value in its place. -/
theorem apply_value (hvalue : patch.value = some v) (h : t.AcceptsAt key) :
    (apply key patch : Write Json Nat) t =
      ⟨.ok 1, t.putAt key (combine (t.at? key) v patch.policy patch.idempotent), 0⟩ := by
  cases key with
  | none =>
    change (⟨.ok (t.patched patch).1, (t.patched patch).2, 0⟩ : Outcome Json Nat) = _
    rw [patched_value hvalue]
    rfl
  | some key =>
    change (⟨.ok (t.patchedChild key patch).1, (t.patchedChild key patch).2, 0⟩ :
      Outcome Json Nat) = _
    rw [patchedChild_value hvalue (h key rfl)]
    rfl

theorem acceptsAt_some {key : ChildKey} (h : t.Accepts key) : t.AcceptsAt (some key) := by
  intro k hk
  exact Option.some.inj hk ▸ h

theorem at?_putAt (h : t.AcceptsAt key) (v : Json) : (t.putAt key v).at? key = some v := by
  cases key with
  | none => rfl
  | some key => exact child?_putChild (h key rfl) v

theorem putAt_putAt (h : t.AcceptsAt key) (v w : Json) :
    (t.putAt key v).putAt key w = t.putAt key w := by
  cases key with
  | none => rfl
  | some key => exact putChild_putChild (h key rfl) v w

theorem putAt_at? (ht : t.WellFormed) (hv : t.at? key = some v) : t.putAt key v = t := by
  cases key with
  | none => exact (Option.some.inj hv).symm
  | some key => exact putChild_child? ht hv

theorem acceptsAt_of_at? (hv : t.at? key = some v) : t.AcceptsAt key := by
  intro key hkey
  obtain rfl := hkey
  exact accepts_of_child? hv

theorem wellFormed_at? (ht : t.WellFormed) (hv : t.at? key = some v) : v.WellFormed := by
  cases key with
  | none => exact Option.some.inj hv ▸ ht
  | some key => exact wellFormed_child? ht hv

theorem wellFormed_putAt (ht : t.WellFormed) (hv : v.WellFormed) (key : Option ChildKey) :
    (t.putAt key v).WellFormed := by
  cases key with
  | none => exact hv
  | some key => exact wellFormed_putChild ht hv key

theorem kindAt?_eq (t : Json) (key : Option ChildKey) :
    kindAt? key t = ((t.at? key).bind present?).map kind := by
  cases key with
  | some key => rfl
  | none =>
    change (if t.isNull then none else some t.kind) = (present? t).map kind
    unfold present?
    cases t.isNull <;> rfl

/-- Only mappings are of the kind of mappings. -/
theorem at?_of_kindAt? (h : kindAt? key t = some .mapping) :
    ∃ fields, t.at? key = some (.obj fields) := by
  rw [kindAt?_eq] at h
  cases hv : t.at? key with
  | none => simp [hv] at h
  | some v =>
    cases v with
    | obj fields => exact ⟨fields, rfl⟩
    | null | bool | num | str | arr => simp [hv, present?, isNull, kind] at h

end Places

section Levels

mutual

/-- How many mappings a value has inside of each other, from the outside in. -/
def objectLevels : Json → Nat
  | .obj fields => fieldLevels fields + 1
  | _ => 0

def fieldLevels : List (String × Json) → Nat
  | [] => 0
  | (_, v) :: rest => max v.objectLevels (fieldLevels rest)

end

end Levels

section Combining

mutual

/-- A value combined with what is there, where a merge goes down `left` levels at most. -/
def combinedTo (policy : MergePolicy) (idempotent : Bool) (left : Nat) (old : Option Json)
    (v : Json) : Json :=
  match v with
  | .obj source =>
    match policy, old with
    | .merge, some (.obj target) => .obj (mergedFieldsTo idempotent left target source)
    | policy, old => combine old (.obj source) policy idempotent
  | v => combine old v policy idempotent

/-- The fields of a mapping with those of another one merged into them. Nothing is merged where no
level is left. -/
def mergedFieldsTo (idempotent : Bool) (left : Nat) (target : List (String × Json)) :
    List (String × Json) → List (String × Json)
  | [] => target
  | (name, v) :: rest =>
    match left with
    | 0 => target
    | left + 1 =>
      let v := combinedTo .merge idempotent left (Fields.find? target name) v
      mergedFieldsTo idempotent (left + 1) (Fields.insert target name v) rest

end

variable {policy : MergePolicy} {idempotent : Bool} {left : Nat} {target : List (String × Json)}
  {old : Option Json}

theorem combinedTo_mapping (source : List (String × Json)) :
    combinedTo .merge idempotent left (some (.obj target)) (.obj source) =
      .obj (mergedFieldsTo idempotent left target source) := by
  rw [combinedTo]

/-- Only a mapping that is merged into a mapping is gone through. -/
theorem combinedTo_other {v : Json}
    (h : ∀ target source, policy = .merge → old = some (.obj target) → v ≠ .obj source) :
    combinedTo policy idempotent left old v = combine old v policy idempotent := by
  cases v with
  | obj source =>
    rw [combinedTo]
    rintro target rfl rfl
    exact h target source rfl rfl rfl
  | null | bool | num | str | arr => simp [combinedTo]

theorem mergedFieldsTo_zero (source : List (String × Json)) :
    mergedFieldsTo idempotent 0 target source = target := by
  cases source with
  | nil => rw [mergedFieldsTo]
  | cons field rest => rw [mergedFieldsTo]

theorem mergedFieldsTo_succ (name : String) (v : Json) (rest : List (String × Json)) :
    mergedFieldsTo idempotent (left + 1) target ((name, v) :: rest) =
      mergedFieldsTo idempotent (left + 1) (Fields.insert target name
        (combinedTo .merge idempotent left (Fields.find? target name) v)) rest := by
  rw [mergedFieldsTo]

mutual

/-- Where there are levels enough, all is combined. -/
theorem combinedTo_eq (idempotent : Bool) {left : Nat} (v : Json)
    (hlevels : v.objectLevels ≤ left) (policy : MergePolicy) (old : Option Json) :
    combinedTo policy idempotent left old v = combine old v policy idempotent := by
  match v with
  | .obj source =>
    by_cases hmapping : policy = .merge ∧ ∃ target, old = some (.obj target)
    · obtain ⟨rfl, target, rfl⟩ := hmapping
      rw [combinedTo_mapping, combine, merged,
        mergedFieldsTo_eq idempotent source (by simpa only [objectLevels] using hlevels)]
    · apply combinedTo_other
      rintro target _ rfl rfl -
      exact hmapping ⟨rfl, target, rfl⟩
  | .arr _ | .null | .bool _ | .num _ | .str _ => exact combinedTo_other (by simp)

theorem mergedFieldsTo_eq (idempotent : Bool) {left : Nat} (source : List (String × Json))
    (hlevels : fieldLevels source + 1 ≤ left) (target : List (String × Json)) :
    mergedFieldsTo idempotent left target source = mergedFields idempotent target source := by
  match source, left with
  | [], _ => rw [mergedFieldsTo, mergedFields]
  | (name, v) :: rest, left + 1 =>
    simp only [fieldLevels] at hlevels
    have hlevels : v.objectLevels ≤ left ∧ fieldLevels rest + 1 ≤ left + 1 := by omega
    have hfield := combinedTo_eq idempotent v hlevels.1 .merge (Fields.find? target name)
    rw [mergedFieldsTo_succ, hfield, mergedFieldsTo_eq idempotent rest hlevels.2, mergedFields]
    rfl

end

mutual

theorem wellFormed_combinedTo (policy : MergePolicy) (idempotent : Bool) (left : Nat)
    {old : Option Json} (ho : ∀ v, old = some v → v.WellFormed) (v : Json) (hv : v.WellFormed) :
    (combinedTo policy idempotent left old v).WellFormed := by
  match v with
  | .obj source =>
    by_cases hmapping : policy = .merge ∧ ∃ target, old = some (.obj target)
    · obtain ⟨rfl, target, rfl⟩ := hmapping
      rw [combinedTo_mapping]
      exact wellFormed_mergedFieldsTo idempotent left (ho _ rfl) source hv.2
    · rw [combinedTo_other]
      · exact wellFormed_combine ho hv policy idempotent
      · rintro target _ rfl rfl -
        exact hmapping ⟨rfl, target, rfl⟩
  | .arr _ | .null | .bool _ | .num _ | .str _ =>
    rw [combinedTo_other (by simp)]
    exact wellFormed_combine ho hv policy idempotent

theorem wellFormed_mergedFieldsTo (idempotent : Bool) (left : Nat)
    {target : List (String × Json)} (ht : (Json.obj target).WellFormed)
    (source : List (String × Json)) (hs : WellFormedFields source) :
    (Json.obj (mergedFieldsTo idempotent left target source)).WellFormed := by
  match source, left with
  | [], _ =>
    rw [mergedFieldsTo]
    exact ht
  | _ :: _, 0 =>
    rw [mergedFieldsTo_zero]
    exact ht
  | (name, v) :: rest, left + 1 =>
    have hfield := wellFormed_combinedTo .merge idempotent left
      (fun w (hw : Fields.find? target name = some w) => wellFormed_of_find? ht.2 hw) v hs.1
    have hput := wellFormed_putChild ht hfield (.name name)
    rw [mergedFieldsTo_succ]
    exact wellFormed_mergedFieldsTo idempotent (left + 1) hput rest hs.2

end

end Combining

section Settling

/-- What is settled anywhere but where a mapping meets a mapping is applied as a whole. -/
theorem settle_apply {τ : Type} [TreeUpdate τ] (config : Config) (policy : MergePolicy)
    (idempotent : Bool) (v : Json) {t : τ} {place : Option ChildKey}
    (hother : v.kind = .mapping → kindAt? place t ≠ some .mapping) (depth : Nat) :
    (settle config policy idempotent v place depth : Write τ Nat) t =
      (apply place ⟨some v, policy, idempotent⟩ : Write τ Nat) t := by
  match v with
  | .obj fields =>
    have hplace := hother rfl
    rw [settle, Write.view_bind_apply, if_neg (by simp [hplace])]
  | .arr _ | .null | .bool _ | .num _ | .str _ =>
    rw [settle]
    simp

variable {t v : Json} {key : Option ChildKey}

/-- A step at a child that is there puts what it leaves in the place of the child. -/
theorem inChild_eq {key : ChildKey} (x : Write Json Nat) (hv : t.child? key = some v) :
    inChild key x t = ⟨(x v).result, t.putChild key (x v).tree, (x v).trips⟩ := by
  have hwith : (TreeUpdate.withChild key x : Write Json (Option Nat)) t =
      ⟨(x v).result.map some, t.putChild key (x v).tree, (x v).trips⟩ := by
    change Json.withChild key x t = _
    unfold Json.withChild
    rw [hv]
    simp only [replaceChild_eq hv]
  change (TreeUpdate.withChild key x >>= fun n => pure (n.getD 0) : Write Json Nat) t = _
  rw [Write.bind_apply, hwith]
  cases (x v).result <;> rfl

theorem atKey_eq {x : Write Json Nat} {u w : Json} {n trips : Nat} (hv : t.at? key = some v)
    (hx : x v = ⟨.ok n, w, trips⟩) (hu : t.putAt key w = u) :
    atKey key x t = ⟨.ok n, u, trips⟩ := by
  subst hu
  cases key with
  | none =>
    obtain rfl := Option.some.inj hv
    exact hx
  | some key =>
    change inChild key x t = _
    rw [inChild_eq x hv, hx]
    rfl

/-- Into a mapping, a name is entered as it is. -/
theorem enter_obj (config : Config) (name : String) (fields : List (String × Json)) :
    (enter config [] (.key name) false : Write Json (Option ChildKey)) (.obj fields) =
      ⟨.ok (some (.name name)), .obj fields, 0⟩ := rfl

mutual

/-- A value that is settled at a place is combined with what is there, as deep as the depth limit
allows. What counts nothing changes nothing. -/
theorem settle_eq (config : Config) (policy : MergePolicy) (idempotent : Bool) (v : Json)
    (hv : v.WellFormed) (key : Option ChildKey) (depth : Nat) (t : Json) (ht : t.WellFormed)
    (hkey : t.AcceptsAt key) {w : Json}
    (hw : combinedTo policy idempotent (config.maxDepth - depth) (t.at? key) v = w) :
    ∃ n trips, (settle config policy idempotent v key depth : Write Json Nat) t =
      ⟨.ok n, t.putAt key w, trips⟩ ∧ (n = 0 → t.at? key = some w) := by
  have happly : combine (t.at? key) v policy idempotent = w →
      (apply key ⟨some v, policy, idempotent⟩ : Write Json Nat) t = ⟨.ok 1, t.putAt key w, 0⟩ := by
    rintro rfl
    exact apply_value rfl hkey
  match v with
  | .obj source =>
    rw [settle, Write.view_bind_apply]
    split
    · next hmerge =>
      obtain ⟨target, hold⟩ : ∃ target, t.at? key = some (.obj target) :=
        at?_of_kindAt? (by simpa using (Bool.and_eq_true_iff.mp hmerge).2)
      obtain rfl : policy = .merge := by simpa using (Bool.and_eq_true_iff.mp hmerge).1
      rw [hold, combinedTo_mapping] at hw
      subst hw
      obtain ⟨n, trips, hrun, hzero⟩ :=
        settleFields_eq config idempotent source hv.2 key depth t ht hold
      exact ⟨n, trips, hrun, fun hn => hold.trans (by rw [hzero hn])⟩
    · next hother =>
      refine ⟨1, 0, happly ?_, by simp⟩
      rw [← hw, combinedTo_other]
      rintro target _ rfl hold -
      exact hother (by simp [kindAt?_eq, hold, present?, isNull, kind])
  | .arr _ | .null | .bool _ | .num _ | .str _ =>
    rw [combinedTo_other (by simp)] at hw
    rw [settle]
    all_goals first | exact ⟨1, 0, happly hw, by simp⟩ | simp

/-- Fields that are settled one by one in a mapping are merged into it. -/
theorem settleFields_eq (config : Config) (idempotent : Bool) (source : List (String × Json))
    (hv : WellFormedFields source) (key : Option ChildKey) (depth : Nat) (t : Json)
    (ht : t.WellFormed) {target : List (String × Json)} (hkey : t.at? key = some (.obj target)) :
    ∃ n trips, (settleFields config idempotent source key depth : Write Json Nat) t =
      ⟨.ok n, t.putAt key
        (.obj (mergedFieldsTo idempotent (config.maxDepth - depth) target source)), trips⟩ ∧
      (n = 0 → mergedFieldsTo idempotent (config.maxDepth - depth) target source = target) := by
  match source with
  | [] =>
    rw [settleFields, mergedFieldsTo, putAt_at? ht hkey]
    exact ⟨0, 0, rfl, fun _ => rfl⟩
  | (name, v) :: rest =>
    have htarget : (Json.obj target).WellFormed := wellFormed_at? ht hkey
    -- the mapping with this field merged into it, if the guard does not trip
    obtain ⟨n, middle, trips, hmiddle, hmerged, hfield, hnone⟩ : ∃ n middle trips,
        (Json.obj middle).WellFormed ∧
        mergedFieldsTo idempotent (config.maxDepth - depth) target ((name, v) :: rest) =
          mergedFieldsTo idempotent (config.maxDepth - depth) middle rest ∧
        atKey key (if config.maxDepth < depth + 1 then Write.trip 0 else do
          match ← enter config [] (.key name) false with
          | some field => settle config .merge idempotent v (some field) (depth + 1)
          | none => return 0) t = ⟨.ok n, t.putAt key (.obj middle), trips⟩ ∧
        (n = 0 → middle = target) := by
      split
      · next hdeep =>
        have hzero : config.maxDepth - depth = 0 := by omega
        have hnone : target = mergedFieldsTo idempotent 0 target rest :=
          (mergedFieldsTo_zero rest).symm
        rw [hzero, mergedFieldsTo_zero]
        exact ⟨0, target, 1, htarget, hnone, atKey_eq hkey rfl rfl, fun _ => rfl⟩
      · next hdepth =>
        have hleft : config.maxDepth - depth = config.maxDepth - (depth + 1) + 1 := by omega
        rw [hleft, mergedFieldsTo_succ]
        obtain ⟨n, trips, hrun, hzero⟩ := settle_eq config .merge idempotent v hv.1
          (some (.name name)) (depth + 1) (.obj target) htarget (by rintro _ ⟨⟩; trivial) rfl
        have hcombined := wellFormed_combinedTo .merge idempotent (config.maxDepth - (depth + 1))
          (fun w (hw : Fields.find? target name = some w) => wellFormed_of_find? htarget.2 hw) v hv.1
        have hput := wellFormed_putChild htarget hcombined (.name name)
        refine ⟨n, _, trips, hput, rfl, atKey_eq hkey ?_ rfl, fun hn => ?_⟩
        · exact (Write.bind_ok (enter_obj config name target) _).trans hrun
        · exact Fields.insert_find? htarget.1 (hzero hn)
    obtain ⟨m, more, hrest, hnothing⟩ := settleFields_eq config idempotent rest hv.2 key depth _
      (wellFormed_putAt ht hmiddle key) (at?_putAt (acceptsAt_of_at? hkey) _)
    rw [putAt_putAt (acceptsAt_of_at? hkey)] at hrest
    rw [settleFields, hmerged]
    refine ⟨n + m, trips + (more + 0),
      Write.bind_trips hfield (Write.bind_trips hrest rfl), fun hzero => ?_⟩
    exact (hnothing (by omega)).trans (hnone (by omega))

end

/-- A patch with a value is carried out at its place in any case. -/
theorem finish_eq (config : Config) {patch : Patch} (hvalue : patch.value = some v)
    (hv : v.WellFormed) (key : Option ChildKey) (depth : Nat) (ht : t.WellFormed)
    (hkey : t.AcceptsAt key) {w : Json}
    (hw : combinedTo patch.policy patch.idempotent (config.maxDepth - depth) (t.at? key) v = w) :
    ∃ n trips, (finish config patch key depth : Write Json Nat) t =
      ⟨.ok n, t.putAt key w, trips⟩ ∧ (n = 0 → t.at? key = some w) := by
  unfold finish
  rw [hvalue]
  exact settle_eq config _ _ v hv key depth t ht hkey hw

end Settling

end Json

end TreePath

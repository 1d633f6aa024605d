import TreePath.Proofs.Write.Place

namespace TreePath

namespace Json

mutual

/-- The second value is left of the first one when children are deleted from it and parts of it are
replaced by null. -/
inductive Pruned : Json → Json → Prop
  | refl (t : Json) : Pruned t t
  | null (t : Json) : Pruned t .null
  | arr {a b : List Json} (h : PrunedItems a b) : Pruned (.arr a) (.arr b)
  | obj {a b : List (String × Json)} (h : PrunedFields a b) : Pruned (.obj a) (.obj b)

inductive PrunedItems : List Json → List Json → Prop
  | nil : PrunedItems [] []
  | drop {v : Json} {a b : List Json} (h : PrunedItems a b) : PrunedItems (v :: a) b
  | keep {v w : Json} {a b : List Json} (hv : Pruned v w) (h : PrunedItems a b) :
      PrunedItems (v :: a) (w :: b)

inductive PrunedFields : List (String × Json) → List (String × Json) → Prop
  | nil : PrunedFields [] []
  | drop {name : String} {v : Json} {a b : List (String × Json)} (h : PrunedFields a b) :
      PrunedFields ((name, v) :: a) b
  | keep {name : String} {v w : Json} {a b : List (String × Json)} (hv : Pruned v w)
      (h : PrunedFields a b) : PrunedFields ((name, v) :: a) ((name, w) :: b)

end

mutual

/-- The number of values in the value, nulls apart, and of the places for children. -/
def bulk : Json → Nat
  | .null => 0
  | .bool _ | .num _ | .str _ => 1
  | .arr items => bulkItems items + 1
  | .obj fields => bulkFields fields + 1

def bulkItems : List Json → Nat
  | [] => 0
  | v :: rest => v.bulk + 1 + bulkItems rest

def bulkFields : List (String × Json) → Nat
  | [] => 0
  | (_, v) :: rest => v.bulk + 1 + bulkFields rest

end

section Order

theorem PrunedItems.refl (items : List Json) : PrunedItems items items := by
  induction items with
  | nil => exact .nil
  | cons v items ih => exact .keep (.refl v) ih

theorem PrunedFields.refl (fields : List (String × Json)) : PrunedFields fields fields := by
  induction fields with
  | nil => exact .nil
  | cons field fields ih => exact .keep (.refl field.2) ih

mutual

theorem Pruned.trans {t u w : Json} (h : Pruned t u) (h' : Pruned u w) : Pruned t w := by
  match h, h' with
  | .refl _, h' => exact h'
  | h, .refl _ => exact h
  | _, .null _ => exact .null t
  | .arr h, .arr h' => exact .arr (h.trans h')
  | .obj h, .obj h' => exact .obj (h.trans h')

theorem PrunedItems.trans {a b c : List Json} (h : PrunedItems a b) (h' : PrunedItems b c) :
    PrunedItems a c := by
  match h, h' with
  | .nil, h' => exact h'
  | .drop h, h' => exact .drop (h.trans h')
  | .keep _ h, .drop h' => exact .drop (h.trans h')
  | .keep hv h, .keep hv' h' => exact .keep (hv.trans hv') (h.trans h')

theorem PrunedFields.trans {a b c : List (String × Json)} (h : PrunedFields a b)
    (h' : PrunedFields b c) : PrunedFields a c := by
  match h, h' with
  | .nil, h' => exact h'
  | .drop h, h' => exact .drop (h.trans h')
  | .keep _ h, .drop h' => exact .drop (h.trans h')
  | .keep hv h, .keep hv' h' => exact .keep (hv.trans hv') (h.trans h')

end

theorem Pruned.eq_null {u : Json} (h : Pruned .null u) : u = .null := by
  cases h with
  | refl | null => rfl

end Order

section WellFormed

theorem PrunedFields.exists_mem {a b : List (String × Json)} (h : PrunedFields a b)
    {f : String × Json} (hf : f ∈ b) : ∃ v, (f.1, v) ∈ a := by
  induction a generalizing b with
  | nil =>
    cases h
    simp at hf
  | cons field a ih =>
    cases h with
    | drop h =>
      obtain ⟨v, hv⟩ := ih h hf
      exact ⟨v, List.mem_cons_of_mem _ hv⟩
    | @keep name v _ _ _ hv h =>
      rcases List.mem_cons.mp hf with rfl | hf
      · exact ⟨v, List.mem_cons_self⟩
      · obtain ⟨w, hw⟩ := ih h hf
        exact ⟨w, List.mem_cons_of_mem _ hw⟩

mutual

/-- What is left has its names in order as before. -/
theorem Pruned.wellFormed {t u : Json} (h : Pruned t u) (ht : t.WellFormed) : u.WellFormed := by
  match h with
  | .refl _ => exact ht
  | .null _ => trivial
  | .arr h => exact h.wellFormed ht
  | .obj h => exact h.wellFormed ht

theorem PrunedItems.wellFormed {a b : List Json} (h : PrunedItems a b) (ha : WellFormedItems a) :
    WellFormedItems b := by
  match h with
  | .nil => trivial
  | .drop h => exact h.wellFormed ha.2
  | .keep hv h => exact ⟨hv.wellFormed ha.1, h.wellFormed ha.2⟩

theorem PrunedFields.wellFormed {a b : List (String × Json)} (h : PrunedFields a b)
    (ha : (Json.obj a).WellFormed) : (Json.obj b).WellFormed := by
  match h with
  | .nil => exact ha
  | .drop h => exact h.wellFormed ⟨(Fields.ascending_cons.mp ha.1).2, ha.2.2⟩
  | .keep hv h =>
    obtain ⟨hname, hascending⟩ := Fields.ascending_cons.mp ha.1
    have hrest := h.wellFormed ⟨hascending, ha.2.2⟩
    refine ⟨Fields.ascending_cons.mpr ⟨fun f hf => ?_, hrest.1⟩, hv.wellFormed ha.2.1, hrest.2⟩
    obtain ⟨v, hv⟩ := h.exists_mem hf
    exact hname (f.1, v) hv

end

end WellFormed

section Children

variable {t v w : Json} {key : ChildKey}

theorem PrunedItems.set {items : List Json} {i : Nat} (hv : items[i]? = some v)
    (h : Pruned v w) : PrunedItems items (items.set i w) := by
  induction items generalizing i with
  | nil => simp at hv
  | cons u items ih =>
    cases i with
    | zero =>
      obtain rfl : u = v := by simpa using hv
      exact .keep h (.refl items)
    | succ i => exact .keep (.refl u) (ih (by simpa using hv))

theorem PrunedFields.insert {fields : List (String × Json)} {name : String}
    (ha : Fields.Ascending fields) (hv : Fields.find? fields name = some v) (h : Pruned v w) :
    PrunedFields fields (Fields.insert fields name w) := by
  induction fields with
  | nil => simp [Fields.find?] at hv
  | cons field fields ih =>
    obtain ⟨n, u⟩ := field
    by_cases hn : n = name
    · obtain rfl : u = v := by simpa [Fields.find?, hn] using hv
      rw [Fields.insert, if_pos hn, hn]
      exact .keep h (.refl fields)
    · have hrest : Fields.find? fields name = some v := by simpa [Fields.find?, hn] using hv
      have hlt : ¬name < n := String.lt_asymm (Fields.lt_of_find? ha hrest)
      rw [Fields.insert, if_neg hn, if_neg hlt]
      exact .keep (.refl u) (ih (Fields.ascending_cons.mp ha).2 hrest)

/-- What is taken away from a child is taken away from its container. -/
theorem Pruned.putChild (ht : t.WellFormed) (hv : t.child? key = some v) (h : Pruned v w) :
    Pruned t (t.putChild key w) := by
  cases t with
  | obj fields =>
    rw [child?_obj] at hv
    rw [putChild_obj]
    exact .obj (.insert ht.1 hv h)
  | arr items =>
    cases key with
    | name n => simp [child?] at hv
    | index i =>
      have hget : items[i]? = some v := hv
      obtain ⟨hi, -⟩ := List.getElem?_eq_some_iff.mp hget
      rw [putChild_arr_of_lt hi]
      exact .arr (.set hget h)
  | null | bool | num | str => cases key <;> simp [child?] at hv

theorem bulkItems_set {items : List Json} {i : Nat} (hv : items[i]? = some v) (w : Json) :
    bulkItems (items.set i w) + v.bulk = bulkItems items + w.bulk := by
  induction items generalizing i with
  | nil => simp at hv
  | cons u items ih =>
    cases i with
    | zero =>
      obtain rfl : u = v := by simpa using hv
      simp only [List.set_cons_zero, bulkItems]
      omega
    | succ i =>
      have hrest := ih (i := i) (by simpa using hv)
      simp only [List.set_cons_succ, bulkItems]
      omega

theorem bulkFields_insert {fields : List (String × Json)} {name : String}
    (ha : Fields.Ascending fields) (hv : Fields.find? fields name = some v) (w : Json) :
    bulkFields (Fields.insert fields name w) + v.bulk = bulkFields fields + w.bulk := by
  induction fields with
  | nil => simp [Fields.find?] at hv
  | cons field fields ih =>
    obtain ⟨n, u⟩ := field
    by_cases hn : n = name
    · obtain rfl : u = v := by simpa [Fields.find?, hn] using hv
      rw [Fields.insert, if_pos hn]
      simp only [bulkFields]
      omega
    · have hfind : Fields.find? fields name = some v := by simpa [Fields.find?, hn] using hv
      have hlt : ¬name < n := String.lt_asymm (Fields.lt_of_find? ha hfind)
      have hrest := ih (Fields.ascending_cons.mp ha).2 hfind
      rw [Fields.insert, if_neg hn, if_neg hlt]
      simp only [bulkFields]
      omega

/-- A container gains and loses bulk with its children. -/
theorem bulk_putChild (ht : t.WellFormed) (hv : t.child? key = some v) (w : Json) :
    (t.putChild key w).bulk + v.bulk = t.bulk + w.bulk := by
  cases t with
  | obj fields =>
    rw [child?_obj] at hv
    have hfields := bulkFields_insert ht.1 hv w
    rw [putChild_obj]
    simp only [bulk]
    omega
  | arr items =>
    cases key with
    | name n => simp [child?] at hv
    | index i =>
      have hget : items[i]? = some v := hv
      obtain ⟨hi, -⟩ := List.getElem?_eq_some_iff.mp hget
      have hitems := bulkItems_set hget w
      rw [putChild_arr_of_lt hi]
      simp only [bulk]
      omega
  | null | bool | num | str => cases key <;> simp [child?] at hv

end Children

section Deletions

variable {v : Json}

theorem PrunedItems.eraseIdx (items : List Json) (i : Nat) :
    PrunedItems items (items.eraseIdx i) := by
  induction items generalizing i with
  | nil => exact .nil
  | cons u items ih =>
    cases i with
    | zero => exact .drop (.refl items)
    | succ i => exact .keep (.refl u) (ih i)

theorem PrunedFields.erase (fields : List (String × Json)) (name : String) :
    PrunedFields fields (Fields.erase fields name) := by
  induction fields with
  | nil => exact .nil
  | cons field fields ih =>
    obtain ⟨n, u⟩ := field
    rw [Fields.erase]
    split
    · exact .drop (.refl fields)
    · exact .keep (.refl u) ih

theorem bulkItems_eraseIdx {items : List Json} {i : Nat} (hi : i < items.length) :
    bulkItems (items.eraseIdx i) + 1 ≤ bulkItems items := by
  induction items generalizing i with
  | nil => simp at hi
  | cons u items ih =>
    cases i with
    | zero =>
      simp only [List.eraseIdx_cons_zero, bulkItems]
      omega
    | succ i =>
      have hrest := ih (i := i) (by simpa using hi)
      simp only [List.eraseIdx_cons_succ, bulkItems]
      omega

theorem bulkFields_erase {fields : List (String × Json)} {name : String}
    (hv : Fields.find? fields name = some v) :
    bulkFields (Fields.erase fields name) + 1 ≤ bulkFields fields := by
  induction fields with
  | nil => simp [Fields.find?] at hv
  | cons field fields ih =>
    obtain ⟨n, u⟩ := field
    by_cases hn : n = name
    · rw [Fields.erase, if_pos hn]
      simp only [bulkFields]
      omega
    · have hrest := ih (by simpa [Fields.find?, hn] using hv)
      rw [Fields.erase, if_neg hn]
      simp only [bulkFields]
      omega

theorem one_le_bulk {t : Json} (h : t.isNull = false) : 1 ≤ t.bulk := by
  cases t with
  | null => cases h
  | bool | num | str => exact Nat.le_refl 1
  | arr | obj =>
    simp only [bulk]
    omega

end Deletions

section Bulk

mutual

/-- What is left has no more bulk, and as much only if nothing has been taken away. -/
theorem Pruned.bulk_le {t u : Json} (h : Pruned t u) :
    u.bulk ≤ t.bulk ∧ (u.bulk = t.bulk → u = t) := by
  match h with
  | .refl _ => exact ⟨Nat.le_refl _, fun _ => rfl⟩
  | .null t =>
    refine ⟨Nat.zero_le _, fun hzero => ?_⟩
    cases hnull : t.isNull with
    | true =>
      cases t with
      | null => rfl
      | bool | num | str | arr | obj => cases hnull
    | false =>
      have hone := one_le_bulk hnull
      rw [← hzero] at hone
      exact absurd hone (Nat.not_succ_le_zero 0)
  | .arr h =>
    obtain ⟨hle, heq⟩ := h.bulk_le
    simp only [bulk]
    exact ⟨Nat.succ_le_succ hle, fun hbulk => congrArg Json.arr (heq (Nat.succ.inj hbulk))⟩
  | .obj h =>
    obtain ⟨hle, heq⟩ := h.bulk_le
    simp only [bulk]
    exact ⟨Nat.succ_le_succ hle, fun hbulk => congrArg Json.obj (heq (Nat.succ.inj hbulk))⟩

theorem PrunedItems.bulk_le {a b : List Json} (h : PrunedItems a b) :
    bulkItems b ≤ bulkItems a ∧ (bulkItems b = bulkItems a → b = a) := by
  match h with
  | .nil => exact ⟨Nat.le_refl _, fun _ => rfl⟩
  | .drop h =>
    obtain ⟨hle, -⟩ := h.bulk_le
    simp only [bulkItems]
    exact ⟨by omega, fun hbulk => by omega⟩
  | .keep hv h =>
    obtain ⟨hle, heq⟩ := hv.bulk_le
    obtain ⟨hle', heq'⟩ := h.bulk_le
    simp only [bulkItems]
    refine ⟨by omega, fun hbulk => ?_⟩
    rw [heq (by omega), heq' (by omega)]

theorem PrunedFields.bulk_le {a b : List (String × Json)} (h : PrunedFields a b) :
    bulkFields b ≤ bulkFields a ∧ (bulkFields b = bulkFields a → b = a) := by
  match h with
  | .nil => exact ⟨Nat.le_refl _, fun _ => rfl⟩
  | .drop h =>
    obtain ⟨hle, -⟩ := h.bulk_le
    simp only [bulkFields]
    exact ⟨by omega, fun hbulk => by omega⟩
  | .keep hv h =>
    obtain ⟨hle, heq⟩ := hv.bulk_le
    obtain ⟨hle', heq'⟩ := h.bulk_le
    simp only [bulkFields]
    refine ⟨by omega, fun hbulk => ?_⟩
    rw [heq (by omega), heq' (by omega)]

end

/-- Values that are left of each other are the same. -/
theorem Pruned.antisymm {t u : Json} (h : Pruned t u) (h' : Pruned u t) : u = t :=
  h.bulk_le.2 (Nat.le_antisymm h.bulk_le.1 h'.bulk_le.1)

end Bulk

section Additions

variable {t d : Json} {key : ChildKey}

theorem PrunedItems.append (items more : List Json) : PrunedItems (items ++ more) items := by
  induction items with
  | nil =>
    induction more with
    | nil => exact .nil
    | cons v more ih => exact .drop ih
  | cons v items ih => exact .keep (.refl v) ih

theorem PrunedFields.of_insert (fields : List (String × Json)) {name : String}
    (hname : Fields.find? fields name = none) (v : Json) :
    PrunedFields (Fields.insert fields name v) fields := by
  induction fields with
  | nil => exact .drop .nil
  | cons field fields ih =>
    obtain ⟨n, w⟩ := field
    have hn : n ≠ name := by
      intro hsame
      simp [Fields.find?, hsame] at hname
    rw [Fields.insert, if_neg hn]
    split
    · exact .drop (.refl _)
    · exact .keep (.refl w) (ih (by simpa [Fields.find?, hn] using hname))

/-- What is put in can be taken out again, with the slots that have been filled up for it. -/
theorem Pruned.of_putChild (ht : t.WellFormed) (hd : d.WellFormed) (haccepts : t.Accepts key)
    (h : ∀ c, t.child? key = some c → Pruned d c) : Pruned (t.putChild key d) t := by
  cases hc : t.child? key with
  | some c =>
    have hput := Pruned.putChild (wellFormed_putChild ht hd key) (child?_putChild haccepts d) (h c hc)
    rwa [putChild_putChild haccepts, putChild_child? ht hc] at hput
  | none =>
    cases t with
    | obj fields =>
      rw [child?_obj] at hc
      rw [putChild_obj]
      exact .obj (.of_insert fields hc d)
    | arr items =>
      cases key with
      | name n => exact absurd haccepts id
      | index k =>
        have hk : items.length ≤ k := List.getElem?_eq_none_iff.mp hc
        rw [Json.putChild, set_padded hk, padded, List.append_assoc]
        exact .arr (.append items _)
    | null | bool | num | str => exact absurd haccepts id

end Additions

end Json

end TreePath

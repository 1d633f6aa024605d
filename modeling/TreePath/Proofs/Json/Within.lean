import TreePath.Json.Reader
import TreePath.Proofs.Patch

namespace TreePath.Json

/-- The names in the value are in order, and at most `limit` containers stand around its innermost
part. -/
structure Within (limit : Nat) (v : Json) : Prop where
  wellFormed : v.WellFormed
  nesting_le : v.nesting ≤ limit

namespace Within

variable {limit : Nat}

theorem leaf {v : Json} (hw : v.WellFormed) (hn : v.nesting = 0) : v.Within limit :=
  ⟨hw, hn ▸ Nat.zero_le limit⟩

theorem arr {items : List Json} (h : ∀ v ∈ items, v.Within limit) :
    (Json.arr items).Within (limit + 1) := by
  have hitems : WellFormedItems items ∧ nestingItems items ≤ limit := by
    induction items with
    | nil => exact ⟨trivial, Nat.zero_le _⟩
    | cons v rest ih =>
      obtain ⟨hv, hrest⟩ := List.forall_mem_cons.mp h
      obtain ⟨hw, hn⟩ := ih hrest
      have hmax : max v.nesting (nestingItems rest) ≤ limit := Nat.max_le.mpr ⟨hv.nesting_le, hn⟩
      exact ⟨⟨hv.wellFormed, hw⟩, hmax⟩
  exact ⟨hitems.1, Nat.succ_le_succ hitems.2⟩

theorem nestingFields_insert {fields : List (String × Json)} (name : String) {v : Json}
    (hf : nestingFields fields ≤ limit) (hv : v.nesting ≤ limit) :
    nestingFields (Fields.insert fields name v) ≤ limit := by
  induction fields with
  | nil => exact Nat.max_le.mpr ⟨hv, Nat.zero_le _⟩
  | cons field rest ih =>
    obtain ⟨n, w⟩ := field
    obtain ⟨hw, hrest⟩ := Nat.max_le.mp hf
    rw [Fields.insert]
    split
    · exact Nat.max_le.mpr ⟨hv, hrest⟩
    · split
      · exact Nat.max_le.mpr ⟨hv, hf⟩
      · exact Nat.max_le.mpr ⟨hw, ih hrest⟩

/-- Fields that are put in one after the other. -/
theorem obj {fields : List (String × Json)} (h : ∀ field ∈ fields, field.2.Within limit) :
    (Json.obj (Fields.ofList fields)).Within (limit + 1) := by
  have hfold : ∀ (pairs : List (String × Json)) (done : List (String × Json)),
      (∀ field ∈ pairs, field.2.Within limit) → (Json.obj done).Within (limit + 1) →
      (Json.obj (pairs.foldl (fun fields pair => Fields.insert fields pair.1 pair.2) done)).Within
        (limit + 1) := by
    intro pairs
    induction pairs with
    | nil => exact fun done _ hdone => hdone
    | cons pair pairs ih =>
      intro done hpairs hdone
      obtain ⟨hpair, hrest⟩ := List.forall_mem_cons.mp hpairs
      obtain ⟨⟨hascending, hfields⟩, hnesting⟩ := hdone
      have hw : (Json.obj (Fields.insert done pair.1 pair.2)).WellFormed :=
        ⟨Fields.ascending_insert hascending _ _, wellFormedFields_insert hfields _ hpair.wellFormed⟩
      have hn : nestingFields (Fields.insert done pair.1 pair.2) ≤ limit :=
        nestingFields_insert _ (Nat.le_of_succ_le_succ hnesting) hpair.nesting_le
      exact ih _ hrest ⟨hw, Nat.succ_le_succ hn⟩
  exact hfold fields [] h ⟨⟨List.Pairwise.nil, trivial⟩, Nat.succ_le_succ (Nat.zero_le _)⟩

end Within

section Scalars

variable {text rest : List Char} {v : Json} {negative : Bool}

theorem readDouble_num {significand : Nat} {power : Int}
    (h : readDouble negative significand power text = some (v, rest)) : ∃ n, v = .num n := by
  have hdouble : ∀ {p : Int} {r : List Char},
      ((Double.ofParts? negative significand p).map fun d => (Json.num (.double d), r)) =
        some (v, rest) → ∃ n, v = .num n := by
    intro p r hd
    obtain ⟨d, -, hd⟩ := Option.map_eq_some_iff.mp hd
    exact ⟨_, (Prod.mk.inj hd).1.symm⟩
  unfold readDouble at h
  split at h
  · split at h
    · split at h
      · exact hdouble h
      · cases h
    · exact hdouble h
  · exact hdouble h

theorem readFraction_num {significand : Nat} {power : Int}
    (h : readFraction negative significand power text = some (v, rest)) : ∃ n, v = .num n := by
  unfold readFraction at h
  split at h
  · split at h
    · exact readDouble_num h
    · cases h
  · cases h

theorem readUnsigned_num (h : readUnsigned negative text = some (v, rest)) : ∃ n, v = .num n := by
  unfold readUnsigned at h
  simp only at h
  split at h
  · cases h
  · split at h
    · exact readFraction_num h
    · split at h
      · exact readDouble_num h
      · split at h
        · exact readDouble_num h
        · split at h
          · exact ⟨_, (Prod.mk.inj (Option.some.inj h)).1.symm⟩
          · exact readDouble_num h

theorem readNumber_num (h : readNumber text = some (v, rest)) : ∃ n, v = .num n := by
  unfold readNumber at h
  split at h
  · exact readUnsigned_num h
  · exact readUnsigned_num h

theorem readScalar_within (limit : Nat) (h : readScalar text = some (v, rest)) :
    v.Within limit := by
  unfold readScalar at h
  split at h
  · obtain ⟨rfl, -⟩ := Prod.mk.inj (Option.some.inj h)
    exact .leaf trivial rfl
  · obtain ⟨rfl, -⟩ := Prod.mk.inj (Option.some.inj h)
    exact .leaf trivial rfl
  · obtain ⟨rfl, -⟩ := Prod.mk.inj (Option.some.inj h)
    exact .leaf trivial rfl
  · obtain ⟨_, -, heq⟩ := Option.map_eq_some_iff.mp h
    obtain ⟨rfl, -⟩ := Prod.mk.inj heq
    exact .leaf trivial rfl
  · obtain ⟨n, rfl⟩ := readNumber_num h
    exact .leaf trivial rfl

end Scalars

section Containers

variable {limit : Nat} {item : List Char → Option (Json × List Char)}

theorem readItems_within
    (hitem : ∀ {text rest v}, item text = some (v, rest) → v.Within limit) {fuel : Nat}
    {text rest : List Char} {vs : List Json} (h : readItems item fuel text = some (vs, rest)) :
    ∀ v ∈ vs, v.Within limit := by
  induction fuel generalizing text rest vs with
  | zero => simp [readItems] at h
  | succ fuel ih =>
    rw [readItems] at h
    split at h
    · cases h
    · next v _ hv =>
      have hfirst : v.Within limit := hitem hv
      split at h
      · obtain ⟨⟨more, after⟩, hmore, heq⟩ := Option.map_eq_some_iff.mp h
        obtain ⟨rfl, -⟩ := Prod.mk.inj heq
        exact List.forall_mem_cons.mpr ⟨hfirst, ih hmore⟩
      · obtain ⟨rfl, -⟩ := Prod.mk.inj (Option.some.inj h)
        exact List.forall_mem_singleton.mpr hfirst
      · cases h

theorem readFields_within
    (hitem : ∀ {text rest v}, item text = some (v, rest) → v.Within limit) {fuel : Nat}
    {text rest : List Char} {fields : List (String × Json)}
    (h : readFields item fuel text = some (fields, rest)) :
    ∀ field ∈ fields, field.2.Within limit := by
  induction fuel generalizing text rest fields with
  | zero => simp [readFields] at h
  | succ fuel ih =>
    rw [readFields] at h
    split at h
    · cases h
    split at h
    · split at h
      · cases h
      · next v _ hv =>
        have hfirst : v.Within limit := hitem hv
        split at h
        · obtain ⟨⟨more, after⟩, hmore, heq⟩ := Option.map_eq_some_iff.mp h
          obtain ⟨rfl, -⟩ := Prod.mk.inj heq
          exact List.forall_mem_cons.mpr ⟨hfirst, ih hmore⟩
        · obtain ⟨rfl, -⟩ := Prod.mk.inj (Option.some.inj h)
          exact List.forall_mem_singleton.mpr hfirst
        · cases h
    · cases h

theorem readValue_within {text rest : List Char} {v : Json}
    (h : readValue limit text = some (v, rest)) : v.Within limit := by
  induction limit generalizing text rest v with
  | zero => exact readScalar_within 0 h
  | succ limit ih =>
    rw [readValue] at h
    split at h
    · split at h
      · obtain ⟨rfl, -⟩ := Prod.mk.inj (Option.some.inj h)
        exact .arr (by simp)
      · obtain ⟨⟨vs, after⟩, hvs, heq⟩ := Option.map_eq_some_iff.mp h
        obtain ⟨rfl, -⟩ := Prod.mk.inj heq
        exact .arr (readItems_within ih hvs)
    · split at h
      · obtain ⟨rfl, -⟩ := Prod.mk.inj (Option.some.inj h)
        have hempty : ∀ field ∈ ([] : List (String × Json)), field.2.Within limit := by simp
        exact .obj hempty
      · obtain ⟨⟨fields, after⟩, hfields, heq⟩ := Option.map_eq_some_iff.mp h
        obtain ⟨rfl, -⟩ := Prod.mk.inj heq
        exact .obj (readFields_within ih hfields)
    · exact readScalar_within _ h

/-- A whole text denotes a value that can be shown and read again, as far as its numbers allow. -/
theorem read?_within {text : List Char} {v : Json} (h : read? text = some v) :
    v.Within nestingLimit := by
  unfold read? readWithin? at h
  split at h
  · next heq =>
    split at h
    · obtain rfl := Option.some.inj h
      exact readValue_within heq
    · cases h
  · cases h

end Containers

end TreePath.Json

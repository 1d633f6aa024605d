import TreePath.Proofs.Write.Place

namespace TreePath

namespace Json

section Fields

variable {idempotent : Bool} {left : Nat} {source : List (String × Json)} {name : String}

theorem find?_mergedFieldsTo_of_ne (target : List (String × Json))
    (hname : ∀ v, (name, v) ∉ source) :
    Fields.find? (mergedFieldsTo idempotent left target source) name = Fields.find? target name := by
  induction source generalizing target with
  | nil => rw [mergedFieldsTo]
  | cons field rest ih =>
    obtain ⟨other, v⟩ := field
    have hne : name ≠ other := by
      intro hsame
      subst hsame
      exact hname v List.mem_cons_self
    have hrest : ∀ w, (name, w) ∉ rest := fun w hw => hname w (List.mem_cons_of_mem _ hw)
    cases left with
    | zero => rw [mergedFieldsTo_zero]
    | succ left => rw [mergedFieldsTo_succ, ih _ hrest, Fields.find?_insert_of_ne _ hne]

theorem find?_mergedFieldsTo (hsource : Fields.Ascending source) {v : Json}
    (hv : (name, v) ∈ source) (target : List (String × Json)) :
    Fields.find? (mergedFieldsTo idempotent (left + 1) target source) name =
      some (combinedTo .merge idempotent left (Fields.find? target name) v) := by
  induction source generalizing target with
  | nil => exact absurd hv List.not_mem_nil
  | cons field rest ih =>
    obtain ⟨other, w⟩ := field
    obtain ⟨habove, hrest⟩ := List.pairwise_cons.mp hsource
    rw [mergedFieldsTo_succ]
    rcases List.mem_cons.mp hv with hfirst | hlater
    · obtain ⟨rfl, rfl⟩ := Prod.mk.inj hfirst
      have hnone : ∀ u, (name, u) ∉ rest := fun u hu => String.lt_irrefl name (habove _ hu)
      rw [find?_mergedFieldsTo_of_ne _ hnone, Fields.find?_insert_self]
    · have hne : name ≠ other := by
        intro hsame
        subst hsame
        exact String.lt_irrefl name (habove _ hlater)
      rw [ih hrest hlater, Fields.find?_insert_of_ne _ hne]

end Fields

section Absorbing

variable {left : Nat} {target source : List (String × Json)} {v w : Json} {old : Option Json}

/-- To merge `v` into `w` leaves `w` as it is. -/
def Absorbs (left : Nat) (w v : Json) : Prop := combinedTo .merge true left (some w) v = w

/-- What is no mapping is replaced, or replaces. -/
theorem combinedTo_replaced (h : ∀ target source, old = some (.obj target) → v ≠ .obj source) :
    combinedTo .merge true left old v = v := by
  have hreplaced : merged true old v = v := by
    cases old with
    | none => rw [merged]
    | some w =>
      cases w with
      | null => rw [merged]
      | obj target =>
        cases v with
        | obj source => exact absurd rfl (h target source rfl)
        | null | bool | num | str | arr => simp [merged]
      | bool | num | str | arr => cases v <;> simp [merged]
  rw [combinedTo_other fun target source _ => h target source]
  exact hreplaced

/-- A mapping absorbs the fields that stand in it and are absorbed there. -/
theorem mergedFieldsTo_absorbed (htarget : Fields.Ascending target)
    (h : ∀ name v, (name, v) ∈ source →
      ∃ w, Fields.find? target name = some w ∧ Absorbs left w v) :
    mergedFieldsTo true (left + 1) target source = target := by
  induction source with
  | nil => rw [mergedFieldsTo]
  | cons field rest ih =>
    obtain ⟨name, v⟩ := field
    obtain ⟨w, hw, habsorbs⟩ := h name v List.mem_cons_self
    have hsame : Fields.insert target name
        (combinedTo .merge true left (Fields.find? target name) v) = target := by
      rw [hw, habsorbs, Fields.insert_find? htarget hw]
    rw [mergedFieldsTo_succ, hsame]
    exact ih fun name v hv => h name v (List.mem_cons_of_mem _ hv)

/-- A mapping absorbs another one whose fields stand in it and are absorbed there, as far as the
merge goes down. -/
theorem absorbs_mapping (htarget : Fields.Ascending target)
    (h : ∀ below, left = below + 1 → ∀ name v, (name, v) ∈ source →
      ∃ w, Fields.find? target name = some w ∧ Absorbs below w v) :
    Absorbs left (.obj target) (.obj source) := by
  rw [Absorbs, combinedTo_mapping]
  apply congrArg Json.obj
  cases left with
  | zero => exact mergedFieldsTo_zero source
  | succ below => exact mergedFieldsTo_absorbed htarget (h below rfl)

mutual

/-- A value that has been merged into anything is absorbed there. -/
theorem combinedTo_absorbs (v : Json) (hv : v.WellFormed) (left : Nat) {old : Option Json}
    (hold : ∀ w, old = some w → w.WellFormed) :
    Absorbs left (combinedTo .merge true left old v) v := by
  match v with
  | .obj source =>
    by_cases hmapping : ∃ target, old = some (.obj target)
    · obtain ⟨target, rfl⟩ := hmapping
      have hmerged := wellFormed_mergedFieldsTo true left (hold _ rfl) source hv.2
      rw [combinedTo_mapping]
      apply absorbs_mapping hmerged.1
      intro below hleft name v hfield
      subst hleft
      have hinto := fun w (hw : Fields.find? target name = some w) =>
        wellFormed_of_find? (hold _ rfl).2 hw
      have hfound : Fields.find? (mergedFieldsTo true (below + 1) target source) name =
          some (combinedTo .merge true below (Fields.find? target name) v) :=
        find?_mergedFieldsTo hv.1 hfield target
      exact ⟨_, hfound, fields_absorbed source hv.2 below hfield hinto⟩
    · have hnew : combinedTo .merge true left old (.obj source) = .obj source :=
        combinedTo_replaced fun target _ hold => absurd ⟨target, hold⟩ hmapping
      rw [hnew]
      apply absorbs_mapping hv.1
      intro below _ name w hfield
      have hnone : ∀ v, (none : Option Json) = some v → v.WellFormed := by simp
      have habsorbs := fields_absorbed source hv.2 below hfield hnone
      rw [combinedTo_replaced (by simp)] at habsorbs
      exact ⟨w, Fields.find?_of_mem hv.1 hfield, habsorbs⟩
  | .arr _ | .null | .bool _ | .num _ | .str _ =>
    rw [Absorbs, combinedTo_replaced, combinedTo_replaced] <;> simp

theorem fields_absorbed (source : List (String × Json)) (hsource : WellFormedFields source)
    (left : Nat) {name : String} {v : Json} (hv : (name, v) ∈ source) {old : Option Json}
    (hold : ∀ w, old = some w → w.WellFormed) :
    Absorbs left (combinedTo .merge true left old v) v := by
  match source with
  | [] => exact absurd hv List.not_mem_nil
  | (other, w) :: rest =>
    rcases List.mem_cons.mp hv with hfirst | hlater
    · obtain ⟨rfl, rfl⟩ := Prod.mk.inj hfirst
      exact combinedTo_absorbs v hsource.1 left hold
    · exact fields_absorbed rest hsource.2 left hlater hold

end

/-- A value that has been merged into anything changes nothing when it is merged again. -/
theorem combine_combine (hv : v.WellFormed) (hold : ∀ w, old = some w → w.WellFormed) :
    combine (some (combine old v .merge true)) v .merge true = combine old v .merge true := by
  have habsorbs := combinedTo_absorbs v hv v.objectLevels hold
  unfold Json.Absorbs at habsorbs
  rwa [combinedTo_eq true v (Nat.le_refl _), combinedTo_eq true v (Nat.le_refl _)] at habsorbs

end Absorbing

end Json

end TreePath

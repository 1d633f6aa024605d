import TreePath.Patch
import TreePath.Proofs.Fields

namespace TreePath

namespace Json

theorem wellFormed_of_find? {fields : List (String × Json)} (hw : WellFormedFields fields)
    {name : String} {v : Json} (hf : Fields.find? fields name = some v) : v.WellFormed := by
  induction fields with
  | nil => simp [Fields.find?] at hf
  | cons field fields ih =>
    obtain ⟨n, w⟩ := field
    by_cases hn : n = name
    · obtain rfl : w = v := by simpa [Fields.find?, hn] using hf
      exact hw.1
    · exact ih hw.2 (by simpa [Fields.find?, hn] using hf)

theorem wellFormedFields_insert {fields : List (String × Json)} (hw : WellFormedFields fields)
    (name : String) {v : Json} (hv : v.WellFormed) :
    WellFormedFields (Fields.insert fields name v) := by
  induction fields with
  | nil => exact ⟨hv, trivial⟩
  | cons field fields ih =>
    obtain ⟨n, w⟩ := field
    rw [Fields.insert]
    split
    · exact ⟨hv, hw.2⟩
    · split
      · exact ⟨hv, hw⟩
      · exact ⟨hw.1, ih hw.2⟩

theorem wellFormedItems_append {a b : List Json} (ha : WellFormedItems a) (hb : WellFormedItems b) :
    WellFormedItems (a ++ b) := by
  induction a with
  | nil => exact hb
  | cons v a ih => exact ⟨ha.1, ih ha.2⟩

theorem wellFormed_of_mem {items : List Json} (hw : WellFormedItems items) {v : Json}
    (hv : v ∈ items) : v.WellFormed := by
  induction items with
  | nil => simp at hv
  | cons w items ih =>
    rcases List.mem_cons.mp hv with rfl | hv
    · exact hw.1
    · exact ih hw.2 hv

theorem wellFormedItems_set {items : List Json} (hw : WellFormedItems items) (k : Nat) {v : Json}
    (hv : v.WellFormed) : WellFormedItems (items.set k v) := by
  induction items generalizing k with
  | nil => exact hw
  | cons w items ih =>
    cases k with
    | zero => exact ⟨hv, hw.2⟩
    | succ k => exact ⟨hw.1, ih hw.2 k⟩

theorem wellFormed_appended {old new : Json} (ho : old.WellFormed) (hn : new.WellFormed) :
    (appended old new).WellFormed := by
  cases old with
  | arr items => exact wellFormedItems_append ho ⟨hn, trivial⟩
  | null | bool | num | str | obj => exact ⟨ho, hn, trivial⟩

theorem wellFormed_extended {old new : Json} (ho : old.WellFormed) (hn : new.WellFormed) :
    (extended old new).WellFormed := by
  unfold extended
  split
  · exact wellFormedItems_append ho hn
  · exact wellFormed_appended ho hn

mutual

theorem wellFormed_merged (idempotent : Bool) {old : Option Json}
    (ho : ∀ v, old = some v → v.WellFormed) (new : Json) (hn : new.WellFormed) :
    (merged idempotent old new).WellFormed := by
  unfold merged
  split
  · exact hn
  · exact hn
  · next old _ =>
    have hold : old.WellFormed := ho old rfl
    split
    · next source =>
      split
      · next target =>
        exact wellFormed_mergedFields idempotent hold source hn.2
      · split
        · exact hn
        · exact wellFormed_appended hold hn
    · split
      · exact hn
      · exact wellFormed_appended hold hn

theorem wellFormed_mergedFields (idempotent : Bool) {target : List (String × Json)}
    (ht : (Json.obj target).WellFormed) (source : List (String × Json))
    (hs : WellFormedFields source) :
    (Json.obj (mergedFields idempotent target source)).WellFormed := by
  match source with
  | [] => exact ht
  | (name, v) :: rest =>
    have hv := wellFormed_merged idempotent
      (fun w (hw : Fields.find? target name = some w) => wellFormed_of_find? ht.2 hw) v hs.1
    exact wellFormed_mergedFields idempotent
      ⟨Fields.ascending_insert ht.1 _ _, wellFormedFields_insert ht.2 name hv⟩ rest hs.2

end

theorem wellFormed_combine {old : Option Json} (ho : ∀ v, old = some v → v.WellFormed) {new : Json}
    (hn : new.WellFormed) (policy : MergePolicy) (idempotent : Bool) :
    (combine old new policy idempotent).WellFormed := by
  cases policy with
  | merge => exact wellFormed_merged idempotent ho new hn
  | overwrite => exact hn
  | append =>
    simp only [combine]
    split
    · exact hn
    · exact hn
    · next old _ => exact wellFormed_appended (ho old rfl) hn
  | extend =>
    simp only [combine]
    split
    · exact hn
    · exact hn
    · next old _ => exact wellFormed_extended (ho old rfl) hn

theorem combine_null (new : Json) (policy : MergePolicy) (idempotent : Bool) :
    combine (some .null) new policy idempotent = combine none new policy idempotent := by
  cases policy
  case merge => simp only [combine, merged]
  all_goals rfl

end Json

namespace Patch

/-- The value of the patch, if it has one, keeps the names of its objects in order. -/
def WellFormed (p : Patch) : Prop := ∀ v, p.value = some v → v.WellFormed

theorem wellFormed_resolve {p : Patch} (hp : p.WellFormed) {old : Option Json}
    (ho : ∀ v, old = some v → v.WellFormed) {v : Json} (hv : p.resolve old = some v) :
    v.WellFormed := by
  unfold resolve at hv
  cases hvalue : p.value with
  | none => simp [hvalue] at hv
  | some new =>
    rw [hvalue, Option.map_some, Option.some.injEq] at hv
    exact hv ▸ Json.wellFormed_combine ho (hp new hvalue) p.policy p.idempotent

/-- A patch without a value removes. -/
theorem isRemoval_of_none {p : Patch} (hvalue : p.value = none) : p.isRemoval = true := by
  rw [isRemoval, hvalue, Option.isNone_none]

theorem resolve_of_none {p : Patch} (hvalue : p.value = none) (old : Option Json) :
    p.resolve old = none := by
  rw [resolve, hvalue, Option.map_none]

/-- Null in the place of a patch counts as nothing. -/
theorem resolve_null (p : Patch) : p.resolve (some .null) = p.resolve none := by
  cases hvalue : p.value <;> simp [resolve, hvalue, Json.combine_null]

end Patch

end TreePath

import Mathlib.Data.List.Perm.Basic
import TreePath.Proofs.Write.Merging

namespace TreePath

namespace Json

section Levels

theorem objectLevels_le_of_mem {source : List (String × Json)} {name : String} {v : Json}
    (hv : (name, v) ∈ source) : v.objectLevels ≤ fieldLevels source := by
  induction source with
  | nil => exact absurd hv List.not_mem_nil
  | cons field rest ih =>
    obtain ⟨other, w⟩ := field
    rw [fieldLevels]
    rcases List.mem_cons.mp hv with hfirst | hlater
    · obtain ⟨-, rfl⟩ := Prod.mk.inj hfirst
      exact Nat.le_max_left _ _
    · exact Nat.le_trans (ih hlater) (Nat.le_max_right _ _)

end Levels

section Fields

variable {target source other : List (String × Json)} {old : Option Json}

/-- A merge of mappings, name by name. -/
theorem find?_mergedFields (idempotent : Bool) (hsource : Fields.Ascending source)
    (target : List (String × Json)) (name : String) :
    Fields.find? (mergedFields idempotent target source) name =
      match Fields.find? source name with
      | none => Fields.find? target name
      | some w => some (merged idempotent (Fields.find? target name) w) := by
  rw [← mergedFieldsTo_eq idempotent source (Nat.le_refl _)]
  cases hfound : Fields.find? source name with
  | none =>
    refine find?_mergedFieldsTo_of_ne target fun w hw => ?_
    rw [Fields.find?_of_mem hsource hw] at hfound
    cases hfound
  | some w =>
    have hmem := Fields.mem_of_find? hfound
    rw [find?_mergedFieldsTo hsource hmem,
      combinedTo_eq idempotent w (objectLevels_le_of_mem hmem)]
    rfl

theorem merged_none (idempotent : Bool) (v : Json) : merged idempotent none v = v := by
  rw [merged]

theorem ascending_mergedFields (htarget : (Json.obj target).WellFormed)
    (hsource : (Json.obj source).WellFormed) :
    Fields.Ascending (mergedFields true target source) :=
  (wellFormed_mergedFields true htarget source hsource.2).1

/-- The fields that a mapping is merged into: those of a mapping. What is none is replaced. -/
def mergeTarget (old : Option Json) : List (String × Json) :=
  match old with
  | some (.obj fields) => fields
  | _ => []

@[simp] theorem mergeTarget_obj (fields : List (String × Json)) :
    mergeTarget (some (.obj fields)) = fields := rfl

theorem wellFormed_mergeTarget (hold : ∀ v, old = some v → v.WellFormed) :
    (Json.obj (mergeTarget old)).WellFormed := by
  unfold mergeTarget
  split
  · next fields => exact hold _ rfl
  · exact ⟨.nil, trivial⟩

/-- Merged into nothing, a mapping stays what it is. -/
theorem mergedFields_nil (hsource : (Json.obj source).WellFormed) :
    mergedFields true [] source = source := by
  refine Fields.ext (ascending_mergedFields ⟨.nil, trivial⟩ hsource) hsource.1 fun name => ?_
  rw [find?_mergedFields true hsource.1]
  cases Fields.find? source name with
  | none => rfl
  | some w => exact congrArg some (merged_none true w)

/-- A mapping is merged into the fields that are there, whatever else is there. -/
theorem combine_obj (hsource : (Json.obj source).WellFormed) (old : Option Json) :
    combine old (.obj source) .merge true = .obj (mergedFields true (mergeTarget old) source) := by
  have hreplaced := mergedFields_nil hsource
  rw [combine]
  cases old with
  | none => simp [merged, mergeTarget, hreplaced]
  | some v =>
    cases v with
    | obj target => rw [merged, mergeTarget_obj]
    | null | bool | num | str | arr => simp [merged, mergeTarget, hreplaced]

/-- The mappings have no name in common. -/
def Apart (a b : List (String × Json)) : Prop := (Fields.names a).Disjoint (Fields.names b)

theorem Apart.symm {a b : List (String × Json)} (h : Apart a b) : Apart b a := List.Disjoint.symm h

/-- Of two mappings with no name in common, either one can be merged in first. -/
theorem mergedFields_comm (htarget : (Json.obj target).WellFormed)
    (hsource : (Json.obj source).WellFormed) (hother : (Json.obj other).WellFormed)
    (hapart : Apart source other) :
    mergedFields true (mergedFields true target source) other =
      mergedFields true (mergedFields true target other) source := by
  have hfirst := wellFormed_mergedFields true htarget source hsource.2
  have hsecond := wellFormed_mergedFields true htarget other hother.2
  refine Fields.ext (ascending_mergedFields hfirst hother)
    (ascending_mergedFields hsecond hsource) fun name => ?_
  have hone : (Fields.find? source name).isSome → (Fields.find? other name).isSome → False := by
    rw [← Fields.mem_names_iff, ← Fields.mem_names_iff]
    exact fun hs ho => hapart hs ho
  simp only [find?_mergedFields true hsource.1, find?_mergedFields true hother.1]
  cases hs : Fields.find? source name with
  | none => cases Fields.find? other name <;> rfl
  | some v =>
    cases ho : Fields.find? other name with
    | none => rfl
    | some w => exact absurd (hone (by rw [hs]; rfl) (by rw [ho]; rfl)) id

end Fields

section Mappings

variable {target source : List (String × Json)}

/-- A mapping merged into a mapping holds the names of both. What only one of them holds is kept, and
what both hold is merged. -/
theorem combine_mappings (hsource : (Json.obj source).WellFormed) :
    ∃ fields, combine (some (.obj target)) (.obj source) .merge true = .obj fields ∧ ∀ name,
      (name ∈ Fields.names fields ↔ name ∈ Fields.names target ∨ name ∈ Fields.names source) ∧
      (name ∉ Fields.names source → Fields.find? fields name = Fields.find? target name) ∧
      (name ∉ Fields.names target → Fields.find? fields name = Fields.find? source name) ∧
      ∀ v w, Fields.find? target name = some v → Fields.find? source name = some w →
        Fields.find? fields name = some (combine (some v) w .merge true) := by
  refine ⟨_, combine_obj hsource _, fun name => ?_⟩
  rw [mergeTarget_obj]
  simp only [Fields.mem_names_iff, find?_mergedFields true hsource.1]
  cases Fields.find? source name with
  | none => simp
  | some w =>
    refine ⟨by simp, by simp, fun habsent => ?_, ?_⟩
    · rw [Option.not_isSome_iff_eq_none.mp habsent]
      exact congrArg some (merged_none true w)
    · rintro v u hv ⟨⟩
      rw [hv]
      rfl

end Mappings

section Trees

variable {sources others : List (List (String × Json))}

/-- Sources that have no names in common can be merged in any order. -/
theorem updateTree_perm (hperm : sources.Perm others)
    (hsources : ∀ s ∈ sources, (Json.obj s).WellFormed) (hapart : sources.Pairwise Apart)
    {target : Json} (htarget : target.WellFormed) :
    updateTree target (sources.map .obj) = updateTree target (others.map .obj) := by
  induction hperm generalizing target with
  | nil => rfl
  | cons s _ ih =>
    obtain ⟨hs, hrest⟩ := List.forall_mem_cons.mp hsources
    exact ih hrest hapart.tail
      (wellFormed_combine (fun v hv => Option.some.inj hv ▸ htarget) hs .merge true)
  | swap a b rest =>
    obtain ⟨hb, ha, -⟩ := by simpa only [List.forall_mem_cons] using hsources
    have hba : Apart b a := (List.pairwise_cons.mp hapart).1 a List.mem_cons_self
    have hcomm := mergedFields_comm (wellFormed_mergeTarget fun v hv => Option.some.inj hv ▸ htarget)
      hb ha hba
    simp only [updateTree, List.map_cons, List.foldl_cons, combine_obj ha, combine_obj hb,
      mergeTarget_obj, hcomm]
  | trans hfirst _ ih ih' =>
    rw [ih hsources hapart htarget]
    exact ih' (fun s hs => hsources s (hfirst.mem_iff.mpr hs))
      (hfirst.pairwise hapart Apart.symm) htarget

end Trees

section Laws

/-- The laws of deep merges, into whatever there is: to merge a value again changes nothing; what two
mappings make is told name by name; mappings with no name in common may come in any order, two of
them or as many as a tree is merged from. -/
theorem merge_laws {old : Option Json} (hold : ∀ v, old = some v → v.WellFormed) :
    (∀ a : Json, a.WellFormed →
      combine (some (combine old a .merge true)) a .merge true = combine old a .merge true) ∧
    (∀ target source, old = some (.obj target) → (Json.obj source).WellFormed →
      ∃ fields, combine old (.obj source) .merge true = .obj fields ∧ ∀ name,
        (name ∈ Fields.names fields ↔ name ∈ Fields.names target ∨ name ∈ Fields.names source) ∧
        (name ∉ Fields.names source → Fields.find? fields name = Fields.find? target name) ∧
        (name ∉ Fields.names target → Fields.find? fields name = Fields.find? source name) ∧
        ∀ v w, Fields.find? target name = some v → Fields.find? source name = some w →
          Fields.find? fields name = some (combine (some v) w .merge true)) ∧
    (∀ a b, (Json.obj a).WellFormed → (Json.obj b).WellFormed → Apart a b →
      combine (some (combine old (.obj a) .merge true)) (.obj b) .merge true =
        combine (some (combine old (.obj b) .merge true)) (.obj a) .merge true) ∧
    ∀ sources others : List (List (String × Json)), sources.Perm others →
      (∀ s ∈ sources, (Json.obj s).WellFormed) → sources.Pairwise Apart →
      mergeTree (sources.map .obj) = mergeTree (others.map .obj) ∧
        ∀ target : Json, target.WellFormed →
          updateTree target (sources.map .obj) = updateTree target (others.map .obj) := by
  refine ⟨fun a ha => combine_combine ha hold, ?_, ?_, ?_⟩
  · rintro target source rfl hsource
    exact combine_mappings hsource
  · intro a b ha hb hapart
    rw [combine_obj ha, combine_obj hb, combine_obj hb, combine_obj ha, mergeTarget_obj,
      mergeTarget_obj, mergedFields_comm (wellFormed_mergeTarget hold) ha hb hapart]
  · intro sources others hperm hsources hapart
    have hupdate : ∀ target : Json, target.WellFormed →
        updateTree target (sources.map .obj) = updateTree target (others.map .obj) :=
      fun target htarget => updateTree_perm hperm hsources hapart htarget
    exact ⟨hupdate .null trivial, hupdate⟩

/-- Two mappings of which one holds a mapping, a null and a sequence, into a value that holds others
in their places. -/
theorem merge_laws_nested :
    let old : Json := .obj [("m", .obj [("x", .ofNat 1)]), ("n", .null)]
    let a : List (String × Json) := [("m", .obj [("y", .ofNat 2)]), ("s", .arr [.null])]
    let b : List (String × Json) := [("n", .obj [("z", .null)])]
    let merge (old new : Json) : Json := combine (some old) new .merge true
    (∀ v, some old = some v → v.WellFormed) ∧ (Json.obj a).WellFormed ∧ (Json.obj b).WellFormed ∧
      Apart a b ∧ merge old (.obj a) = .obj [("m", .obj [("x", .ofNat 1), ("y", .ofNat 2)]),
        ("n", .null), ("s", .arr [.null])] ∧
      merge (merge old (.obj a)) (.obj a) = merge old (.obj a) ∧
      merge (merge old (.obj a)) (.obj b) = merge (merge old (.obj b)) (.obj a) ∧
      mergeTree [.obj a, .obj b] = mergeTree [.obj b, .obj a] ∧
      updateTree old [.obj a, .obj b] = updateTree old [.obj b, .obj a] := by
  intro old a b merge
  have hold : ∀ v, some old = some v → v.WellFormed := by
    rintro _ ⟨⟩
    exact ⟨Fields.ascending_pair (by decide) _ _, ⟨Fields.ascending_single _ _, trivial, trivial⟩,
      trivial, trivial⟩
  have ha : (Json.obj a).WellFormed := ⟨Fields.ascending_pair (by decide) _ _,
    ⟨Fields.ascending_single _ _, trivial, trivial⟩, ⟨trivial, trivial⟩, trivial⟩
  have hb : (Json.obj b).WellFormed :=
    ⟨Fields.ascending_single _ _, ⟨Fields.ascending_single _ _, trivial, trivial⟩, trivial⟩
  have hapart : Apart a b := by simp [Apart, a, b, Fields.names]
  obtain ⟨hagain, -, hcomm, hperm⟩ := merge_laws hold
  obtain ⟨hmerge, hupdate⟩ := hperm [a, b] [b, a] (.swap b a [])
    (List.forall_mem_cons.mpr ⟨ha, List.forall_mem_singleton.mpr hb⟩) (List.pairwise_pair.mpr hapart)
  exact ⟨hold, ha, hb, hapart, by cbv, hagain _ ha, hcomm a b ha hb hapart, hmerge,
    hupdate old (hold old rfl)⟩

end Laws

end Json

end TreePath

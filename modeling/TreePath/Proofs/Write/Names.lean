import TreePath.Proofs.Write.Deletion
import TreePath.Proofs.Write.Untripped

namespace TreePath

open TreeUpdate Json

section Places

variable (config : Config) (patch : Patch) (depth : Nat)

/-- The count of a write that succeeds, and what it leaves. -/
def Outcome.left? (o : Outcome Json Nat) : Option (Nat × Option Json) :=
  o.result.toOption.map fun n => (n, some o.tree)

/-- What a patch makes of a place, at which there may be a value. -/
def ended (old : Option Json) : Option (Nat × Option Json) :=
  if patch.isRemoval then some (if old.isSome then 1 else 0, none)
  else ((finish config patch none depth : Write Json Nat) (old.getD .null)).left?

/-- What a step makes of the field of a name. -/
def inField (f : Option Json → Option (Nat × Option Json)) (name : String)
    (fields : List (String × Json)) : Option (Nat × List (String × Json)) :=
  (f (Fields.find? fields name)).map fun (n, new) => (n, Fields.alter fields name new)

/-- The same in the mapping at a place. -/
def inMapping (f : Option Json → Option (Nat × Option Json)) (name : String)
    (fields : List (String × Json)) : Option (Nat × Option Json) :=
  (inField f name fields).map fun (n, fields) => (n, some (.obj fields))

/-- What a write along names makes of a place. Where nothing is, there is a mapping made for the
next name, unless something is to be removed; a scalar or a sequence is in the way. -/
def along : List String → Option Json → Option (Nat × Option Json)
  | [], old => ended config patch depth old
  | name :: rest, old =>
    match old.getD .null with
    | .null =>
      if patch.isRemoval then some (0, old) else inMapping (along rest) name []
    | .obj fields => inMapping (along rest) name fields
    | _ => none

end Places

section Writing

variable (config : Config) {patch : Patch} {last : Nat}

theorem along_none (hremoval : patch.isRemoval = true) (names : List String) :
    along config patch last names none = some (0, none) := by
  cases names with
  | nil => simp [along, ended, hremoval]
  | cons name rest => simp [along, hremoval]

theorem along_obj {name : String} {rest : List String} {old : Option Json}
    {fields : List (String × Json)} (hold : old.getD .null = .obj fields) :
    along config patch last (name :: rest) old =
      inMapping (along config patch last rest) name fields := by
  simp only [along, hold]

theorem along_null {name : String} {rest : List String} {old : Option Json}
    (hold : old.getD .null = .null) (hremoval : patch.isRemoval = false) :
    along config patch last (name :: rest) old =
      inMapping (along config patch last rest) name [] := by
  simp [along, hold, hremoval]

theorem along_null_removal {name : String} {rest : List String} {old : Option Json}
    (hold : old.getD .null = .null) (hremoval : patch.isRemoval = true) :
    along config patch last (name :: rest) old = some (0, old) := by
  simp [along, hold, hremoval]

/-- A write with a value does not tell a missing place from an empty mapping. -/
theorem along_orEmpty (hremoval : patch.isRemoval = false) (name : String) (rest : List String)
    (old : Option Json) :
    along config patch last (name :: rest) (some (orEmpty .mapping old)) =
      along config patch last (name :: rest) old := by
  have hnull : ∀ old : Option Json, old.getD .null = .null →
      along config patch last (name :: rest) (some (.obj [])) =
        along config patch last (name :: rest) old := by
    intro old hold
    rw [along_obj config rfl, along_null config hold hremoval]
  cases old with
  | none => exact hnull none rfl
  | some v =>
    cases v with
    | null => exact hnull (some .null) rfl
    | bool | num | str | arr | obj => rfl

theorem left?_under {f : Option Json → Option (Nat × Option Json)} {name : String}
    {fields : List (String × Json)} {o : Outcome Json Nat}
    (hf : o.left? = f (Fields.find? fields name)) :
    (o.under (.obj fields) (.name name)).left? = inMapping f name fields := by
  rw [inMapping, inField, ← hf]
  rcases o with ⟨result, tree, trips⟩
  cases result <;> rfl

theorem inMapping_same {f : Option Json → Option (Nat × Option Json)} {name : String}
    {fields : List (String × Json)} (hfields : Fields.Ascending fields)
    (hf : f (Fields.find? fields name) = some (0, Fields.find? fields name)) :
    inMapping f name fields = some (0, some (.obj fields)) := by
  rw [inMapping, inField, hf]
  simp [Fields.alter_find? hfields]

/-- A field is missing for a write when there is null at most. -/
theorem childKind?_name (fields : List (String × Json)) (name : String) :
    ((Fields.find? fields name).getD .null = .null ∧
      childKind? (Json.obj fields) (.name name) = none) ∨
    ∃ c kind, Fields.find? fields name = some c ∧
      childKind? (Json.obj fields) (.name name) = some kind := by
  have hkind : childKind? (Json.obj fields) (.name name) =
      ((Fields.find? fields name).bind present?).map Json.kind := rfl
  rw [hkind]
  cases Fields.find? fields name with
  | none => exact .inl ⟨rfl, rfl⟩
  | some c =>
    cases c with
    | null => exact .inl ⟨rfl, rfl⟩
    | bool | num | str | arr | obj => exact .inr ⟨_, _, rfl, rfl⟩

/-- A name enters the mapping that is there, or that is made; the write goes on at its field. -/
theorem writeAt_name (done : Path) {name : String} {rest : List String} {depth : Nat}
    (hdepth : depth ≤ config.maxDepth) {t : Json} (ht : t.WellFormed)
    (havoid : KeysAvoidSequences config.idField ((name :: rest).map .key) t)
    (hbelow : ∀ fields : List (String × Json), (Json.obj fields).WellFormed →
      (∀ c, Fields.find? fields name = some c →
        KeysAvoidSequences config.idField (rest.map .key) c) →
      ((writeBelow config patch done (.key name) (rest.map .key) depth (.name name) :
        Write Json Nat) (.obj fields)).left? =
        inMapping (along config patch last rest) name fields) :
    ((writeAt config patch done ((name :: rest).map .key) depth : Write Json Nat) t).left? =
      along config patch last (name :: rest) (some t) := by
  rw [List.map_cons] at havoid ⊢
  rw [writeAt, if_neg (by omega), writeOn_concrete config patch done rfl]
  cases t with
  | obj fields =>
    have henter : (enter config done (.key name) patch.isRemoval : Write Json (Option ChildKey))
        (.obj fields) = ⟨.ok (some (.name name)), .obj fields, 0⟩ := by
      cases patch.isRemoval <;> rfl
    rw [Write.bind_ok henter, along_obj config rfl]
    have hhop := (entered_name config.idField name (.inl rfl) ht).before
    exact hbelow fields ht fun c hc => havoid.2 c (hhop.trans hc)
  | null =>
    cases hremoval : patch.isRemoval with
    | true =>
      rw [along_null_removal config rfl hremoval]
      rfl
    | false =>
      have henter : (enter config done (.key name) false : Write Json (Option ChildKey)) .null =
          ⟨.ok (some (.name name)), .obj [], 0⟩ := rfl
      rw [Write.bind_ok henter, along_null config rfl hremoval]
      exact hbelow [] (wellFormed_emptyValue .mapping) fun c hc => nomatch hc
  | arr items => exact absurd rfl (havoid.1 rfl)
  | bool b | num x | str s => cases patch.isRemoval <;> rfl

theorem writeBelow_names (done : Path) (name : String) (rest : List String) {depth : Nat}
    (hlast : depth + rest.length = last) (hdepth : last ≤ config.maxDepth)
    {fields : List (String × Json)} (ht : (Json.obj fields).WellFormed)
    (havoid : ∀ c, Fields.find? fields name = some c →
      KeysAvoidSequences config.idField (rest.map .key) c) :
    ((writeBelow config patch done (.key name) (rest.map .key) depth (.name name) :
      Write Json Nat) (.obj fields)).left? =
      inMapping (along config patch last rest) name fields := by
  have haccepts : (Json.obj fields).Accepts (.name name) := trivial
  induction rest generalizing name done depth fields with
  | nil =>
    obtain rfl : depth = last := hlast
    rw [List.map_nil, writeBelow]
    cases hremoval : patch.isRemoval with
    | false =>
      rw [finish_under config hremoval ht haccepts]
      apply left?_under
      rw [along, ended, if_neg (by simp [hremoval])]
      rfl
    | true =>
      have hvalue : patch.value = none := Option.isNone_iff_eq_none.mp hremoval
      rw [finish_removal config hvalue]
      change (⟨.ok ((Json.obj fields).patchedChild (.name name) patch).1,
        ((Json.obj fields).patchedChild (.name name) patch).2, 0⟩ : Outcome Json Nat).left? = _
      rw [Json.patchedChild_obj, Patch.resolve_of_none hvalue]
      simp only [inMapping, inField, along, ended, hremoval, if_true]
      rfl
  | cons r more ih =>
    rw [List.length_cons] at hlast
    have hinside : ∀ c : Json, c.WellFormed →
        KeysAvoidSequences config.idField ((r :: more).map .key) c →
        ((writeAt config patch (done.append (.key name)) ((r :: more).map .key) (depth + 1) :
          Write Json Nat) c).left? = along config patch last (r :: more) (some c) := by
      intro c hc hrest
      exact writeAt_name config _ (by omega) hc hrest fun fields hw hchild =>
        ih _ r (by omega) hw hchild trivial
    rw [List.map_cons] at havoid ⊢
    cases hremoval : patch.isRemoval with
    | false =>
      rw [writeBelow_eq config hremoval done (.key name) (.key r) (more.map .key) depth ht haccepts
        (keyFits_name _ _)]
      apply left?_under
      rw [← along_orEmpty config hremoval]
      exact hinside _ (wellFormed_filled_child .mapping ht _)
        (avoid_filled config.idField (s := .key r) rfl _ havoid)
    | true =>
      rw [writeBelow, Write.view_bind_apply, hremoval]
      rcases childKind?_name fields name with ⟨hnull, hmissing⟩ | ⟨c, kind, hc, hkind⟩
      · rw [hmissing]
        exact (inMapping_same ht.1 (along_null_removal config hnull hremoval)).symm
      · have hreach : (reach (.name name) (Segment.key r).container : Write Json Bool)
            (.obj fields) = ⟨.ok true, .obj fields, 0⟩ := by
          unfold reach
          rw [Write.view_bind_apply, hkind]
          rfl
        have hfound : (Json.obj fields).child? (.name name) = some c := hc
        have hchild := inChild_eq (writeAt config patch (done.append (.key name))
          (.key r :: more.map .key) (depth + 1)) hfound
        rw [hkind]
        refine Eq.trans (congrArg Outcome.left? (Write.bind_ok hreach _)) ?_
        refine Eq.trans (congrArg Outcome.left? hchild) ?_
        apply left?_under
        rw [hc]
        exact hinside c (wellFormed_of_find? ht.2 hc) (havoid c hc)

end Writing

end TreePath

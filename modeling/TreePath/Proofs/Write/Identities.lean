import TreePath.Proofs.Write.Landing
import TreePath.Proofs.Write.Merging

namespace TreePath

open TreeUpdate Json

/-- A name identifies the mappings that hold it in their identifying field. -/
def Json.IsIdentified (idField name : String) (v : Json) : Prop :=
  v.field? idField = some (.str name)

/-- The first element of a sequence that a name identifies, and the elements in front of it. -/
structure FirstIdentified (idField name : String) (front : List Json) (e : Json) : Prop where
  here : e.IsIdentified idField name
  before : ∀ d ∈ front, ¬d.IsIdentified idField name

/-- What becomes of the elements of a sequence, and of the one among them that a name stands for,
when `v` is merged into it. -/
inductive MergedAtName (idField name : String) (v : Json) : List Json → Json → List Json → Prop
  /-- The first element that the name identifies is changed, and no other. -/
  | changed {front : List Json} {e : Json} (behind : List Json)
    (hfirst : FirstIdentified idField name front e) :
    MergedAtName idField name v (front ++ e :: behind) (combine (some e) v .merge true)
      (front ++ combine (some e) v .merge true :: behind)
  /-- An element of that name is added behind the others. -/
  | added {items : List Json} (hnone : ∀ d ∈ items, ¬d.IsIdentified idField name) :
    MergedAtName idField name v items
      (combine (some (identityElement idField name)) v .merge true)
      (items ++ [combine (some (identityElement idField name)) v .merge true])

section Elements

variable {idField name : String} {v e : Json} {front : List Json}

theorem hasIdentity_iff : hasIdentity idField name v = true ↔ v.IsIdentified idField name := by
  rw [hasIdentity_field?, beq_iff_eq, IsIdentified]
  cases v.field? idField with
  | none => simp
  | some id => cases id <;> simp [asString?]

theorem identityElement_isIdentified (idField name : String) :
    (identityElement idField name).IsIdentified idField name := by
  simp [IsIdentified, identityElement, field?, Fields.find?]

/-- Only a mapping can be identified. -/
theorem Json.IsIdentified.eq_obj (h : v.IsIdentified idField name) :
    ∃ fields, v = .obj fields ∧ Fields.find? fields idField = some (.str name) := by
  cases v with
  | obj fields => exact ⟨fields, rfl, h⟩
  | null | bool | num | str | arr => cases h

/-- Where there is an element that a name identifies, there is a first one. -/
theorem exists_firstIdentified (idField name : String) (items : List Json) :
    (∃ front e behind, items = front ++ e :: behind ∧ FirstIdentified idField name front e) ∨
      ∀ d ∈ items, ¬d.IsIdentified idField name := by
  cases hfind : items.find? (hasIdentity idField name) with
  | none =>
    refine .inr fun d hd => ?_
    rw [← hasIdentity_iff]
    exact List.find?_eq_none.mp hfind d hd
  | some e =>
    obtain ⟨he, front, behind, hitems, hfront⟩ := List.find?_eq_some_iff_append.mp hfind
    refine .inl ⟨front, e, behind, hitems, hasIdentity_iff.mp he, fun d hd => ?_⟩
    rw [← hasIdentity_iff]
    simpa using hfront d hd

/-- The first element that a name identifies is the one that is looked up. -/
theorem FirstIdentified.find?_children (h : FirstIdentified idField name front e)
    (behind : List Json) :
    (Json.arr (front ++ e :: behind)).children.find? (fun c => hasIdentity idField name c.2) =
      some (.index front.length, e) := by
  have hhere : hasIdentity idField name e = true := hasIdentity_iff.mpr h.here
  have hbefore : front.zipIdx.find? (fun c => hasIdentity idField name c.1) = none := by
    refine List.find?_eq_none.mpr fun c hc => ?_
    rw [hasIdentity_iff]
    exact h.before _ (List.fst_mem_of_mem_zipIdx hc)
  rw [children, List.find?_map, Function.comp_def, List.zipIdx_append, List.find?_append, hbefore]
  simp [hhere]

theorem find?_children_none {items : List Json} (h : ∀ d ∈ items, ¬d.IsIdentified idField name) :
    (Json.arr items).children.find? (fun c => hasIdentity idField name c.2) = none := by
  refine List.find?_eq_none.mpr fun c hc => ?_
  obtain ⟨i, -, hget⟩ := mem_children_arr.mp hc
  rw [hasIdentity_iff]
  exact h _ (List.mem_of_getElem? hget)

end Elements

section Merging

variable {idField name : String} {e : Json} {source : List (String × Json)}

/-- A mapping that holds no other name in the identifying field leaves an element its identity. -/
theorem isIdentified_combine (hsource : Fields.Ascending source)
    (hid : ∀ id, Fields.find? source idField = some id → id = Json.str name)
    (he : e.IsIdentified idField name) :
    (combine (some e) (.obj source) .merge true).IsIdentified idField name := by
  obtain ⟨target, rfl, htarget⟩ := he.eq_obj
  have hmerged : combine (some (.obj target)) (.obj source) .merge true =
      .obj (mergedFieldsTo true (fieldLevels source + 1) target source) := by
    rw [mergedFieldsTo_eq true source (Nat.le_refl _), combine, merged]
  rw [hmerged]
  show Fields.find? _ idField = some (Json.str name)
  cases hfound : Fields.find? source idField with
  | none =>
    rw [find?_mergedFieldsTo_of_ne target, htarget]
    intro id hmem
    rw [Fields.find?_of_mem hsource hmem] at hfound
    cases hfound
  | some id =>
    obtain rfl := hid id hfound
    rw [find?_mergedFieldsTo hsource (Fields.mem_of_find? hfound), htarget,
      combinedTo_replaced (by simp)]

end Merging

section Reading

variable {idField name : String} {front : List Json} {e : Json}

theorem reached?_identified (h : FirstIdentified idField name front e) (behind : List Json) :
    reached? idField [.key name] (Json.arr (front ++ e :: behind)) = some e := by
  have hnone : TreeAccess.child? (Json.arr (front ++ e :: behind)) (.name name) = none := rfl
  have hkind : TreeAccess.kind (Json.arr (front ++ e :: behind)) = .sequence := rfl
  have hentries : (TreeAccess.entries (Json.arr (front ++ e :: behind))).find?
      (fun c => hasIdentity idField name c.2) = some (.index front.length, e) :=
    h.find?_children behind
  rw [reached?, hop?, lookupKey, hnone]
  simp only [if_pos hkind, hentries]
  rfl

end Reading

section Writing

variable (config : Config) {name : String} {v e : Json} {front items : List Json}

/-- A write along a name goes to the first element that it identifies. -/
theorem slot?_identified (h : FirstIdentified config.idField name front e) (behind : List Json) :
    slot? config (.key name) (.arr (front ++ e :: behind)) =
      some (.index front.length, .arr (front ++ e :: behind)) := by
  show slotIn? config (.key name) (.arr (front ++ e :: behind)) = _
  rw [slotIn?, h.find?_children]

theorem slot?_unidentified (h : ∀ d ∈ items, ¬d.IsIdentified config.idField name) :
    slot? config (.key name) (.arr items) =
      some (.index items.length, .arr (items ++ [identityElement config.idField name])) := by
  show slotIn? config (.key name) (.arr items) = _
  rw [slotIn?, find?_children_none h]

/-- The slot of a name is at the element that a merge along the name meets: one that was there, or
one that is added for it. -/
theorem exists_slotted (ht : (Json.arr items).WellFormed) (name : String) (v : Json) :
    ∃ front e behind,
      slot? config (.key name) (.arr items) =
        some (.index front.length, .arr (front ++ e :: behind)) ∧
      FirstIdentified config.idField name front e ∧ e.WellFormed ∧
      MergedAtName config.idField name v items (combine (some e) v .merge true)
        (front ++ combine (some e) v .merge true :: behind) := by
  rcases exists_firstIdentified config.idField name items with
    ⟨front, e, behind, rfl, hfirst⟩ | hnone
  · refine ⟨front, e, behind, slot?_identified config hfirst behind, hfirst, ?_,
      .changed behind hfirst⟩
    have hmem : (ChildKey.index front.length, e) ∈ (Json.arr (front ++ e :: behind)).children :=
      mem_children_arr.mpr ⟨front.length, rfl, by simp⟩
    exact wellFormed_of_mem_children ht hmem
  · exact ⟨items, _, [], slot?_unidentified config hnone,
      ⟨identityElement_isIdentified _ _, hnone⟩, wellFormed_identityElement _ _, .added hnone⟩

/-- A value that is written along a name is merged into the element that the name has its slot
at. -/
theorem writeAt_slotted (hv : v.WellFormed) (hlevels : v.objectLevels ≤ config.maxDepth)
    {t : Json} (ht : t.WellFormed) (behind : List Json)
    (hslot : slot? config (.key name) t =
      some (.index front.length, .arr (front ++ e :: behind))) :
    ∃ n trips, (writeAt config (.merge v) [] [.key name] 0 : Write Json Nat) t =
      ⟨.ok n, .arr (front ++ combine (some e) v .merge true :: behind), trips⟩ := by
  have hin := slot_of_slot? ht hslot
  have hhere : (Json.arr (front ++ e :: behind)).at? (some (.index front.length)) = some e := by
    show (front ++ e :: behind)[front.length]? = some e
    simp
  have hput : ∀ w, (Json.arr (front ++ e :: behind)).putAt (some (.index front.length)) w =
      .arr (front ++ w :: behind) := by
    intro w
    show (Json.arr (front ++ e :: behind)).putChild (.index front.length) w = _
    rw [putChild_arr_of_lt (by simp)]
    simp
  have hvalue : (Patch.merge v).value = some v := rfl
  have hdepth : 0 + v.objectLevels ≤ config.maxDepth := by omega
  obtain ⟨n, trips, hrun⟩ := finish_value config hvalue hv (some (.index front.length)) hdepth
    hin.wellFormed (acceptsAt_some hin.lists.accepts)
  rw [hhere, hput] at hrun
  refine ⟨n, trips, ?_⟩
  rw [writeAt, if_neg (Nat.not_lt_zero _), writeOn_concrete config _ [] rfl]
  show ((enter config [] (.key name) false : Write Json (Option ChildKey)) >>= _) t = _
  rw [Write.bind_ok (enter_slot config [] rfl ht hslot)]
  simp only
  rw [writeBelow]
  exact hrun

end Writing

section Updating

/-- Where merges replace, what an update leaves is what the merge along its path leaves. -/
theorem Path.SelectsChildren.update_eq {p : Path} (hp : p.SelectsChildren) (t v : Json)
    {r : Resolver} (hidempotent : r.config.idempotent = true) :
    (Resolver.update t (.path p) v r).1 =
      let o := (writeAt r.config (.merge v) [] p 0 : Write Json Nat) t
      (o.result, o.tree) := by
  have hpatch : (Patch.merge v).withIdempotent r.config.idempotent = .merge v := by
    rw [hidempotent]
    rfl
  rw [← hp.writePath_eq, ← hpatch]
  rfl

/-- An update along a name selects exactly one element of a sequence, or makes it: the first one
that the name identifies, or else a new one behind the others, has the mapping merged into it, and
nothing else changes. The name stands for that element afterwards, and the same update once more
changes nothing. -/
theorem update_identified {items : List Json} {source : List (String × Json)} {name : String}
    {r : Resolver} (ht : (Json.arr items).WellFormed) (hv : (Json.obj source).WellFormed)
    (hid : ∀ id, Fields.find? source r.config.idField = some id → id = Json.str name)
    (hlevels : (Json.obj source).objectLevels ≤ r.config.maxDepth)
    (hidempotent : r.config.idempotent = true) :
    ∃ n e items' r',
      Resolver.update (Json.arr items) (.path [.key name]) (.obj source) r =
        ((.ok n, .arr items'), r') ∧
      MergedAtName r.config.idField name (.obj source) items e items' ∧
      (Resolver.find (Json.arr items') (.path [.key name]) r').1 = .ok (some e) ∧
      ∃ m, (Resolver.update (Json.arr items') (.path [.key name]) (.obj source) r').1 =
        (.ok m, .arr items') := by
  have hconcrete : Path.IsConcrete [.key name] := List.forall_mem_singleton.mpr rfl
  have hupdate := fun (t : Json) {r : Resolver} (h : r.config.idempotent = true) =>
    hconcrete.selectsChildren.update_eq t (.obj source) h
  obtain ⟨front, d, behind, hslot, hfirst, hd, hmerged⟩ :=
    exists_slotted r.config ht name (.obj source)
  obtain ⟨e, he⟩ : ∃ e, e = combine (some d) (.obj source) .merge true := ⟨_, rfl⟩
  rw [← he] at hmerged
  obtain ⟨n, trips, hrun⟩ := writeAt_slotted r.config hv hlevels ht behind hslot
  rw [← he] at hrun
  obtain ⟨r', hr'⟩ : ∃ r', r' =
      (Resolver.update (Json.arr items) (.path [.key name]) (.obj source) r).2 := ⟨_, rfl⟩
  have hconfig : r'.config = r.config := by
    rw [hr']
    rfl
  -- the element has kept its identity, so it is the first one of the name again
  have hagain : FirstIdentified r.config.idField name front e :=
    ⟨he ▸ isIdentified_combine hv.1 hid hfirst.here, hfirst.before⟩
  have ht' : (Json.arr (front ++ e :: behind)).WellFormed := by
    have hin := slot_of_slot? ht hslot
    have hput := wellFormed_putChild hin.wellFormed
      (he ▸ wellFormed_combine (fun w hw => Option.some.inj hw ▸ hd) hv .merge true)
      (.index front.length)
    rw [putChild_arr_of_lt (by simp)] at hput
    simpa using hput
  have hsame : combine (some e) (.obj source) .merge true = e := by
    rw [he]
    exact combine_combine hv fun w hw => Option.some.inj hw ▸ hd
  obtain ⟨m, again, hrepeat⟩ := writeAt_slotted r.config hv hlevels ht' behind
    (slot?_identified r.config hagain behind)
  rw [hsame] at hrepeat
  refine ⟨n, e, front ++ e :: behind, r', ?_, hmerged, ?_, m, ?_⟩
  · have hfound := hupdate (Json.arr items) hidempotent
    rw [hrun] at hfound
    exact Prod.ext hfound hr'.symm
  · rw [find_concrete _ hconcrete, hconfig, reached?_identified hagain behind]
    rfl
  · rw [hupdate _ (hconfig ▸ hidempotent), hconfig, hrepeat]

theorem update_identified_duplicates :
    let a (x : Json) : Json := .obj [("name", .str "a"), ("x", x)]
    let items : List Json := [.str "a", .obj [("name", .arr [.str "a"])], a (.obj [("y", .null)]),
      a .null]
    let source : List (String × Json) := [("x", .obj [("z", .bool true)])]
    let r : Resolver := .new .default
    ∃ n e items' r',
      Resolver.update (Json.arr items) (.path [.key "a"]) (.obj source) r =
        ((.ok n, .arr items'), r') ∧
      MergedAtName r.config.idField "a" (.obj source) items e items' ∧
      (Resolver.find (Json.arr items') (.path [.key "a"]) r').1 = .ok (some e) ∧
      ∃ m, (Resolver.update (Json.arr items') (.path [.key "a"]) (.obj source) r').1 =
        (.ok m, .arr items') := by
  intro a items source r
  have ha : ∀ {x : Json}, x.WellFormed → (a x).WellFormed := fun hx =>
    ⟨Fields.ascending_pair (by decide) _ _, trivial, hx, trivial⟩
  have hlist : (Json.obj [("name", .arr [.str "a"])]).WellFormed :=
    ⟨Fields.ascending_single _ _, ⟨trivial, trivial⟩, trivial⟩
  have ht : (Json.arr items).WellFormed :=
    ⟨trivial, hlist, ha ⟨Fields.ascending_single _ _, trivial, trivial⟩, ha trivial, trivial⟩
  have hv : (Json.obj source).WellFormed :=
    ⟨Fields.ascending_single _ _, ⟨Fields.ascending_single _ _, trivial, trivial⟩, trivial⟩
  have hid : ∀ id, Fields.find? source r.config.idField = some id → id = Json.str "a" := by
    have hnone : Fields.find? source r.config.idField = none := by cbv
    rw [hnone]
    intro id hfound
    cases hfound
  exact update_identified ht hv hid (by decide) rfl

end Updating

end TreePath

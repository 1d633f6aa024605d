import TreePath.Proofs.Write.Ensures
import TreePath.Proofs.Write.Refinement
import TreePath.Resolver.Basic

namespace TreePath

open TreeUpdate

section Views

variable (t : Json)

theorem sees_kind : SeesAt t kind kind := fun _ _ _ hh => hh.kind_eq

theorem sees_isVacant : SeesAt t isVacant isVacant := fun _ _ _ hh => hh.isVacant_eq

theorem sees_childKeys : SeesAt t childKeys childKeys := fun _ _ _ hh => hh.childKeys_eq

theorem sees_childCount : SeesAt t childCount childCount := fun _ _ _ hh => hh.size_eq

theorem sees_snapshot : SeesAt t snapshot snapshot := fun _ _ _ hh => hh.toJson

theorem sees_childKind? (key : ChildKey) :
    SeesAt t (fun n => childKind? n key) fun t => childKind? t key := by
  intro h i S hh
  change (h.child? i key).bind (fun i => if h.isVacant i then none else some (h.kind i)) =
    ((t.child? key).bind Json.present?).map Json.kind
  cases hkey : t.child? key with
  | none =>
    rw [hh.child?_eq_none hkey]
    rfl
  | some v =>
    obtain ⟨c, T, hc, hv, -⟩ := hh.at_child hkey
    rw [hc, Option.bind_some, Option.bind_some, hv.isVacant_eq, hv.kind_eq, Json.present?]
    cases v.isNull <;> rfl

theorem sees_childSnapshot? (key : ChildKey) :
    SeesAt t (fun n => childSnapshot? n key) fun t => childSnapshot? t key := by
  intro h i S hh
  change (h.child? i key).map h.toJson = t.child? key
  cases hkey : t.child? key with
  | none =>
    rw [hh.child?_eq_none hkey]
    rfl
  | some v =>
    obtain ⟨c, T, hc, hv, -⟩ := hh.at_child hkey
    rw [hc, Option.map_some, hv.toJson]

theorem sees_identified? (idField name : String) :
    SeesAt t (identified? idField name) (identified? idField name) := by
  intro h i S hh
  unfold identified?
  rw [sees_childKeys t h i S hh]
  congr 1
  funext key
  have hsnapshot : childSnapshot? (⟨h, i⟩ : HeapNode) key = childSnapshot? t key :=
    sees_childSnapshot? t key h i S hh
  rw [hsnapshot]

theorem sees_matchingKeys (config : Config) (query : Query) :
    SeesAt t (matchingKeys config query) (matchingKeys config query) := by
  intro h i S hh
  unfold matchingKeys
  rw [sees_childKeys t h i S hh]
  congr 1
  congr 1
  funext key
  have hsnapshot : childSnapshot? (⟨h, i⟩ : HeapNode) key = childSnapshot? t key :=
    sees_childSnapshot? t key h i S hh
  rw [hsnapshot]

theorem sees_kindAt? (key : Option ChildKey) : SeesAt t (kindAt? key) (kindAt? key) := by
  intro h i S hh
  cases key with
  | some key => exact sees_childKind? t key h i S hh
  | none =>
    unfold kindAt?
    simp only
    rw [sees_isVacant t h i S hh, sees_kind t h i S hh]

end Views

section Ends

variable (t : Json)

theorem apply_refines {patch : Patch} (hp : patch.WellFormed) (key : Option ChildKey) :
    RefinesAt t (apply key patch) (apply key patch) := by
  cases key with
  | none => exact .step fun h i S hh => hh.patched hp
  | some key => exact .step fun h i S hh => hh.patchedChild hp key

theorem atKey_refines {x : Write HeapNode Nat} {y : Write Json Nat} (hx : ∀ t, RefinesAt t x y)
    (key : Option ChildKey) : RefinesAt t (atKey key x) (atKey key y) := by
  cases key with
  | none => exact hx t
  | some key => exact .inChild hx key t

theorem ensureContainer_refines (container : NodeKind) :
    RefinesAt t (Write.step (ensureContainer container)) (Write.step (ensureContainer container)) :=
  .step fun _ _ _ hh => hh.ensureContainer container

theorem identifiedKey_refines (config : Config) (name : String) (removal : Bool) :
    RefinesAt t (identifiedKey config name removal) (identifiedKey config name removal) := by
  unfold identifiedKey
  refine .view_bind (sees_identified? t _ _) ?_
  split
  · exact .pure _
  · refine .view_bind (sees_childCount t) ?_
    have helement : (Patch.overwrite (.obj [(config.idField, .str name)])).WellFormed := by
      intro w hw
      cases hw
      exact ⟨List.pairwise_singleton _ _, trivial, trivial⟩
    exact .bind (apply_refines t helement _) fun _ _ => .pure _

theorem positionKey_refines (config : Config) (done : Path) (i : Int64) (removal : Bool) :
    RefinesAt t (positionKey config done i removal) (positionKey config done i removal) := by
  unfold positionKey
  refine .view_bind (sees_childCount t) ?_
  split
  · simp only
    split
    · exact .fail _
    · exact .pure _
  · split
    · exact .pure _
    · exact .fail _

theorem childKey_refines (config : Config) (done : Path) (s : Segment) (removal : Bool) :
    RefinesAt t (childKey config done s removal) (childKey config done s removal) := by
  unfold childKey
  refine .view_bind (fun h i S hh => congrArg (· == NodeKind.sequence) (sees_kind t h i S hh)) ?_
  split
  · split
    · exact identifiedKey_refines t config _ removal
    · exact .pure _
  · split
    · exact positionKey_refines t config done _ removal
    · exact .pure _
  · exact .pure _

theorem enter_refines (config : Config) (done : Path) (s : Segment) (removal : Bool) :
    RefinesAt t (enter config done s removal) (enter config done s removal) := by
  unfold enter
  refine .view_bind (sees_isVacant t) ?_
  split
  · exact .pure _
  · refine .bind (ensureContainer_refines t _) fun entered _ => ?_
    split
    · exact childKey_refines _ config done s removal
    · exact .view_bind (sees_kind _) (.fail _)

theorem reach_refines {key : ChildKey} (hfits : KeyFits key t) (container : NodeKind) :
    RefinesAt t (reach key container) (reach key container) := by
  unfold reach
  refine .view_bind (fun h i S hh => congrArg Option.isSome (sees_childKind? t key h i S hh)) ?_
  split
  · exact .pure _
  · exact .step fun h i S hh => hh.ensureChild hfits container

mutual

theorem settle_refines (config : Config) (policy : MergePolicy) (idempotent : Bool) (v : Json)
    (hw : v.WellFormed) (key : Option ChildKey) (depth : Nat) (t : Json) :
    RefinesAt t (settle config policy idempotent v key depth)
      (settle config policy idempotent v key depth) := by
  have hpatch : (⟨some v, policy, idempotent⟩ : Patch).WellFormed := by
    intro w hw
    cases hw
    exact hw
  match v with
  | .obj fields =>
    rw [settle, settle]
    refine .view_bind (sees_kindAt? t key) ?_
    split
    · exact settleFields_refines config idempotent fields hw.2 key depth t
    · exact apply_refines t hpatch key
  | .arr _ | .null | .bool _ | .num _ | .str _ =>
    rw [settle, settle]
    all_goals first | exact apply_refines t hpatch key | simp

theorem settleFields_refines (config : Config) (idempotent : Bool) (fields : List (String × Json))
    (hw : Json.WellFormedFields fields) (key : Option ChildKey) (depth : Nat) (t : Json) :
    RefinesAt t (settleFields config idempotent fields key depth)
      (settleFields config idempotent fields key depth) := by
  match fields with
  | [] =>
    rw [settleFields, settleFields]
    exact .pure 0
  | (name, v) :: rest =>
    rw [settleFields, settleFields]
    refine .bind (atKey_refines t (fun t => ?_) key) fun n _ => ?_
    · split
      · exact .trip 0
      · refine .bind (enter_refines t config [] (.key name) false) fun field _ => ?_
        cases field with
        | none => exact .pure 0
        | some field =>
          exact settle_refines config .merge idempotent v hw.1 (some field) (depth + 1) _
    · have hrest := settleFields_refines config idempotent rest hw.2 key depth
      exact .bind (hrest _) fun m _ => .pure (n + m)

end

theorem finish_refines (config : Config) {patch : Patch} (hp : patch.WellFormed)
    (key : Option ChildKey) (depth : Nat) :
    RefinesAt t (finish config patch key depth) (finish config patch key depth) := by
  unfold finish
  cases hvalue : patch.value with
  | some v => exact settle_refines config _ _ v (hp v hvalue) key depth t
  | none => exact apply_refines t hp key

theorem writeLeaves_refines (config : Config) {patch : Patch} (hp : patch.WellFormed) (last : Bool)
    (left depth : Nat) : RefinesAt t (writeLeaves config patch last left depth)
      (writeLeaves config patch last left depth) := by
  induction left generalizing depth t with
  | zero => exact .trip 0
  | succ left ih =>
    rw [writeLeaves, writeLeaves]
    refine .view_bind (sees_isVacant t) ?_
    split
    · exact .pure 0
    · refine .view_bind (sees_kind t) ?_
      split
      · split
        · exact apply_refines t hp none
        · exact .pure 0
      · refine .view_bind (sees_childKeys t) (.sum (fun key t => ?_) _ t)
        refine .view_bind (sees_childKind? t key) ?_
        split
        · exact .inChild (fun t => ih t (depth + 1)) key t
        · split
          · exact finish_refines t config hp (some key) depth
          · exact .pure 0

end Ends

section Paths

mutual

theorem writeAt_refines (config : Config) {patch : Patch} (hp : patch.WellFormed)
    (done path : Path) (depth : Nat) (t : Json) :
    RefinesAt t (writeAt config patch done path depth) (writeAt config patch done path depth) := by
  rw [writeAt, writeAt]
  split
  · exact .trip 0
  · exact writeOn_refines config hp done path depth t
termination_by (pathWeight path, 1)

/-- One case for each kind of segment at the head of the path. -/
theorem writeOn_refines (config : Config) {patch : Patch} (hp : patch.WellFormed)
    (done path : Path) (depth : Nat) (t : Json) :
    RefinesAt t (writeOn config patch done path depth) (writeOn config patch done path depth) := by
  match path with
  | [] =>
    rw [writeOn, writeOn]
    exact finish_refines t config hp none depth
  | .key _ :: rest | .index _ :: rest =>
    rw [writeOn_concrete config patch done rfl, writeOn_concrete config patch done rfl]
    refine .bind (enter_refines t config done _ _) fun key hkey => ?_
    cases key with
    | none => exact .pure 0
    | some key =>
      exact writeBelow_refines config hp done _ rest depth key _
        (enter_fits config done _ _ t _ hkey key rfl)
  | .slice s :: rest =>
    rw [writeOn, writeOn]
    refine .view_bind (sees_kind t) ?_
    split
    · exact .view_bind (sees_childCount t) (writeEach_refines config hp _ rest depth _ t)
    · refine .view_bind (sees_isVacant t) ?_
      split
      · exact .pure 0
      · refine .view_bind (sees_kind t) ?_
        split
        · exact .fail _
        · exact .fail _
  | .predicate query :: rest =>
    rw [writeOn, writeOn]
    refine .view_bind (sees_isVacant t) ?_
    split
    · exact .pure 0
    · refine .view_bind (sees_kind t) ?_
      split
      · refine .walk_bind (fun h i S hh => congrArg _ (sees_snapshot t h i S hh)) ?_
        split
        · exact writeAt_refines config hp _ rest depth t
        · exact .pure 0
      · exact .walk_bind (sees_matchingKeys t config query)
          (writeEach_refines config hp _ rest depth _ t)
  | .tag tag :: rest =>
    cases tag using Tag.writable_cases with
    | current =>
      rw [writeOn, writeOn]
      exact writeAt_refines config hp _ rest depth t
    | children =>
      rw [writeOn, writeOn]
      refine .view_bind (sees_isVacant t) ?_
      split
      · exact .pure 0
      · refine .view_bind (sees_kind t) ?_
        split
        · exact .fail _
        · exact .view_bind (sees_childKeys t) (writeEach_refines config hp _ rest depth _ t)
    | descendants =>
      rw [writeOn, writeOn]
      exact writeLeaves_refines t config hp _ _ depth
    | unwritable tag htag =>
      rw [writeOn_unwritable config patch done htag, writeOn_unwritable config patch done htag]
      exact .fail _
  | .union alternatives _ :: rest =>
    rw [writeOn, writeOn]
    exact writeAlternately_refines config hp alternatives rest (depth + 1) t
  | .tuple members :: rest =>
    rw [writeOn, writeOn]
    exact writeAt_refines config hp [] (members ++ rest) (depth + 1) t
termination_by (pathWeight path, 0)

theorem writeBelow_refines (config : Config) {patch : Patch} (hp : patch.WellFormed)
    (done : Path) (s : Segment) (rest : Path) (depth : Nat) (key : ChildKey)
    (t : Json) (hfits : KeyFits key t) :
    RefinesAt t (writeBelow config patch done s rest depth key)
      (writeBelow config patch done s rest depth key) := by
  match rest with
  | [] =>
    rw [writeBelow, writeBelow]
    exact finish_refines t config hp (some key) depth
  | after :: more =>
    rw [writeBelow, writeBelow]
    refine .view_bind
      (fun h i S hh => congrArg Option.isNone (sees_childKind? t key h i S hh)) ?_
    split
    · exact .pure 0
    · refine .bind (reach_refines t hfits _) fun reached _ => ?_
      split
      · exact .inChild (fun t => writeAt_refines config hp _ (after :: more) (depth + 1) t) key _
      · exact .fail _
termination_by (pathWeight rest, 2)

theorem writeEach_refines (config : Config) {patch : Patch} (hp : patch.WellFormed)
    (done rest : Path) (depth : Nat) (keys : List ChildKey) (t : Json) :
    RefinesAt t (writeEach config patch done rest depth keys)
      (writeEach config patch done rest depth keys) := by
  match rest with
  | [] =>
    rw [writeEach, writeEach]
    exact .sum (fun key t => finish_refines t config hp (some key) depth) _ t
  | s :: rest =>
    rw [writeEach, writeEach]
    all_goals first
    | exact .sum (fun key t =>
        .inChild (fun t => writeAt_refines config hp done (s :: rest) (depth + 1) t) key t) keys t
    | simp
termination_by (pathWeight rest, 2)

theorem writeAlternately_refines (config : Config) {patch : Patch} (hp : patch.WellFormed)
    (alternatives : List Path) (rest : Path) (depth : Nat) (t : Json) :
    RefinesAt t (writeAlternately config patch alternatives rest depth)
      (writeAlternately config patch alternatives rest depth) := by
  match alternatives with
  | [] =>
    rw [writeAlternately, writeAlternately]
    exact .pure 0
  | p :: more =>
    rw [writeAlternately, writeAlternately]
    refine .bind (writeAt_refines config hp [] (p.absolute ++ rest) depth t) fun n _ => ?_
    exact .bind (writeAlternately_refines config hp more rest depth _) fun m _ => .pure (n + m)
termination_by (pathsWeight alternatives + pathWeight rest, 0)
decreasing_by
  · have := pathWeight_absolute_le p
    exact Prod.Lex.left _ _ (by simp only [pathsWeight, pathWeight_append]; omega)
  · exact Prod.Lex.left _ _ (by simp only [pathsWeight]; omega)

end

theorem write_refines (config : Config) {patch : Patch} (hp : patch.WellFormed) (path : Path)
    (t : Json) :
    RefinesAt t (write config path patch) (write config path patch) := by
  unfold write
  split
  · exact .fail _
  · exact writeAt_refines config hp [] path.target 0 t

/-- A write leaves the fields of all mappings in order, as only such values are held by cells. -/
theorem write_wellFormed (config : Config) {patch : Patch} (hp : patch.WellFormed) (path : Path)
    {t : Json} (ht : t.WellFormed) :
    ((write config path patch : Write Json Nat) t).tree.WellFormed := by
  obtain ⟨S, hh⟩ := HeapNode.ofJson_holds ht
  obtain ⟨-, -, -, S', hh', -⟩ := write_refines config hp path t _ _ S hh
  exact hh'.wellFormed

end Paths

section Runs

/-- Writes one after the other: for each of them its result, and the value of the tree behind it. -/
def Resolver.writeAll {τ : Type} [TreeAccess τ] [TreeUpdate τ] (t : τ) :
    List (Path × Patch) → StateM Resolver (List (Except PathError Nat × Json))
  | [] => return []
  | (path, patch) :: rest => do
    let (result, t) ← writePath t path patch
    return (result, TreeAccess.toJson t) :: (← writeAll t rest)

/-- The resolver behind a write that has tripped the guard so many times. -/
def Resolver.afterWrite (r : Resolver) (trips : Nat) : Resolver :=
  { r with stats := r.stats.countWrite.countTrips trips }

theorem Resolver.writeAll_cons {τ : Type} [TreeAccess τ] [TreeUpdate τ] (t : τ) (path : Path)
    (patch : Patch) (rest : List (Path × Patch)) (r : Resolver) :
    writeAll t ((path, patch) :: rest) r =
      let o := write r.config path patch t
      let later := writeAll o.tree rest (r.afterWrite o.trips)
      ((o.result, TreeAccess.toJson o.tree) :: later.1, later.2) := rfl

/-- A run of writes on a cell, in step with the run on the value that the cell holds. -/
theorem Holds.writeAll {writes : List (Path × Patch)} (hw : ∀ w ∈ writes, w.2.WellFormed)
    {h : Heap} {t : Json} {i : Nat} {S : Finset Nat} (hh : Holds h t i S) (r : Resolver) :
    Resolver.writeAll (⟨h, i⟩ : HeapNode) writes r = Resolver.writeAll t writes r := by
  induction writes generalizing h t i S r with
  | nil => rfl
  | cons w writes ih =>
    obtain ⟨path, patch⟩ := w
    have hp : patch.WellFormed := hw (path, patch) (by simp)
    have hstep := write_refines r.config hp path t h i S hh
    rw [Resolver.writeAll_cons, Resolver.writeAll_cons]
    cases hn : write r.config path patch (⟨h, i⟩ : HeapNode) with
    | mk result n trips =>
      obtain ⟨h', i'⟩ := n
      rw [hn] at hstep
      obtain ⟨hresult, htrips, hcell, S', hh', -⟩ := hstep
      simp only at hresult htrips hcell hh'
      subst hcell
      have hvalue : TreeAccess.toJson (⟨h', i'⟩ : HeapNode) =
          TreeAccess.toJson (write r.config path patch t).tree := hh'.toJson
      have hlater := ih (fun w hw' => hw w (List.mem_cons_of_mem _ hw')) hh'
        (r.afterWrite (write r.config path patch t).trips)
      simp only [hresult, htrips, hvalue, hlater]

/-- A tree with shared nodes that is made from a value takes all writes as the value itself does:
each gives the same result and leaves the same value, and the resolver counts the same. -/
theorem writeAll_ofJson {v : Json} (hv : v.WellFormed) (writes : List (Path × Patch))
    (hw : ∀ w ∈ writes, w.2.WellFormed) :
    Resolver.writeAll (HeapNode.ofJson v) writes = Resolver.writeAll v writes := by
  obtain ⟨S, hh⟩ := HeapNode.ofJson_holds hv
  funext r
  exact hh.writeAll hw r

theorem writeAll_ofJson_nested :
    let v : Json := .obj [("a", .arr [.null, .obj [("k", .bool true)]]), ("b", .str "x")]
    let writes : List (Path × Patch) :=
      [([.key "a", .index 3, .key "c"], .append (.str "y")),
        ([.key "b", .key "d"], .merge .null),
        ([], .merge (.obj [("a", .null), ("b", .obj [])])),
        ([.union [[.key "a", .index 0], [.key "e"]] true], .remove)]
    Resolver.writeAll (HeapNode.ofJson v) writes = Resolver.writeAll v writes := by
  intro v writes
  have hv : v.WellFormed :=
    ⟨Fields.ascending_pair (by decide) _ _,
      ⟨trivial, ⟨Fields.ascending_single _ _, trivial, trivial⟩, trivial⟩, trivial, trivial⟩
  have hmerged : (Json.obj [("a", .null), ("b", .obj [])]).WellFormed :=
    ⟨Fields.ascending_pair (by decide) _ _, trivial, ⟨.nil, trivial⟩, trivial⟩
  refine writeAll_ofJson hv writes fun w hw => ?_
  simp only [writes, List.mem_cons, List.not_mem_nil, or_false] at hw
  rcases hw with rfl | rfl | rfl | rfl
  · intro w hw
    cases hw
    trivial
  · intro w hw
    cases hw
    trivial
  · intro w hw
    cases hw
    exact hmerged
  · intro w hw
    cases hw

end Runs

end TreePath

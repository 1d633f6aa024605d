import Mathlib
import TreePath.Proofs.Write.Ensures
import TreePath.Proofs.Write.Place
import TreePath.Proofs.Write.Addressing

namespace TreePath

open TreeUpdate Json

/-- No name on the path meets a sequence, as far as the path leads. -/
def KeysAvoidSequences (idField : String) : Path → Json → Prop
  | [], _ => True
  | s :: rest, t =>
    (s.isKey = true → t.kind ≠ .sequence) ∧
      ∀ child, hop? idField s t = some child → KeysAvoidSequences idField rest child

/-- The segment has been entered at `t`, which has become `u` for it: reading finds the child at
`key`, before and after something is put there. -/
structure Entered (idField : String) (s : Segment) (t u : Json) (key : ChildKey) : Prop where
  accepts : u.Accepts key
  fits : KeyFits key u
  wellFormed : u.WellFormed
  before : hop? idField s t = u.child? key
  after : ∀ c, hop? idField s (u.putChild key c) = some c

section Entering

theorem place?_grow {i : Int64} {len k : Nat} (h : place? i len = some k) :
    place? i (max len (k + 1)) = some k := by
  unfold place? at h ⊢
  by_cases hneg : i.toInt < 0
  · simp only [hneg, if_true, Option.ite_none_left_eq_some, Option.some.injEq] at h ⊢
    omega
  · simp only [hneg, if_false, Option.some.injEq] at h ⊢
    exact h

theorem entered_name (idField name : String) {t : Json} {fields : List (String × Json)}
    (ht : t = .obj fields ∨ t = .null ∧ fields = []) (hw : (Json.obj fields).WellFormed) :
    Entered idField (.key name) t (.obj fields) (.name name) := by
  have hhop (fields : List (String × Json)) :
      hop? idField (.key name) (Json.obj fields) = Fields.find? fields name := by
    have hchild : TreeAccess.child? (Json.obj fields) (.name name) = Fields.find? fields name := rfl
    change lookupKey idField name (Json.obj fields) = _
    unfold lookupKey
    rw [hchild]
    cases Fields.find? fields name <;> rfl
  refine ⟨trivial, keyFits_name _ _, hw, ?_, fun c => ?_⟩
  · rcases ht with rfl | ⟨rfl, rfl⟩
    · exact hhop fields
    · rfl
  · exact (hhop _).trans (Fields.find?_insert_self _ _ _)

theorem entered_field (idField : String) (i : Int64) {fields : List (String × Json)}
    (hw : (Json.obj fields).WellFormed) :
    Entered idField (.index i) (.obj fields) (.obj fields) (.name (toString i.toInt)) :=
  ⟨trivial, keyFits_name _ _, hw, rfl, fun _ => Fields.find?_insert_self _ _ _⟩

theorem entered_position (idField : String) {i : Int64} {t : Json} {items : List Json}
    (ht : t = .arr items ∨ t = .null ∧ items = []) (hw : (Json.arr items).WellFormed) {k : Nat}
    (hplace : place? i items.length = some k) :
    Entered idField (.index i) t (.arr items) (.index k) := by
  refine ⟨trivial, ?_, hw, ?_, fun c => ?_⟩
  · intro j hj
    cases hj
    exact place?_lt hplace
  · rcases ht with rfl | ⟨rfl, rfl⟩
    · change (place? i items.length).bind (fun i => items[i]?) = items[k]?
      rw [hplace]
      rfl
    · rfl
  · have hlength : ((padded items (k + 1)).set k c).length = max items.length (k + 1) := by
      simp [padded]
      omega
    change (place? i ((padded items (k + 1)).set k c).length).bind
      (fun i => ((padded items (k + 1)).set k c)[i]?) = some c
    rw [hlength, place?_grow hplace]
    exact List.getElem?_set_self (lt_length_padded items k)

theorem ensureContainer_eq (container : NodeKind) (t : Json) :
    t.ensureContainer container =
      ((orEmpty container (some t)).kind.isContainer, orEmpty container (some t)) := by
  cases t <;> rfl

/-- To enter a node is to find the child in the container that it is, or becomes. -/
theorem enter_eq (config : Config) (done : Path) (s : Segment) (t : Json) :
    (enter config done s false : Write Json (Option ChildKey)) t =
      (if (orEmpty s.container (some t)).kind.isContainer then childKey config done s false
        else Write.fail (.notContainer done (orEmpty s.container (some t)).kind))
        (orEmpty s.container (some t)) := by
  have hstep : (Write.step (TreeUpdate.ensureContainer s.container) : Write Json Bool) t =
      ⟨.ok (orEmpty s.container (some t)).kind.isContainer, orEmpty s.container (some t), 0⟩ := by
    change (⟨.ok (t.ensureContainer s.container).1, (t.ensureContainer s.container).2, 0⟩ :
      Outcome Json Bool) = _
    rw [ensureContainer_eq]
  unfold enter
  rw [Write.view_bind_apply, if_neg (by simp)]
  refine (Write.bind_ok hstep _).trans ?_
  split
  · rfl
  · exact Write.view_bind_apply _ _ _

theorem positionKey_eq (config : Config) (done : Path) (i : Int64) (items : List Json)
    {key : Option ChildKey}
    (hok : ((positionKey config done i false : Write Json _) (.arr items)).result = .ok key) :
    ∃ k, place? i items.length = some k ∧
      (positionKey config done i false : Write Json _) (.arr items) =
        ⟨.ok (some (.index k)), .arr items, 0⟩ := by
  unfold positionKey at hok ⊢
  rw [Write.view_bind_apply] at hok ⊢
  have hcount : childCount (Json.arr items) = items.length := rfl
  rw [hcount] at hok ⊢
  cases hplace : place? i items.length with
  | none =>
    rw [hplace] at hok
    cases hok
  | some k =>
    rw [hplace] at hok
    simp only at hok ⊢
    split at hok
    · cases hok
    · next hgap =>
      rw [if_neg hgap]
      exact ⟨k, rfl, rfl⟩

theorem childKey_arr (config : Config) (done : Path) (i : Int64) (items : List Json) :
    (childKey config done (.index i) false : Write Json (Option ChildKey)) (.arr items) =
      (positionKey config done i false) (.arr items) := by
  unfold childKey
  exact Write.view_bind_apply _ _ _

/-- What a name or a position is entered as, if that is possible. -/
theorem enter_concrete (config : Config) (done : Path) {s : Segment} (hs : s.isConcrete = true)
    {t : Json} (hw : t.WellFormed) (havoid : s.isKey = true → t.kind ≠ .sequence)
    {key : Option ChildKey}
    (hok : ((enter config done s false : Write Json _) t).result = .ok key) :
    ∃ k, (enter config done s false : Write Json _) t =
        ⟨.ok (some k), orEmpty s.container (some t), 0⟩ ∧
      Entered config.idField s t (orEmpty s.container (some t)) k := by
  have hempty : ∀ kind : NodeKind, kind.emptyValue.WellFormed := wellFormed_emptyValue
  rw [enter_eq] at hok ⊢
  rcases Segment.eq_of_isConcrete hs with ⟨name, rfl⟩ | ⟨i, rfl⟩
  · cases t with
    | obj fields => exact ⟨_, rfl, entered_name _ name (.inl rfl) hw⟩
    | null => exact ⟨_, rfl, entered_name _ name (.inr ⟨rfl, rfl⟩) (hempty .mapping)⟩
    | arr items => exact absurd rfl (havoid rfl)
    | bool | num | str => cases hok
  · have hsequence : ∀ items : List Json, t = .arr items ∨ t = .null ∧ items = [] →
        (Json.arr items).WellFormed →
        ((childKey config done (.index i) false : Write Json (Option ChildKey))
          (.arr items)).result = .ok key →
        ∃ k, (childKey config done (.index i) false : Write Json (Option ChildKey)) (.arr items) =
            ⟨.ok (some k), .arr items, 0⟩ ∧
          Entered config.idField (.index i) t (.arr items) k := by
      intro items ht hw hok
      rw [childKey_arr] at hok ⊢
      obtain ⟨k, hplace, hrun⟩ := positionKey_eq config done i items hok
      exact ⟨.index k, hrun, entered_position _ ht hw hplace⟩
    cases t with
    | obj fields => exact ⟨_, rfl, entered_field _ i hw⟩
    | null => exact hsequence [] (.inr ⟨rfl, rfl⟩) trivial hok
    | arr items => exact hsequence items (.inl rfl) hw hok
    | bool | num | str => cases hok

end Entering

section Reaching

/-- A child that is reached is what was there, or an empty container in its place. -/
theorem reach_eq {u : Json} (hw : u.WellFormed) {key : ChildKey} (haccepts : u.Accepts key)
    (hfits : KeyFits key u) (container : NodeKind) :
    (reach key container : Write Json Bool) u =
      ⟨.ok true, u.putChild key (orEmpty container (u.child? key)), 0⟩ := by
  unfold reach
  rw [Write.view_bind_apply]
  split
  · next hfound =>
    obtain ⟨v, hv, hnull⟩ : ∃ v, u.child? key = some v ∧ orEmpty container (some v) = v := by
      change (((u.child? key).bind present?).map kind).isSome = true at hfound
      cases hv : u.child? key with
      | none => simp [hv] at hfound
      | some v =>
        refine ⟨v, rfl, ?_⟩
        cases v with
        | null => simp [hv, present?, isNull] at hfound
        | bool | num | str | arr | obj => rfl
    rw [hv, hnull, putChild_child? hw hv]
    rfl
  · change (⟨.ok (u.ensureChild key container).1, (u.ensureChild key container).2, 0⟩ :
      Outcome Json Bool) = _
    cases u with
    | obj fields => cases key <;> rfl
    | arr items =>
      cases key with
      | name n => exact absurd haccepts id
      | index k =>
        rw [Json.ensureChild, if_pos hfits.room]
        rfl
    | null | bool | num | str => exact absurd haccepts id

/-- Going on below a child is to write into what is reached there. -/
theorem writeBelow_eq (config : Config) {patch : Patch} (hremoval : patch.isRemoval = false)
    (done : Path) (s after : Segment) (more : Path) (depth : Nat) {u : Json} (hw : u.WellFormed)
    {key : ChildKey} (haccepts : u.Accepts key) (hfits : KeyFits key u) :
    (writeBelow config patch done s (after :: more) depth key : Write Json Nat) u =
      let o := (writeAt config patch (done.append s) (after :: more) (depth + 1) : Write Json Nat)
        (orEmpty after.container (u.child? key))
      ⟨o.result, u.putChild key o.tree, o.trips⟩ := by
  rw [writeBelow, Write.view_bind_apply, hremoval, if_neg (by simp)]
  refine (Write.bind_ok (reach_eq hw haccepts hfits _) _).trans ?_
  have hinside := inChild_eq
    (writeAt config patch (done.append s) (after :: more) (depth + 1) : Write Json Nat)
    (child?_putChild haccepts (orEmpty after.container (u.child? key)))
  rw [putChild_putChild haccepts] at hinside
  exact hinside

end Reaching

section Paths

/-- Where the depth limit leaves room for the value, it is combined with what is there. -/
theorem finish_value (config : Config) {patch : Patch} {v : Json} (hvalue : patch.value = some v)
    (hv : v.WellFormed) (key : Option ChildKey) {depth : Nat}
    (hdepth : depth + v.objectLevels ≤ config.maxDepth) {t : Json} (hw : t.WellFormed)
    (hkey : t.AcceptsAt key) :
    ∃ n trips, (finish config patch key depth : Write Json Nat) t =
      ⟨.ok n, t.putAt key (combine (t.at? key) v patch.policy patch.idempotent), trips⟩ := by
  have hlevels : v.objectLevels ≤ config.maxDepth - depth := by omega
  have hcombined := combinedTo_eq patch.idempotent v hlevels patch.policy (t.at? key)
  obtain ⟨n, trips, hrun, -⟩ := finish_eq config hvalue hv key depth hw hkey hcombined
  exact ⟨n, trips, hrun⟩

/-- From null or from an empty container, which a missing place becomes, nothing is reached. -/
theorem reached?_missing (idField : String) {s : Segment} (hs : s.isConcrete = true) (rest : Path)
    {t : Json} (ht : t = .null ∨ t = s.container.emptyValue) :
    reached? idField (s :: rest) t = none := by
  have hhop : hop? idField s t = none := by
    rcases Segment.eq_of_isConcrete hs with ⟨name, rfl⟩ | ⟨i, rfl⟩
    · rcases ht with rfl | rfl <;> rfl
    · rcases ht with rfl | rfl
      · rfl
      · change (place? i 0).bind (fun i => ([] : List Json)[i]?) = none
        cases place? i 0 <;> rfl
  rw [reached?, hhop]
  rfl

theorem avoid_missing (idField : String) {s : Segment} (hs : s.isConcrete = true) (rest : Path) :
    KeysAvoidSequences idField (s :: rest) s.container.emptyValue := by
  refine ⟨?_, fun child hchild => ?_⟩
  · rcases Segment.eq_of_isConcrete hs with ⟨name, rfl⟩ | ⟨i, rfl⟩
    · intro _
      change NodeKind.mapping ≠ .sequence
      decide
    · simp [Segment.isKey]
  · have hnone := reached?_missing idField hs [] (.inr rfl)
    rw [reached?, hchild] at hnone
    simp [reached?] at hnone

/-- An empty container in the place of a missing child leads on to nothing, as the missing child
itself does. -/
theorem reached?_filled (idField : String) {s : Segment} (hs : s.isConcrete = true) (rest : Path)
    (child : Option Json) : reached? idField (s :: rest) (orEmpty s.container child) =
      child.bind (reached? idField (s :: rest)) := by
  cases child with
  | none => exact reached?_missing idField hs rest (.inr rfl)
  | some v =>
    cases v with
    | null =>
      exact (reached?_missing idField hs rest (.inr rfl)).trans
        (reached?_missing idField hs rest (.inl rfl)).symm
    | bool | num | str | arr | obj => rfl

theorem avoid_filled (idField : String) {s : Segment} (hs : s.isConcrete = true) (rest : Path)
    {child : Option Json} (h : ∀ v, child = some v → KeysAvoidSequences idField (s :: rest) v) :
    KeysAvoidSequences idField (s :: rest) (orEmpty s.container child) := by
  cases child with
  | none => exact avoid_missing idField hs rest
  | some v =>
    cases v with
    | null => exact avoid_missing idField hs rest
    | bool | num | str | arr | obj => exact h _ rfl

theorem wellFormed_filled (container : NodeKind) {child : Option Json}
    (h : ∀ v, child = some v → v.WellFormed) : (orEmpty container child).WellFormed := by
  cases child with
  | none => exact wellFormed_emptyValue container
  | some v =>
    cases v with
    | null => exact wellFormed_emptyValue container
    | bool | num | str | arr | obj => exact h _ rfl

theorem wellFormed_filled_self (container : NodeKind) {t : Json} (ht : t.WellFormed) :
    (orEmpty container (some t)).WellFormed :=
  wellFormed_filled container fun _ hv => Option.some.inj hv ▸ ht

theorem wellFormed_filled_child (container : NodeKind) {t : Json} (ht : t.WellFormed)
    (key : ChildKey) : (orEmpty container (t.child? key)).WellFormed :=
  wellFormed_filled container fun _ hv => wellFormed_child? ht hv

/-- Behind a successful write, the path leads to the combined value. -/
theorem writeAt_reached (config : Config) {patch : Patch} {v : Json} (hvalue : patch.value = some v)
    (hv : v.WellFormed) {p : Path} (hp : p.IsConcrete) (done : Path) {depth : Nat} {t : Json}
    (hw : t.WellFormed) (havoid : KeysAvoidSequences config.idField p t)
    (hdepth : depth + p.length + v.objectLevels ≤ config.maxDepth) {n : Nat}
    (hok : ((writeAt config patch done p depth : Write Json Nat) t).result = .ok n) :
    reached? config.idField p ((writeAt config patch done p depth : Write Json Nat) t).tree =
      some (combine (reached? config.idField p t) v patch.policy patch.idempotent) := by
  induction p generalizing done depth t with
  | nil =>
    obtain ⟨m, trips, hfinish⟩ := finish_value config hvalue hv none
      (by simpa using hdepth) hw (by simp [AcceptsAt])
    rw [writeAt, if_neg (by omega), writeOn, hfinish]
    rfl
  | cons s rest ih =>
    have hremoval : patch.isRemoval = false := by simp [Patch.isRemoval, hvalue]
    have hlength : (s :: rest).length = rest.length + 1 := rfl
    rw [writeAt, if_neg (by omega), writeOn_concrete config patch done hp.head, hremoval] at hok ⊢
    have henter : ∃ key,
        ((enter config done s false : Write Json (Option ChildKey)) t).result = .ok key := by
      cases hresult : ((enter config done s false : Write Json (Option ChildKey)) t).result with
      | ok key => exact ⟨key, rfl⟩
      | error e =>
        rw [Write.bind_error hresult] at hok
        cases hok
    obtain ⟨key, hentered⟩ := henter
    obtain ⟨k, hrun, hin⟩ := enter_concrete config done hp.head hw havoid.1 hentered
    have hbefore := hin.before
    rw [Write.bind_ok hrun] at hok ⊢
    simp only at hok ⊢
    cases rest with
    | nil =>
      have hend : depth + v.objectLevels ≤ config.maxDepth := by omega
      obtain ⟨m, trips, hfinish⟩ := finish_value config hvalue hv (some k) hend hin.wellFormed
        (acceptsAt_some hin.accepts)
      rw [writeBelow, hfinish, reached?, reached?, hbefore]
      change (hop? config.idField s (Json.putChild _ k _)).bind _ = _
      rw [hin.after, Option.bind_some]
      change some _ = some (combine (((orEmpty s.container (some t)).child? k).bind some) v _ _)
      rw [Option.bind_fun_some]
      rfl
    | cons after more =>
      have hafter : after.isConcrete = true := hp.tail.head
      have hc : (orEmpty after.container ((orEmpty s.container (some t)).child? k)).WellFormed :=
        wellFormed_filled_child after.container hin.wellFormed k
      have hon : KeysAvoidSequences config.idField (after :: more)
          (orEmpty after.container ((orEmpty s.container (some t)).child? k)) :=
        avoid_filled config.idField hafter more fun w hw' => havoid.2 w (hbefore.trans hw')
      rw [writeBelow_eq config hremoval done s after more depth hin.wellFormed hin.accepts hin.fits]
        at hok ⊢
      have hinside := ih hp.tail (done.append s) hc hon (by omega) hok
      rw [reached?, hin.after, Option.bind_some, hinside, reached?_filled config.idField hafter,
        reached?, hbefore]

end Paths

section Resolving

/-- Nothing and null give way to every value, under every policy. -/
theorem combine_missing {old : Option Json} (h : old.getD .null = .null) (v : Json)
    (policy : MergePolicy) (idempotent : Bool) : combine old v policy idempotent = v := by
  have hnone : combine none v policy idempotent = v := by
    cases policy <;> simp [combine, merged]
  cases old with
  | none => exact hnone
  | some w =>
    have hw : w = .null := h
    rw [hw, combine_null, hnone]

/-- Read after write: when a value has been written at a path of names and positions, the path leads
to the combination of that value with what was found there before. Where nothing or null was found,
that is the value itself. -/
theorem find_writePath {t v : Json} (ht : t.WellFormed) (hv : v.WellFormed) {p : Path}
    (hp : p.IsConcrete) (policy : MergePolicy) (idempotent : Bool) (r : Resolver)
    (hdepth : p.length + v.objectLevels ≤ r.config.maxDepth)
    (havoid : KeysAvoidSequences r.config.idField p t)
    {n : Nat} {t' : Json} {r' : Resolver}
    (hwrite : Resolver.writePath t p ⟨some v, policy, idempotent⟩ r = ((.ok n, t'), r')) :
    ∃ old, (Resolver.find t (.path p) r).1 = .ok old ∧
      (Resolver.find t' (.path p) r').1 = .ok (some (combine old v policy idempotent)) ∧
      (old.getD .null = .null → combine old v policy idempotent = v) := by
  have hrun : Resolver.writePath t p ⟨some v, policy, idempotent⟩ r =
      let o := (writeAt r.config ⟨some v, policy, idempotent⟩ [] p 0 : Write Json Nat) t
      ((o.result, o.tree), { r with stats := r.stats.countWrite.countTrips o.trips }) := by
    rw [← hp.selectsChildren.write_eq]
    rfl
  rw [hrun] at hwrite
  obtain ⟨hwritten, rfl⟩ := Prod.mk.inj hwrite
  obtain ⟨hok, rfl⟩ := Prod.mk.inj hwritten
  have hreached := writeAt_reached r.config rfl hv hp [] ht havoid (by simpa using hdepth) hok
  refine ⟨reached? r.config.idField p t, ?_, ?_, fun h => combine_missing h v policy idempotent⟩
  · rw [find_concrete t hp r]
    cases reached? r.config.idField p t <;> rfl
  · rw [find_concrete _ hp]
    change Except.ok (Option.map _ (reached? r.config.idField p _)) = _
    rw [hreached]
    rfl

theorem find_writePath_nested :
    let t : Json := .obj [("a", .arr [.obj [("x", .bool true)], .null])]
    let v : Json := .obj [("x", .obj [("y", .null)]), ("z", .arr [])]
    let p : Path := [.key "a", .index 0]
    let r : Resolver := .new .default
    ∃ t' r', Resolver.writePath t p ⟨some v, .merge, false⟩ r = ((.ok 2, t'), r') ∧
      ∃ old, (Resolver.find t (.path p) r).1 = .ok old ∧
        (Resolver.find t' (.path p) r').1 = .ok (some (combine old v .merge false)) ∧
        (old.getD .null = .null → combine old v .merge false = v) := by
  intro t v p r
  have ht : t.WellFormed :=
    ⟨Fields.ascending_single _ _, ⟨⟨Fields.ascending_single _ _, trivial, trivial⟩, trivial,
      trivial⟩, trivial⟩
  have hv : v.WellFormed :=
    ⟨Fields.ascending_pair (by decide) _ _, ⟨Fields.ascending_single _ _, trivial, trivial⟩,
      trivial, trivial⟩
  have hp : p.IsConcrete := by
    intro s hs
    simp only [p, List.mem_cons, List.not_mem_nil, or_false] at hs
    rcases hs with rfl | rfl <;> rfl
  have havoid : KeysAvoidSequences r.config.idField p t := by
    refine ⟨fun _ => ?_, fun child hchild => ⟨?_, fun _ _ => trivial⟩⟩
    · change NodeKind.mapping ≠ .sequence
      decide
    · intro h
      cases h
  have hok : (Resolver.writePath t p ⟨some v, .merge, false⟩ r).1.1 = .ok 2 := by cbv
  have hrun : Resolver.writePath t p ⟨some v, .merge, false⟩ r =
      ((.ok 2, (Resolver.writePath t p ⟨some v, .merge, false⟩ r).1.2),
        (Resolver.writePath t p ⟨some v, .merge, false⟩ r).2) := by
    rw [← hok]
    rfl
  exact ⟨_, _, hrun, find_writePath ht hv hp .merge false r (by decide) havoid hrun⟩

end Resolving

end TreePath

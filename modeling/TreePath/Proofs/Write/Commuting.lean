import TreePath.Proofs.Write.HeapWrites
import TreePath.Proofs.Write.Names

namespace TreePath

open TreeUpdate Json

section Steps

/-- When `f` and then `g` succeed at a value, so do `g` and then `f`, with the same answers, and
what they leave is the same. -/
def Commute {α β γ : Type} (f : α → Option (β × α)) (g : α → Option (γ × α)) (a : α) : Prop :=
  ∀ n b m c, f a = some (n, b) → g b = some (m, c) →
    ∃ d, g a = some (m, d) ∧ f d = some (n, c)

variable {f g : Option Json → Option (Nat × Option Json)} {fields : List (String × Json)}
  {name other : String}

theorem inField_eq_some {n : Nat} {made : List (String × Json)} :
    inField f name fields = some (n, made) ↔
      ∃ new, f (Fields.find? fields name) = some (n, new) ∧
        made = Fields.alter fields name new := by
  rw [inField, Option.map_eq_some_iff]
  constructor
  · rintro ⟨⟨k, new⟩, hf, heq⟩
    obtain ⟨rfl, rfl⟩ := Prod.mk.inj heq
    exact ⟨new, hf, rfl⟩
  · rintro ⟨new, hf, rfl⟩
    exact ⟨(n, new), hf, rfl⟩

/-- Steps at different fields. -/
theorem inField_commute_of_ne (h : Fields.Ascending fields) (hne : name ≠ other) :
    Commute (inField f name) (inField g other) fields := by
  intro n made m last hfirst hlast
  obtain ⟨a, hf, rfl⟩ := inField_eq_some.mp hfirst
  obtain ⟨b, hg, rfl⟩ := inField_eq_some.mp hlast
  rw [Fields.find?_alter_of_ne hne.symm] at hg
  refine ⟨Fields.alter fields other b, inField_eq_some.mpr ⟨b, hg, rfl⟩, ?_⟩
  refine inField_eq_some.mpr ⟨a, ?_, Fields.alter_comm h hne a b⟩
  rw [Fields.find?_alter_of_ne hne]
  exact hf

/-- Steps at one field. -/
theorem inField_commute (h : Fields.Ascending fields)
    (hcommute : Commute f g (Fields.find? fields name)) :
    Commute (inField f name) (inField g name) fields := by
  intro n made m last hfirst hlast
  obtain ⟨a, hf, rfl⟩ := inField_eq_some.mp hfirst
  obtain ⟨b, hg, rfl⟩ := inField_eq_some.mp hlast
  rw [Fields.find?_alter_self h] at hg
  obtain ⟨d, hg', hf'⟩ := hcommute n a m b hf hg
  refine ⟨Fields.alter fields name d, inField_eq_some.mpr ⟨d, hg', rfl⟩, ?_⟩
  refine inField_eq_some.mpr ⟨b, ?_, ?_⟩
  · rw [Fields.find?_alter_self h]
    exact hf'
  · rw [Fields.alter_alter h, Fields.alter_alter h]

theorem inMapping_eq_some {n : Nat} {made : Option Json} :
    inMapping f name fields = some (n, made) ↔
      ∃ others, inField f name fields = some (n, others) ∧ made = some (.obj others) := by
  rw [inMapping, Option.map_eq_some_iff]
  constructor
  · rintro ⟨⟨k, others⟩, hf, heq⟩
    obtain ⟨rfl, rfl⟩ := Prod.mk.inj heq
    exact ⟨others, hf, rfl⟩
  · rintro ⟨others, hf, rfl⟩
    exact ⟨(n, others), hf, rfl⟩

end Steps

section Names

variable (config : Config) {P Q : Patch} {i j : Nat}

theorem inField_nil (hremoval : P.isRemoval = true) (name : String) (rest : List String) :
    inField (along config P i rest) name [] = some (0, []) :=
  inField_eq_some.mpr ⟨none, along_none config hremoval rest, rfl⟩

theorem wellFormed_getD {old : Option Json} (hold : ∀ v, old = some v → v.WellFormed) :
    (old.getD .null).WellFormed := by
  cases old with
  | none => trivial
  | some v => exact hold v rfl

/-- One list of names goes on where the other one has parted from it. -/
theorem along_commute {p q : List String} (hpq : ¬p <+: q) (hqp : ¬q <+: p) {old : Option Json}
    (hold : ∀ v, old = some v → v.WellFormed) :
    Commute (along config P i p) (along config Q j q) old := by
  induction p generalizing q old with
  | nil => exact absurd List.nil_prefix hpq
  | cons a p ih =>
    cases q with
    | nil => exact absurd List.nil_prefix hqp
    | cons b q =>
      have hfields : ∀ fields : List (String × Json), (Json.obj fields).WellFormed →
          Commute (inField (along config P i p) a) (inField (along config Q j q) b) fields := by
        intro fields hw
        by_cases hab : a = b
        · subst hab
          rw [List.cons_prefix_cons, not_and] at hpq hqp
          refine inField_commute hw.1 (ih (hpq rfl) (hqp rfl) fun v hv => ?_)
          exact wellFormed_of_find? hw.2 hv
        · exact inField_commute_of_ne hw.1 hab
      have hmapping : ∀ fields : List (String × Json), (Json.obj fields).WellFormed →
          ∀ n x m y, inMapping (along config P i p) a fields = some (n, x) →
            along config Q j (b :: q) x = some (m, y) →
            ∃ d, inMapping (along config Q j q) b fields = some (m, d) ∧
              along config P i (a :: p) d = some (n, y) := by
        intro fields hw n x m y hfirst hlast
        obtain ⟨F, hF, rfl⟩ := inMapping_eq_some.mp hfirst
        rw [along_obj config rfl] at hlast
        obtain ⟨L, hL, rfl⟩ := inMapping_eq_some.mp hlast
        obtain ⟨G, hG, hGL⟩ := hfields fields hw n F m L hF hL
        refine ⟨some (.obj G), inMapping_eq_some.mpr ⟨G, hG, rfl⟩, ?_⟩
        rw [along_obj config rfl]
        exact inMapping_eq_some.mpr ⟨L, hGL, rfl⟩
      have hempty : (Json.obj []).WellFormed := wellFormed_emptyValue .mapping
      intro n x m y hfirst hlast
      cases hvalue : old.getD .null with
      | obj fields =>
        have hw : (Json.obj fields).WellFormed := hvalue ▸ wellFormed_getD hold
        rw [along_obj config hvalue] at hfirst ⊢
        exact hmapping fields hw n x m y hfirst hlast
      | null =>
        cases hP : P.isRemoval with
        | false =>
          rw [along_null config hvalue hP] at hfirst
          obtain ⟨d, hd, hdy⟩ := hmapping [] hempty n x m y hfirst hlast
          cases hQ : Q.isRemoval with
          | false =>
            rw [along_null config hvalue hQ]
            exact ⟨d, hd, hdy⟩
          | true =>
            -- The removal finds nothing in the mapping that the other write has made.
            rw [inMapping, inField_nil config hQ] at hd
            obtain ⟨rfl, rfl⟩ := Prod.mk.inj (Option.some.inj hd)
            rw [along_obj config rfl] at hdy
            refine ⟨old, along_null_removal config hvalue hQ, ?_⟩
            rw [along_null config hvalue hP]
            exact hdy
        | true =>
          rw [along_null_removal config hvalue hP] at hfirst
          obtain ⟨rfl, rfl⟩ := Prod.mk.inj (Option.some.inj hfirst)
          cases hQ : Q.isRemoval with
          | false =>
            -- The removal would also have found nothing in an empty mapping.
            rw [along_null config hvalue hQ] at hlast ⊢
            refine hmapping [] hempty 0 (some (.obj [])) m y ?_ ?_
            · rw [inMapping, inField_nil config hP]
              rfl
            · rw [along_obj config rfl]
              exact hlast
          | true =>
            rw [along_null_removal config hvalue hQ] at hlast ⊢
            obtain ⟨rfl, rfl⟩ := Prod.mk.inj (Option.some.inj hlast)
            exact ⟨old, rfl, along_null_removal config hvalue hP⟩
      | arr items | bool b | num x | str s =>
        simp [along, hvalue] at hfirst

/-- Below a name that does not meet a sequence, no other one does. -/
theorem avoid_name (idField name : String) (rest : List String) (t : Json) :
    KeysAvoidSequences idField ((name :: rest).map .key) t ↔
      t.kind ≠ .sequence ∧ ∀ c, t.child? (.name name) = some c →
        KeysAvoidSequences idField (rest.map .key) c := by
  have hhop : t.kind ≠ .sequence → hop? idField (.key name) t = t.child? (.name name) := by
    intro hkind
    have hsequence : ¬TreeAccess.kind t = .sequence := hkind
    have hchild : TreeAccess.child? t (.name name) = t.child? (.name name) := rfl
    change lookupKey idField name t = _
    rw [lookupKey, hchild]
    cases t.child? (.name name) with
    | some c => rfl
    | none => simp [hsequence]
  constructor
  · rintro ⟨hkind, hchild⟩
    exact ⟨hkind rfl, fun c hc => hchild c ((hhop (hkind rfl)).trans hc)⟩
  · rintro ⟨hkind, hchild⟩
    exact ⟨fun _ => hkind, fun c hc => hchild c ((hhop hkind).symm.trans hc)⟩

theorem avoid_null (idField : String) (names : List String) :
    KeysAvoidSequences idField (names.map .key) .null := by
  cases names with
  | nil => trivial
  | cons name rest =>
    refine (avoid_name idField name rest .null).mpr ⟨?_, fun c hc => ?_⟩
    · exact NodeKind.noConfusion
    · cases hc

/-- A write does not put a sequence in the way of names that part from its own. -/
theorem along_avoids {idField : String} {p q : List String} (hpq : ¬p <+: q) (hqp : ¬q <+: p)
    {old : Option Json} (hold : ∀ v, old = some v → v.WellFormed) {n : Nat} {new : Option Json}
    (h : along config P i p old = some (n, new))
    (havoid : KeysAvoidSequences idField (q.map .key) (old.getD .null)) :
    KeysAvoidSequences idField (q.map .key) (new.getD .null) := by
  induction p generalizing q old n new with
  | nil => exact absurd List.nil_prefix hpq
  | cons a p ih =>
    cases q with
    | nil => exact absurd List.nil_prefix hqp
    | cons b q =>
      have hfields : ∀ fields : List (String × Json), (Json.obj fields).WellFormed →
          (∀ c, Fields.find? fields b = some c → KeysAvoidSequences idField (q.map .key) c) →
          inMapping (along config P i p) a fields = some (n, new) →
          KeysAvoidSequences idField ((b :: q).map .key) (new.getD .null) := by
        intro fields hw hchild hmade
        obtain ⟨others, hothers, rfl⟩ := inMapping_eq_some.mp hmade
        obtain ⟨v, hv, rfl⟩ := inField_eq_some.mp hothers
        refine (avoid_name idField b q _).mpr ⟨NodeKind.noConfusion, fun c hc => ?_⟩
        change Fields.find? (Fields.alter fields a v) b = some c at hc
        by_cases hab : a = b
        · subst hab
          rw [List.cons_prefix_cons, not_and] at hpq hqp
          rw [Fields.find?_alter_self hw.1] at hc
          subst hc
          refine ih (hpq rfl) (hqp rfl) (fun c hc => wellFormed_of_find? hw.2 hc) hv ?_
          cases hfind : Fields.find? fields a with
          | none => exact avoid_null idField q
          | some c => exact hchild c hfind
        · rw [Fields.find?_alter_of_ne fun he => hab he.symm] at hc
          exact hchild c hc
      cases hvalue : old.getD .null with
      | obj fields =>
        have hw : (Json.obj fields).WellFormed := hvalue ▸ wellFormed_getD hold
        rw [along_obj config hvalue] at h
        rw [hvalue] at havoid
        exact hfields fields hw ((avoid_name idField b q _).mp havoid).2 h
      | null =>
        cases hP : P.isRemoval with
        | false =>
          rw [along_null config hvalue hP] at h
          exact hfields [] (wellFormed_emptyValue .mapping) (fun c hc => nomatch hc) h
        | true =>
          rw [along_null_removal config hvalue hP] at h
          obtain ⟨rfl, rfl⟩ := Prod.mk.inj (Option.some.inj h)
          exact havoid
      | arr items | bool b | num x | str s =>
        simp [along, hvalue] at h

end Names

section Writing

variable {config : Config} {P Q : Patch} {t : Json}

theorem Path.exists_names {p : Path} (hp : ∀ s ∈ p, s.isKey = true) :
    ∃ names : List String, p = names.map .key := by
  induction p with
  | nil => exact ⟨[], rfl⟩
  | cons s rest ih =>
    obtain ⟨names, rfl⟩ := ih fun r hr => hp r (List.mem_cons_of_mem _ hr)
    cases s with
    | key name => exact ⟨name :: names, rfl⟩
    | index | slice | predicate | tag | union | tuple => cases hp _ List.mem_cons_self

/-- A whole write along names. -/
theorem write_names {names : List String} (hne : names ≠ [])
    (hdepth : names.length ≤ config.maxDepth) (ht : t.WellFormed)
    (havoid : KeysAvoidSequences config.idField (names.map .key) t) :
    ((write config (names.map .key) P : Write Json Nat) t).left? =
      along config P (names.length - 1) names (some t) := by
  have hselects : Path.SelectsChildren (names.map .key) := by
    intro s hs
    obtain ⟨name, -, rfl⟩ := List.mem_map.mp hs
    rfl
  obtain ⟨name, rest, rfl⟩ := List.exists_cons_of_ne_nil hne
  rw [List.length_cons] at hdepth
  rw [hselects.write_eq, List.length_cons, Nat.add_sub_cancel]
  refine writeAt_name config [] (Nat.zero_le _) ht havoid fun fields hw hchild => ?_
  exact writeBelow_names config [] name rest (Nat.zero_add _) (by omega) hw hchild

theorem Outcome.left?_eq_some {o : Outcome Json Nat} {n : Nat} {new : Option Json} :
    o.left? = some (n, new) ↔ o.result = .ok n ∧ new = some o.tree := by
  rcases o with ⟨result, tree, trips⟩
  cases result <;> simp [Outcome.left?, Except.toOption, eq_comm]

theorem Outcome.eq_of_parts {o : Outcome Json Nat} {r : Except PathError Nat} {v : Json}
    (hresult : o.result = r) (htree : o.tree = v) : o = ⟨r, v, o.trips⟩ := by
  subst hresult htree
  rfl

/-- Writes to places that lie apart commute. When a patch has been written along one path of names
and another patch along a path of names that parts from it, the two writes succeed the other way
round as well, with the same counts, and the tree is the same in the end. The part of the paths that
they share may be missing; the first write that needs it makes it then, and a removal does not. -/
theorem write_commutes (hP : P.WellFormed) (hQ : Q.WellFormed) (ht : t.WellFormed) {p q : Path}
    (hp : ∀ s ∈ p, s.isKey = true) (hq : ∀ s ∈ q, s.isKey = true) (hpq : ¬p <+: q) (hqp : ¬q <+: p)
    (hpdepth : p.length ≤ config.maxDepth) (hqdepth : q.length ≤ config.maxDepth)
    (hpavoid : KeysAvoidSequences config.idField p t)
    (hqavoid : KeysAvoidSequences config.idField q t) {n m : Nat} {u v : Json} {i j : Nat}
    (hfirst : (write config p P : Write Json Nat) t = ⟨.ok n, u, i⟩)
    (hlast : (write config q Q : Write Json Nat) u = ⟨.ok m, v, j⟩) :
    ∃ w k l, (write config q Q : Write Json Nat) t = ⟨.ok m, w, k⟩ ∧
      (write config p P : Write Json Nat) w = ⟨.ok n, v, l⟩ := by
  obtain ⟨names, rfl⟩ := Path.exists_names hp
  obtain ⟨others, rfl⟩ := Path.exists_names hq
  rw [List.length_map] at hpdepth hqdepth
  have hparts : ¬names <+: others := fun h => hpq (h.map _)
  have hparts' : ¬others <+: names := fun h => hqp (h.map _)
  have hne : names ≠ [] := fun h => hparts (h ▸ List.nil_prefix)
  have hne' : others ≠ [] := fun h => hparts' (h ▸ List.nil_prefix)
  have hold : ∀ c, some t = some c → c.WellFormed := fun c hc => Option.some.inj hc ▸ ht
  have hu : u.WellFormed := by
    have hleft := write_wellFormed config hP (names.map .key) ht
    rwa [hfirst] at hleft
  have hpalong := write_names (P := P) hne hpdepth ht hpavoid
  rw [hfirst] at hpalong
  have hqu := along_avoids config hparts hparts' hold hpalong.symm hqavoid
  have hqalong := write_names (P := Q) hne' hqdepth hu hqu
  rw [hlast] at hqalong
  obtain ⟨d, hd, hdv⟩ := along_commute config hparts hparts' hold n _ m _ hpalong.symm hqalong.symm
  have hpd := along_avoids config hparts' hparts hold hd hpavoid
  rw [← write_names hne' hqdepth ht hqavoid] at hd
  obtain ⟨hcount, rfl⟩ := Outcome.left?_eq_some.mp hd
  have hw := write_wellFormed config hQ (others.map .key) ht
  rw [← write_names hne hpdepth hw hpd] at hdv
  obtain ⟨hcount', hv⟩ := Outcome.left?_eq_some.mp hdv
  exact ⟨_, _, _, Outcome.eq_of_parts hcount rfl,
    Outcome.eq_of_parts hcount' (Option.some.inj hv).symm⟩

/-- The mapping that both paths lead through is made by the write that comes first. -/
theorem write_commutes_missing :
    let p : Path := [.key "a", .key "b"]
    let q : Path := [.key "a", .key "c", .key "d"]
    let c : Json := .obj [("d", .str "w")]
    let u : Json := .obj [("a", .obj [("b", .str "v")])]
    let v : Json := .obj [("a", .obj [("b", .str "v"), ("c", c)])]
    (write .default p (.overwrite (.str "v")) : Write Json Nat) (.obj []) = ⟨.ok 1, u, 0⟩ ∧
      (write .default q (.merge (.str "w")) : Write Json Nat) u = ⟨.ok 1, v, 0⟩ ∧
      ∃ w k l, (write .default q (.merge (.str "w")) : Write Json Nat) (.obj []) = ⟨.ok 1, w, k⟩ ∧
        (write .default p (.overwrite (.str "v")) : Write Json Nat) w = ⟨.ok 1, v, l⟩ := by
  intro p q c u v
  have ht : (Json.obj []).WellFormed := wellFormed_emptyValue .mapping
  have hvalue : ∀ w policy, (Patch.ofValue (.str w) policy).WellFormed := by
    intro w policy x hx
    cases hx
    trivial
  have havoid : ∀ names : List String, KeysAvoidSequences Config.default.idField
      (names.map .key) (.obj []) := by
    intro names
    cases names with
    | nil => trivial
    | cons name rest =>
      exact (avoid_name _ name rest _).mpr ⟨NodeKind.noConfusion, fun c hc => nomatch hc⟩
  have hfirst : (write .default p (.overwrite (.str "v")) : Write Json Nat) (.obj []) =
      ⟨.ok 1, u, 0⟩ := by cbv
  have hlast : (write .default q (.merge (.str "w")) : Write Json Nat) u = ⟨.ok 1, v, 0⟩ := by cbv
  have hpq : ¬p <+: q := by simp [p, q]
  have hqp : ¬q <+: p := by simp [p, q]
  have hothers := write_commutes (hvalue "v" _) (hvalue "w" _) ht (by decide) (by decide) hpq hqp
    (by decide) (by decide) (havoid ["a", "b"]) (havoid ["a", "c", "d"]) hfirst hlast
  exact ⟨hfirst, hlast, hothers⟩

end Writing

end TreePath

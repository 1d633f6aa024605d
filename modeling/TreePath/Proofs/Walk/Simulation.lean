import TreePath.Proofs.Walk.Head
import TreePath.Proofs.Walk.Matching
import TreePath.Proofs.Walk.Upward
import TreePath.Resolver.Basic

namespace TreePath

open TreeAccess

variable {ν μ : Type} [TreeAccess ν] [TreeAccess μ] {R : ν → μ → Prop}
  {Same : Identity → Identity → Prop}

/-- The way up is either known on both sides, or not asked for. -/
def Allows (R : ν → μ → Prop) (Same : Identity → Identity → Prop) (upward : Bool) : Prop :=
  Climbing R Same ∨ upward = false

theorem Allows.or {a b : Bool} (h : Allows R Same (a || b)) :
    Allows R Same a ∧ Allows R Same b := by
  rcases h with h | h
  · exact ⟨.inl h, .inl h⟩
  · rw [Bool.or_eq_false_iff] at h
    exact ⟨.inr h.1, .inr h.2⟩

theorem Allows.append {p q : Path} (hp : Allows R Same (pathUpward p))
    (hq : Allows R Same (pathUpward q)) : Allows R Same (pathUpward (p ++ q)) := by
  rcases hp with hp | hp
  · exact .inl hp
  · rcases hq with hq | hq
    · exact .inl hq
    · refine .inr ?_
      rw [pathUpward_append, hp, hq, Bool.or_false]

theorem Allows.climbing (h : Allows R Same true) : Climbing R Same := by
  rcases h with h | h
  · exact h
  · cases h

mutual

theorem walk_rel (hR : Likeness R) (config : Config) (path : Path)
    (hup : Allows R Same (pathUpward path)) (depth : Nat) {n : ν} {m : μ} (h : R n m) :
    Guarded.Rel (Resolved.Rel R) (walk config path depth n) (walk config path depth m) := by
  rw [walk, walk]
  split
  · exact .trip .absent
  · exact follow_rel hR config path hup depth h
termination_by (pathWeight path, 1)

/-- One case for each kind of segment at the head of the path. -/
theorem follow_rel (hR : Likeness R) (config : Config) (path : Path)
    (hup : Allows R Same (pathUpward path)) (depth : Nat) {n : ν} {m : μ} (h : R n m) :
    Guarded.Rel (Resolved.Rel R) (follow config path depth n) (follow config path depth m) := by
  match path with
  | [] =>
    rw [follow, follow]
    exact .pure (.node h)
  | .key name :: rest =>
    rw [follow, follow]
    exact .ofOption (fun a b hab => follow_rel hR config rest hup.or.2 depth hab) (.pure .absent)
      (lookupKey_rel hR h config.idField name)
  | .index i :: rest =>
    rcases Path.shifted_or rest with ⟨tag, step, more, htag, rfl⟩ | hunshifted
    · rw [follow_index_shifted htag, follow_index_shifted htag]
      cases shift? i step with
      | none => exact .pure .absent
      | some j => exact follow_rel hR config (.index j :: more) hup.or.2.or.2 depth h
    · rw [follow_index_unshifted hunshifted, follow_index_unshifted hunshifted]
      exact .ofOption (fun a b hab => follow_rel hR config rest hup depth hab) (.pure .absent)
        (lookupIndex_rel hR h i)
  | .slice s :: rest =>
    rw [follow, follow, hR.kind_eq h, hR.size_eq h]
    split
    · exact spread_rel hR (picked_rel hR h _) _
        fun n m h => walk_rel hR config rest hup.or.2 depth h
    · exact .pure .absent
  | .predicate query :: rest =>
    rw [follow, follow, hR.kind_eq h]
    split
    · rw [meets_eq hR config query hup.or.1 h]
      refine (Guarded.Rel.of_eq rfl).bind fun p q hpq => ?_
      subst hpq
      split
      · exact walk_rel hR config rest hup.or.2 depth h
      · exact .pure .absent
    · have hmarked := marked_rel
        (fun n m h => meets_eq hR config query hup.or.1 h) (hR.entries h)
      refine hmarked.bind fun xs ys hkept => ?_
      exact spread_rel hR hkept _ fun n m h => walk_rel hR config rest hup.or.2 depth h
  | .tag tag :: rest =>
    have hrest : Allows R Same (pathUpward rest) := hup.or.2
    cases tag using Tag.walk_cases with
    | parent =>
      have hclimb : Climbing R Same := Allows.climbing hup.or.1
      rw [follow, follow]
      exact .ofOption (fun a b hab => follow_rel hR config rest hrest depth hab) (.pure .absent)
        (hclimb.parent? h)
    | root =>
      have hclimb : Climbing R Same := Allows.climbing hup.or.1
      rw [follow, follow]
      refine (climb_rel hclimb config.maxDepth .nil h).bind fun p q hpq => ?_
      exact follow_rel hR config rest hrest depth hpq
    | children =>
      rw [follow, follow, hR.kind_eq h]
      split
      · exact .pure .absent
      · exact spread_rel hR (hR.entries h) _ fun n m h => walk_rel hR config rest hrest depth h
    | descendants =>
      rw [follow, follow]
      exact atLeaves_rel hR (fun depth n m h => walk_rel hR config rest hrest depth h) _ depth h
    | ancestors =>
      have hclimb : Climbing R Same := Allows.climbing hup.or.1
      rw [follow, follow]
      exact closest_rel hR hclimb
        (fun n m h => walk_rel hR config rest hrest (depth + 1) h) _ .nil h
    | siblings =>
      have hclimb : Climbing R Same := Allows.climbing hup.or.1
      rw [follow, follow]
      refine .ofOption (fun p q hpq => ?_) (.pure (.value _)) (hclimb.parent? h)
      rw [hR.kind_eq hpq]
      split
      · exact .pure (.value _)
      · exact spread_rel hR (siblings_rel hR hclimb h hpq) _
          fun n m h => walk_rel hR config rest hrest depth h
    | passed tag htag =>
      rw [follow_passed htag, follow_passed htag]
      exact follow_rel hR config rest hrest depth h
  | .union alternatives named :: rest =>
    rw [follow, follow, alternately_eq hR config alternatives rest hup.or.1 hup.or.2 (depth + 1) h]
    refine (Guarded.Rel.of_eq rfl).bind fun results results' hresults => ?_
    subst hresults
    split
    · exact .pure (.value _)
    · exact .pure (.value _)
  | .tuple members :: rest =>
    rw [follow, follow]
    exact walk_rel hR config (members ++ rest) (hup.or.1.append hup.or.2) (depth + 1) h
termination_by (pathWeight path, 0)

/-- The results are values, and therefore the same. -/
theorem alternately_eq (hR : Likeness R) (config : Config) (alternatives : List Path) (rest : Path)
    (halternatives : Allows R Same (pathsUpward alternatives))
    (hrest : Allows R Same (pathUpward rest)) (depth : Nat) {n : ν} {m : μ} (h : R n m) :
    alternately config alternatives rest depth n =
      alternately config alternatives rest depth m := by
  match alternatives with
  | [] => rw [alternately, alternately]
  | path :: more =>
    rw [alternately, alternately]
    refine Guarded.Rel.eq ?_
    have hwalk := walk_rel hR config (path ++ rest) (halternatives.or.1.append hrest) depth h
    refine hwalk.bind fun x y hxy => ?_
    rw [alternately_eq hR config more rest halternatives.or.2 hrest depth h, hxy.slot_eq hR]
    exact .of_eq rfl
termination_by (pathsWeight alternatives + pathWeight rest, 0)

theorem meets_eq (hR : Likeness R) (config : Config) (query : Query)
    (hup : Allows R Same (queryUpward query)) {n : ν} {m : μ} (h : R n m) :
    meets config query n = meets config query m := by
  match query with
  | [] => rw [meets, meets]
  | (path, expected) :: rest =>
    have hrest := meets_eq hR config rest hup.or.2 h
    rw [meets, meets, hR.toJson_eq h, hrest]
    split
    · rfl
    · refine Guarded.Rel.eq ?_
      refine (walk_rel hR config path hup.or.1 0 h).bind fun x y hxy => ?_
      rw [hxy.toJson?_eq hR]
      exact .of_eq rfl
termination_by (queryWeight query, 0)

end

section Answers

theorem keys?_eq (hR : Likeness R) {x : Resolved ν} {y : Resolved μ} (h : Resolved.Rel R x y) :
    x.keys? = y.keys? := by
  cases h with
  | absent | value => rfl
  | @node n m hnm =>
    have hkeys : List.Forall₂ Eq ((entries n).map fun entry => keyValue (kind n) entry.1)
        ((entries m).map fun entry => keyValue (kind m) entry.1) :=
      List.rel_map (fun x y hxy => by rw [hR.kind_eq hnm, hxy.1]) (hR.entries hnm)
    rw [List.forall₂_eq_eq_eq] at hkeys
    exact congrArg some hkeys

theorem search_eq (hR : Likeness R) (config : Config) (query : Query)
    (hup : Allows R Same (queryUpward query)) {x : Resolved ν} {y : Resolved μ}
    (h : Resolved.Rel R x y) : x.search config query = y.search config query := by
  cases h with
  | absent | value => rfl
  | @node n m hnm =>
    have hfound := Guarded.Rel.findM? (P := EntryRel R)
      (fun x y hxy => meets_eq hR config query hup hxy.2) (hR.entries hnm)
    refine Guarded.Rel.eq (hfound.bind fun a b hab => .pure ?_)
    rcases rel_cases hab with ⟨ha, hb⟩ | ⟨x, y, ha, hb, hxy⟩
    · rw [ha, hb]
      rfl
    · rw [ha, hb, hR.kind_eq hnm]
      exact congrArg (fun key => some (keyValue (kind m) key)) hxy.1

/-- Every operation has the same answer at both places. -/
theorem answer_eq (hR : Matching R) (config : Config) (op : Operation)
    (hup : Allows R Same op.isUpward) {x : Resolved ν} {y : Resolved μ} (h : Resolved.Rel R x y) :
    x.answer config op = y.answer config op := by
  have hjson := h.toJson?_eq hR.toLikeness
  have hkind := h.kind?_eq hR.toLikeness
  cases op with
  | fetch | apply => simp only [Resolved.answer, hjson]
  | «exists» => cases h <;> rfl
  | count => simp only [Resolved.answer, h.count_eq hR.toLikeness]
  | keys => simp only [Resolved.answer, keys?_eq hR.toLikeness h]
  | isLeaf | isList | isDict => simp only [Resolved.answer, hkind]
  | search query => exact search_eq hR.toLikeness config query hup h
  | call args =>
    cases h with
    | absent | value => rfl
    | node hnm => simp only [Resolved.answer, Resolved.call?, hR.call?_eq hnm]

theorem resolve_eq (hR : Matching R) {n : ν} {m : μ} (h : R n m) (p : Path) (op : Operation)
    (hpath : Allows R Same (pathUpward p)) (hop : Allows R Same op.isUpward)
    (default : Option Json) :
    Resolver.resolve n p op default = Resolver.resolve m p op default := by
  have htarget : Allows R Same (pathUpward p.splitOperation.1) := by
    rcases hpath with hpath | hpath
    · exact .inl hpath
    · exact .inr (pathUpward_splitOperation hpath)
  have hasked : Allows R Same ((p.splitOperation.2.bind Operation.ofTag?).getD op).isUpward := by
    cases htag : p.splitOperation.2.bind Operation.ofTag? with
    | none => exact hop
    | some asked =>
      obtain ⟨t, -, ht⟩ := Option.bind_eq_some_iff.mp htag
      exact .inr (Operation.isUpward_ofTag? ht)
  have hanswer : ∀ config, (walk config p.splitOperation.1 0 n >>= fun found =>
        found.answer config ((p.splitOperation.2.bind Operation.ofTag?).getD op)) =
      walk config p.splitOperation.1 0 m >>= fun found =>
        found.answer config ((p.splitOperation.2.bind Operation.ofTag?).getD op) := by
    intro config
    refine Guarded.Rel.eq ?_
    refine (walk_rel hR.toLikeness config _ htarget 0 h).bind fun x y hxy => ?_
    exact .of_eq (answer_eq hR config _ hasked hxy)
  unfold Resolver.resolve
  simp only [hanswer]

theorem isMatch_eq (hR : Matching R) {n : ν} {m : μ} (h : R n m) (query : Query)
    (hup : Allows R Same (queryUpward query)) :
    Resolver.isMatch n query = Resolver.isMatch m query := by
  unfold Resolver.isMatch
  have hmeets : (fun config => meets config query n) = fun config => meets config query m :=
    funext fun config => meets_eq hR.toLikeness config query hup h
  rw [hmeets]

end Answers

end TreePath

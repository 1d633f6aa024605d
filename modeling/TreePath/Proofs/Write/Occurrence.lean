import TreePath.Write.Target

namespace TreePath

/-- The segment stands in the path, or in an alternative or among the members of a segment that
does. Alternative paths are taken in their absolute form. -/
inductive Segment.OccursIn (s : Segment) : Path → Prop where
  | here {p : Path} (h : s ∈ p) : OccursIn s p
  | inUnion {p q : Path} {alternatives : List Path} {named : Bool}
      (h : .union alternatives named ∈ p) (hq : q ∈ alternatives) (hs : OccursIn s q.absolute) :
      OccursIn s p
  | inTuple {p : Path} {members : Path} (h : .tuple members ∈ p) (hs : OccursIn s members) :
      OccursIn s p

namespace Segment

variable {s : Segment} {p q : Path}

/-- What occurs in a path occurs in each path that has all its segments. -/
theorem OccursIn.mono (h : s.OccursIn p) (hsub : ∀ t ∈ p, t ∈ q) : s.OccursIn q := by
  cases h with
  | here h => exact .here (hsub s h)
  | inUnion h hq hs => exact .inUnion (hsub _ h) hq hs
  | inTuple h hs => exact .inTuple (hsub _ h) hs

theorem OccursIn.tail (a : Segment) (h : s.OccursIn p) : s.OccursIn (a :: p) :=
  h.mono fun _ => List.mem_cons_of_mem a

/-- What occurs in two paths one behind the other occurs in one of them. -/
theorem OccursIn.of_append (h : s.OccursIn (p ++ q)) : s.OccursIn p ∨ s.OccursIn q := by
  cases h with
  | here h => exact (List.mem_append.mp h).imp .here .here
  | inUnion h hq hs => exact (List.mem_append.mp h).imp (.inUnion · hq hs) (.inUnion · hq hs)
  | inTuple h hs => exact (List.mem_append.mp h).imp (.inTuple · hs) (.inTuple · hs)

end Segment

section Search

theorem unwritable?_eq_none {p : Path} :
    unwritable? p = none ↔ ∀ s ∈ p, unwritableIn? s = none := by
  induction p with
  | nil =>
    rw [unwritable?]
    simp
  | cons s rest ih =>
    rw [unwritable?, List.forall_mem_cons, ← ih]
    cases unwritableIn? s <;> simp

theorem unwritableAmong?_eq_none {alternatives : List Path} :
    unwritableAmong? alternatives = none ↔ ∀ p ∈ alternatives, unwritable? p.absolute = none := by
  induction alternatives with
  | nil =>
    rw [unwritableAmong?]
    simp
  | cons p more ih =>
    rw [unwritableAmong?, List.forall_mem_cons, ← ih]
    cases unwritable? p.absolute <;> simp

theorem isWritable_of_unwritableIn? {t : Tag} (h : unwritableIn? (.tag t) = none) :
    t.isWritable = true := by
  rw [unwritableIn?] at h
  cases hwritable : t.isWritable with
  | true => rfl
  | false => simp [hwritable] at h

/-- Where nothing is found, all tags can be written to. -/
theorem isWritable_of_occursIn {t : Tag} {p : Path} (h : (Segment.tag t).OccursIn p)
    (hnone : unwritable? p = none) : t.isWritable = true := by
  induction h with
  | here h => exact isWritable_of_unwritableIn? (unwritable?_eq_none.mp hnone _ h)
  | inUnion h hq _ ih =>
    have hamong := unwritable?_eq_none.mp hnone _ h
    rw [unwritableIn?] at hamong
    exact ih (unwritableAmong?_eq_none.mp hamong _ hq)
  | inTuple h _ ih =>
    have hmembers := unwritable?_eq_none.mp hnone _ h
    rw [unwritableIn?] at hmembers
    exact ih hmembers

/-- A tag of the path that no write can follow. -/
def IsUnwritable (p : Path) (s : Segment) : Prop :=
  ∃ t : Tag, s = .tag t ∧ t.isWritable = false ∧ s.OccursIn p

mutual

/-- What is found is a tag that cannot be written to. -/
theorem isUnwritable_of_unwritable? {p place : Path} {s : Segment}
    (h : unwritable? p = some (place, s)) : IsUnwritable p s := by
  match p with
  | [] =>
    rw [unwritable?] at h
    cases h
  | head :: rest =>
    rw [unwritable?] at h
    split at h
    · next found hfound =>
      obtain rfl := Option.some.inj h
      obtain ⟨t, hs, ht, hoccurs⟩ := isUnwritable_of_unwritableIn? hfound
      exact ⟨t, hs, ht, hoccurs.mono (by simp)⟩
    · obtain ⟨⟨place', s'⟩, hfound, heq⟩ := Option.map_eq_some_iff.mp h
      obtain ⟨-, rfl⟩ := Prod.mk.inj heq
      obtain ⟨t, hs, ht, hoccurs⟩ := isUnwritable_of_unwritable? hfound
      exact ⟨t, hs, ht, hoccurs.tail head⟩
termination_by 2 * pathWeight p + 1
decreasing_by
  · simp only [pathWeight]
    omega
  · have := head.weight_pos
    simp only [pathWeight]
    omega

theorem isUnwritable_of_unwritableIn? {head s : Segment} {place : Path}
    (h : unwritableIn? head = some (place, s)) : IsUnwritable [head] s := by
  match head with
  | .tag t =>
    rw [unwritableIn?] at h
    split at h
    · cases h
    · next hwritable =>
      obtain ⟨-, rfl⟩ := Prod.mk.inj (Option.some.inj h)
      exact ⟨t, rfl, by simpa using hwritable, .here (by simp)⟩
  | .union alternatives named =>
    rw [unwritableIn?] at h
    obtain ⟨q, hq, t, hs, ht, hoccurs⟩ := isUnwritable_of_unwritableAmong? h
    exact ⟨t, hs, ht, .inUnion (List.mem_singleton_self _) hq hoccurs⟩
  | .tuple members =>
    rw [unwritableIn?] at h
    obtain ⟨t, hs, ht, hoccurs⟩ := isUnwritable_of_unwritable? h
    exact ⟨t, hs, ht, .inTuple (List.mem_singleton_self _) hoccurs⟩
  | .key _ | .index _ | .slice _ | .predicate _ =>
    rw [unwritableIn?] at h
    · cases h
    all_goals simp
termination_by 2 * head.weight

theorem isUnwritable_of_unwritableAmong? {alternatives : List Path} {place : Path} {s : Segment}
    (h : unwritableAmong? alternatives = some (place, s)) :
    ∃ q ∈ alternatives, IsUnwritable q.absolute s := by
  match alternatives with
  | [] =>
    rw [unwritableAmong?] at h
    cases h
  | p :: more =>
    rw [unwritableAmong?] at h
    split at h
    · next found hfound =>
      obtain rfl := Option.some.inj h
      exact ⟨p, List.mem_cons_self, isUnwritable_of_unwritable? hfound⟩
    · obtain ⟨q, hq, hfound⟩ := isUnwritable_of_unwritableAmong? h
      exact ⟨q, List.mem_cons_of_mem _ hq, hfound⟩
termination_by 2 * pathsWeight alternatives
decreasing_by
  · have := pathWeight_absolute_le p
    simp only [pathsWeight]
    omega
  · simp only [pathsWeight]
    omega

end

/-- The search is exact: it finds something in the path just when a tag occurs there that cannot be
written to. -/
theorem unwritable?_isSome_iff {p : Path} :
    (unwritable? p).isSome = true ↔ ∃ s, IsUnwritable p s := by
  constructor
  · intro h
    obtain ⟨⟨place, s⟩, hfound⟩ := Option.isSome_iff_exists.mp h
    exact ⟨s, isUnwritable_of_unwritable? hfound⟩
  · rintro ⟨s, t, rfl, ht, hoccurs⟩
    cases hfound : unwritable? p with
    | some found => rfl
    | none => simp [isWritable_of_occursIn hoccurs hfound] at ht

end Search

end TreePath

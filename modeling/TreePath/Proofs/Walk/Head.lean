import TreePath.Walk.Basic

namespace TreePath

open TreeAccess

/-- The tags that a walk passes over. -/
def Tag.isPassed : Tag → Bool
  | .parent | .root | .children | .descendants | .ancestors | .siblings => false
  | _ => true

/-- Six tags lead a walk on, each in its own way; the others are taken together. -/
@[elab_as_elim]
theorem Tag.walk_cases {motive : Tag → Prop} (t : Tag) (parent : motive .parent)
    (root : motive .root) (children : motive .children) (descendants : motive .descendants)
    (ancestors : motive .ancestors) (siblings : motive .siblings)
    (passed : ∀ t, t.isPassed = true → motive t) : motive t := by
  cases t with
  | parent => exact parent
  | root => exact root
  | children => exact children
  | descendants => exact descendants
  | ancestors => exact ancestors
  | siblings => exact siblings
  | _ => exact passed _ rfl

/-- How far a tag shifts the position in front of it. -/
def Tag.stride? : Tag → Option Int
  | .next => some 1
  | .prev => some (-1)
  | _ => none

theorem Tag.eq_of_stride? {t : Tag} {step : Int} (h : t.stride? = some step) :
    (t = .next ∧ step = 1) ∨ (t = .prev ∧ step = -1) := by
  cases t with
  | next => exact .inl ⟨rfl, (Option.some.inj h).symm⟩
  | prev => exact .inr ⟨rfl, (Option.some.inj h).symm⟩
  | _ => cases h

/-- The path does not begin with a tag that shifts the position in front of it. -/
def Path.StartsUnshifted (p : Path) : Prop :=
  ∀ more, p ≠ .tag .next :: more ∧ p ≠ .tag .prev :: more

theorem Path.shifted_or (p : Path) :
    (∃ t step more, t.stride? = some step ∧ p = .tag t :: more) ∨ p.StartsUnshifted := by
  by_cases hnext : ∃ more, p = .tag .next :: more
  · obtain ⟨more, rfl⟩ := hnext
    exact .inl ⟨.next, 1, more, rfl, rfl⟩
  · by_cases hprev : ∃ more, p = .tag .prev :: more
    · obtain ⟨more, rfl⟩ := hprev
      exact .inl ⟨.prev, -1, more, rfl, rfl⟩
    · exact .inr fun more => ⟨fun he => hnext ⟨more, he⟩, fun he => hprev ⟨more, he⟩⟩

/-- Where neither of the two tags may stand in a path, the path does not begin with one. -/
theorem Path.startsUnshifted_of_forall {f : Segment → Bool} {p : Path} (h : ∀ s ∈ p, f s = true)
    (hnext : f (.tag .next) = false) (hprev : f (.tag .prev) = false) : p.StartsUnshifted := by
  intro more
  constructor
  · rintro rfl
    exact absurd (h _ List.mem_cons_self) (by simp [hnext])
  · rintro rfl
    exact absurd (h _ List.mem_cons_self) (by simp [hprev])

theorem Path.StartsUnshifted.append {p q : Path} (hp : p.StartsUnshifted) (hq : q.StartsUnshifted) :
    Path.StartsUnshifted (p ++ q) := by
  cases p with
  | nil => exact hq
  | cons s p =>
    intro more
    constructor
    · rintro ⟨⟩
      exact (hp p).1 rfl
    · rintro ⟨⟩
      exact (hp p).2 rfl

section Walks

variable {ν : Type} [TreeAccess ν] {config : Config} {i : Int64} {rest : Path} {depth : Nat} {n : ν}

theorem follow_index_shifted {t : Tag} {step : Int} (ht : t.stride? = some step) :
    follow config (.index i :: .tag t :: rest) depth n =
      match shift? i step with
      | some j => follow config (.index j :: rest) depth n
      | none => return .absent := by
  rcases t.eq_of_stride? ht with ⟨rfl, rfl⟩ | ⟨rfl, rfl⟩
  all_goals
    rewrite [follow]
    rfl

theorem follow_index_unshifted (hrest : rest.StartsUnshifted) :
    follow config (.index i :: rest) depth n =
      match lookupIndex i n with
      | some child => follow config rest depth child
      | none => return .absent := by
  rewrite [follow]
  · rfl
  · exact fun more => (hrest more).1
  · exact fun more => (hrest more).2

theorem follow_passed {t : Tag} (ht : t.isPassed = true) :
    follow config (.tag t :: rest) depth n = follow config rest depth n := by
  rw [follow]
  all_goals
    rintro rfl
    cases ht

end Walks

end TreePath

import Mathlib.Data.List.Find
import TreePath.Proofs.Walk.Addressed
import TreePath.Proofs.Write.Occurrence
import TreePath.Resolver.Basic

namespace TreePath

open TreeUpdate

/-- The field that identifies an element is the same for reads and for writes. -/
theorem hasIdentity_field? (idField name : String) (v : Json) :
    hasIdentity idField name v = ((v.field? idField).bind Json.asString? == some name) := by
  cases v with
  | obj fields =>
    have hchild : TreeAccess.child? (Json.obj fields) (.name idField) =
        Fields.find? fields idField := rfl
    rw [hasIdentity, hchild, Json.field?]
    cases Fields.find? fields idField <;> rfl
  | null | bool | num | str | arr => rfl

/-- The element that a name identifies for a write is the one that a read finds. -/
theorem identified?_eq (idField name : String) {t : Json} (ht : t.WellFormed) :
    identified? idField name t =
      (t.children.find? fun e => hasIdentity idField name e.2).map Prod.fst := by
  change (t.children.map Prod.fst).find? _ = _
  rw [List.find?_map]
  refine congrArg (Option.map Prod.fst) (List.find?_congr fun e he => ?_)
  have hchild : childSnapshot? t e.1 = some e.2 := Json.child?_of_mem ht he
  simp only [Function.comp_apply, hchild, hasIdentity_field?]

theorem Segment.selectsChildren_of_isConcrete {s : Segment} (h : s.isConcrete = true) :
    s.selectsChildren = true := by
  rcases eq_of_isConcrete h with ⟨name, rfl⟩ | ⟨i, rfl⟩ <;> rfl

theorem Path.IsConcrete.selectsChildren {p : Path} (h : p.IsConcrete) : p.SelectsChildren :=
  fun s hs => s.selectsChildren_of_isConcrete (h s hs)

/-- The segments that lead to children, one by one. -/
theorem Segment.eq_of_selectsChildren {s : Segment} (h : s.selectsChildren = true) :
    s.isConcrete = true ∨ (∃ slice, s = .slice slice) ∨ (∃ query, s = .predicate query) ∨
      s = .tag .children := by
  cases s with
  | key | index => exact .inl rfl
  | slice slice => exact .inr (.inl ⟨slice, rfl⟩)
  | predicate query => exact .inr (.inr (.inl ⟨query, rfl⟩))
  | tag t =>
    cases t with
    | children => exact .inr (.inr (.inr rfl))
    | _ => cases h
  | union | tuple => cases h

variable {τ : Type} [TreeUpdate τ]

/-- A path in which there is nothing to resolve is absolute already. -/
theorem Path.absolute_of_kept {p : Path}
    (h : ∀ s ∈ p, ∀ done, Path.absoluteStep done s = s :: done) : p.absolute = p := by
  have hfold : ∀ done : Path, p.foldl Path.absoluteStep done = p.reverse ++ done := by
    induction p with
    | nil => exact fun done => rfl
    | cons s p ih =>
      intro done
      have hrest := ih (fun t ht => h t (List.mem_cons_of_mem _ ht)) (s :: done)
      rw [List.foldl_cons, h s List.mem_cons_self, hrest, List.reverse_cons, List.append_assoc]
      rfl
  rw [Path.absolute, hfold, List.append_nil, List.reverse_reverse]

/-- What leads to children is kept when a path is made absolute, and can be written to. -/
theorem Segment.kept_of_selectsChildren {s : Segment} (h : s.selectsChildren = true) :
    (∀ done, Path.absoluteStep done s = s :: done) ∧ unwritableIn? s = none := by
  rcases eq_of_selectsChildren h with hs | ⟨_, rfl⟩ | ⟨_, rfl⟩ | rfl
  · rcases eq_of_isConcrete hs with ⟨name, rfl⟩ | ⟨i, rfl⟩
    all_goals exact ⟨fun done => rfl, by simp [unwritableIn?]⟩
  all_goals exact ⟨fun done => rfl, by simp [unwritableIn?, Tag.isWritable]⟩

/-- A path in which there is nothing to resolve and nothing to refuse is written to as it stands. -/
theorem write_of_kept {p : Path}
    (h : ∀ s ∈ p, (∀ done, Path.absoluteStep done s = s :: done) ∧ unwritableIn? s = none)
    (config : Config) (patch : Patch) :
    (write config p patch : Write τ Nat) = writeAt config patch [] p 0 := by
  have htarget : p.target = p := by
    rw [Path.target, Path.absolute_of_kept fun s hs => (h s hs).1]
    split
    · -- behind another segment, a root is not kept
      cases (h (.tag .root) List.mem_cons_self).1 [.tag .root]
    · rfl
  have hwritable := unwritable?_eq_none.mpr fun s hs => (h s hs).2
  rw [write, htarget, hwritable]

namespace Path.SelectsChildren

variable {p : Path}

theorem absolute_eq (hp : p.SelectsChildren) : p.absolute = p :=
  absolute_of_kept fun s hs => (s.kept_of_selectsChildren (hp s hs)).1

theorem unwritable?_eq (hp : p.SelectsChildren) : unwritable? p = none :=
  unwritable?_eq_none.mpr fun s hs => (s.kept_of_selectsChildren (hp s hs)).2

theorem write_eq (hp : p.SelectsChildren) (config : Config)
    (patch : Patch) : (write config p patch : Write τ Nat) = writeAt config patch [] p 0 :=
  write_of_kept (fun s hs => s.kept_of_selectsChildren (hp s hs)) config patch

/-- What a resolver leaves is what the write itself leaves. -/
theorem writePath_eq (hp : p.SelectsChildren) (t : τ) (patch : Patch) (r : Resolver) :
    (Resolver.writePath t p patch r).1 =
      let o := (writeAt r.config patch [] p 0 : Write τ Nat) t
      (o.result, o.tree) := by
  rw [← hp.write_eq]
  rfl

end Path.SelectsChildren

/-- A path through a union of paths that lead to children is written to as it stands. -/
theorem write_union {p q : Path} {alternatives : List Path} (hp : p.SelectsChildren)
    (halternatives : ∀ a ∈ alternatives, a.SelectsChildren) (hq : q.SelectsChildren)
    (named : Bool) (config : Config) (patch : Patch) :
    (write config (p ++ .union alternatives named :: q) patch : Write τ Nat) =
      writeAt config patch [] (p ++ .union alternatives named :: q) 0 := by
  have hunion : unwritableIn? (.union alternatives named) = none := by
    rw [unwritableIn?, unwritableAmong?_eq_none]
    intro a ha
    rw [(halternatives a ha).absolute_eq, (halternatives a ha).unwritable?_eq]
  refine write_of_kept (fun s hs => ?_) config patch
  rcases List.mem_append.mp hs with hs | hs
  · exact s.kept_of_selectsChildren (hp s hs)
  · rcases List.mem_cons.mp hs with rfl | hs
    · exact ⟨fun done => rfl, hunion⟩
    · exact s.kept_of_selectsChildren (hq s hs)

/-- A run whose result is known, as a whole. -/
theorem Resolver.run_eq {τ α : Type} {run : Written τ α × Resolver} {result : Except PathError α}
    (h : run.1.1 = result) : run = ((result, run.1.2), run.2) := by
  rw [← h]

end TreePath

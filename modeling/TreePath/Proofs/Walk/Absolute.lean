import Mathlib
import TreePath.Proofs.Walk.Moves
import TreePath.Tree.Cursor

namespace TreePath

open TreeAccess

section Reduction

namespace Path

/-- Each segment of the path is kept when it is taken behind those in front of it; the path is held
with its last segment first. -/
def Reduced : List Segment → Prop
  | [] => True
  | s :: front => absoluteStep front s = s :: front ∧ Reduced front

/-- A segment is kept, or is dropped, or takes the one in front of it with it, or is the root at
which the path starts again. -/
theorem absoluteStep_cases (done : List Segment) (s : Segment) :
    absoluteStep done s = s :: done ∨ absoluteStep done s = done ∨
      (∃ t, done = t :: absoluteStep done s) ∨ absoluteStep done s = [.tag .root] := by
  unfold absoluteStep
  split
  · split
    · exact .inr (.inr (.inl ⟨_, rfl⟩))
    · exact .inr (.inr (.inl ⟨_, rfl⟩))
    · exact .inr (.inl rfl)
    · exact .inl rfl
  · exact .inr (.inr (.inr rfl))
  · exact .inr (.inl rfl)
  · exact .inl rfl

theorem absoluteStep_concrete {s : Segment} (hs : s.isConcrete = true) (done : List Segment) :
    absoluteStep done s = s :: done := by
  rcases s.eq_of_isConcrete hs with ⟨name, rfl⟩ | ⟨i, rfl⟩ <;> rfl

theorem Reduced.step {done : List Segment} (h : Reduced done) (s : Segment) :
    Reduced (absoluteStep done s) := by
  rcases absoluteStep_cases done s with hkept | hsame | ⟨t, hdone⟩ | hroot
  · rw [hkept]
    exact ⟨hkept, h⟩
  · rw [hsame]
    exact h
  · rw [hdone] at h
    exact h.2
  · rw [hroot]
    exact ⟨rfl, trivial⟩

theorem Reduced.foldl {done : List Segment} (h : Reduced done) (p : Path) :
    Reduced (p.foldl absoluteStep done) := by
  induction p generalizing done with
  | nil => exact h
  | cons s p ih => exact ih (h.step s)

/-- A reduced path is its own absolute form. -/
theorem Reduced.absolute_eq {done : List Segment} (h : Reduced done) :
    absolute done.reverse = done.reverse := by
  have hfold : done.reverse.foldl absoluteStep [] = done := by
    induction done with
    | nil => rfl
    | cons s front ih =>
      rw [List.reverse_cons, List.foldl_append, ih h.2]
      exact h.1
  rw [absolute, hfold]

end Path

end Reduction

section Cursors

namespace Cursor

/-- The topmost value, above which there is nothing. -/
def rootAbove (node : Json) : List (Json × Nat) → Cursor
  | [] => top node
  | (above, _) :: trail => rootAbove above trail

/-- The top of the tree that the cursor is in. -/
def root (c : Cursor) : Cursor := rootAbove c.node c.trail

variable {c d : Cursor}

theorem parent?_root (c : Cursor) : c.root.parent? = none := by
  obtain ⟨node, trail⟩ := c
  change (rootAbove node trail).parent? = none
  induction trail generalizing node with
  | nil => rfl
  | cons step trail ih => exact ih step.1

theorem depth_root (c : Cursor) : c.root.depth = 0 := by
  obtain ⟨node, trail⟩ := c
  change (rootAbove node trail).depth = 0
  induction trail generalizing node with
  | nil => rfl
  | cons step trail ih => exact ih step.1

theorem root_root (c : Cursor) : c.root.root = c.root := by
  obtain ⟨node, trail⟩ := c
  change (rootAbove node trail).root = rootAbove node trail
  induction trail generalizing node with
  | nil => rfl
  | cons step trail ih => exact ih step.1

/-- One step up and the tree is still the same one. -/
theorem root_of_parent? (h : c.parent? = some d) : c.root = d.root ∧ c.depth = d.depth + 1 := by
  obtain ⟨node, trail⟩ := c
  cases trail with
  | nil => cases h
  | cons step trail =>
    obtain rfl := Option.some.inj h
    exact ⟨rfl, rfl⟩

/-- The climb from a cursor that is not too deep ends at the top: the places above a cursor are all
shorter than those that have been seen, so that none of them is met twice. -/
theorem climb_eq_root {left : Nat} {seen : List Identity} (hdepth : c.depth ≤ left)
    (hseen : ∀ i ∈ seen, c.depth ≤ i.length) : climb left seen c = pure c.root := by
  obtain ⟨node, trail⟩ := c
  change trail.length ≤ left at hdepth
  change ∀ i ∈ seen, trail.length ≤ i.length at hseen
  induction trail generalizing node left seen with
  | nil =>
    unfold climb
    rfl
  | cons step trail ih =>
    obtain ⟨above, position⟩ := step
    let p : Cursor := ⟨above, trail⟩
    have hparent : TreeAccess.parent? (⟨node, (above, position) :: trail⟩ : Cursor) = some p := rfl
    have hlength : p.place.length = trail.length := List.length_map _
    have hnew : isRevisited seen p = false := by
      change seen.contains p.place = false
      rw [Bool.eq_false_iff, Ne, List.contains_iff_mem]
      intro hmem
      have hle := hseen _ hmem
      rw [hlength, List.length_cons] at hle
      omega
    obtain ⟨left, rfl⟩ : ∃ k, left = k + 1 := ⟨left - 1, by rw [List.length_cons] at hdepth; omega⟩
    rw [climb, hparent]
    simp only [hnew, Bool.false_eq_true, if_false]
    refine ih above (by rw [List.length_cons] at hdepth; omega) ?_
    intro i hi
    rcases List.mem_append.mp hi with hi | hi
    · have hplace : some p.place = some i := Option.mem_toList.mp hi
      obtain rfl := Option.some.inj hplace
      exact Nat.le_of_eq hlength.symm
    · have hle := hseen i hi
      rw [List.length_cons] at hle
      omega

theorem parent?_down (c : Cursor) (position : Nat) (child : Json) :
    (c.down position child).parent? = some c := rfl

theorem parent?_of_child? {key : ChildKey} (h : c.child? key = some d) : d.parent? = some c := by
  unfold child? at h
  split at h
  · obtain rfl := Option.some.inj h
    exact c.parent?_down _ _
  · cases h

theorem parent?_of_mem_entries {key : ChildKey} (h : (key, d) ∈ c.entries) :
    d.parent? = some c := by
  obtain ⟨e, -, heq⟩ := List.mem_map.mp h
  obtain ⟨-, rfl⟩ := Prod.mk.inj heq
  exact c.parent?_down _ _

/-- Whatever a name or a position leads to, one step up leads back. -/
theorem parent?_of_hop? {idField : String} {s : Segment} (h : hop? idField s c = some d) :
    d.parent? = some c := by
  cases s with
  | key name =>
    change lookupKey idField name c = some d at h
    unfold lookupKey at h
    split at h
    · next hchild =>
      obtain rfl := Option.some.inj h
      exact parent?_of_child? hchild
    · split at h
      · obtain ⟨e, he, rfl⟩ := Option.map_eq_some_iff.mp h
        exact parent?_of_mem_entries (List.mem_of_find?_eq_some he)
      · cases h
  | index i =>
    change lookupIndex i c = some d at h
    unfold lookupIndex at h
    split at h
    · obtain ⟨k, -, hchild⟩ := Option.bind_eq_some_iff.mp h
      exact parent?_of_child? hchild
    · exact parent?_of_child? h
  | slice | predicate | tag | union | tuple => cases h

end Cursor

end Cursors

section Following

variable {config : Config} {c d e : Cursor} {s : Segment} {p done : Path}

/-- Where the absolute form of what has been read so far leads to, and how far it has led from the
start. -/
structure Arrived (config : Config) (c : Cursor) (done : Path) (d : Cursor) : Prop where
  arrives : (moved? config done.reverse c).value = some d
  root_eq : d.root = c.root

theorem moved?_cons (s : Segment) (p : Path) : (moved? config (s :: p) c).value =
    (move? config s c).value.bind fun d => (moved? config p d).value := by
  rw [moved?, Guarded.value_bind]
  cases (move? config s c).value <;> rfl

/-- The last move of a path, with the cursor that it is taken from. -/
theorem moved?_concat (p : Path) (s : Segment) : (moved? config (p ++ [s]) c).value =
    (moved? config p c).value.bind fun d => (move? config s d).value := by
  rw [moved?_append, Guarded.value_bind]
  cases (moved? config p c).value with
  | none => rfl
  | some d =>
    change (moved? config [s] d).value = (move? config s d).value
    rw [moved?_cons]
    cases (move? config s d).value <;> rfl

theorem move?_root (hdepth : d.depth ≤ config.maxDepth) :
    (move? config (.tag .root) d).value = some d.root := by
  rw [move?, Cursor.climb_eq_root hdepth fun _ hi => absurd hi List.not_mem_nil]
  rfl

theorem move?_concrete (hs : s.isConcrete = true) (c : Cursor) :
    (move? config s c).value = hop? config.idField s c := by
  rcases s.eq_of_isConcrete hs with ⟨name, rfl⟩ | ⟨i, rfl⟩ <;> rfl

theorem Arrived.push (h : Arrived config c done d) (hmove : (move? config s d).value = some e)
    (hroot : e.root = d.root) : Arrived config c (s :: done) e where
  arrives := by rw [List.reverse_cons, moved?_concat, h.arrives, Option.bind_some, hmove]
  root_eq := hroot.trans h.root_eq

/-- The absolute form of nothing but the root. -/
theorem Arrived.restart (hdepth : c.depth ≤ config.maxDepth) :
    Arrived config c [.tag .root] c.root where
  arrives := by
    have hmoved : (moved? config ([] ++ [.tag .root]) c).value = _ := moved?_concat [] (.tag .root)
    rw [moved?, Guarded.value_pure, Option.bind_some, move?_root hdepth] at hmoved
    exact hmoved
  root_eq := c.root_root

/-- A step to the parent cancels a name or a position that has led down, is not taken from the root,
and is kept otherwise. -/
theorem Arrived.parent (h : Arrived config c done d) (hreduced : Path.Reduced done)
    (hdepth : c.depth ≤ config.maxDepth) (hparent : d.parent? = some e) :
    Arrived config c (Path.absoluteStep done (.tag .parent)) e := by
  obtain ⟨hroot, -⟩ := Cursor.root_of_parent? hparent
  have hdown : ∀ s front, s.isConcrete = true → done = s :: front → Arrived config c front e := by
    rintro s front hs rfl
    have harrives := h.arrives
    rw [List.reverse_cons, moved?_concat] at harrives
    obtain ⟨above, habove, hhop⟩ := Option.bind_eq_some_iff.mp harrives
    rw [move?_concrete hs] at hhop
    obtain rfl : above = e := Option.some.inj ((Cursor.parent?_of_hop? hhop).symm.trans hparent)
    exact ⟨habove, hroot.symm.trans h.root_eq⟩
  simp only [Path.absoluteStep]
  split
  · next name front => exact hdown (.key name) front rfl rfl
  · next i front => exact hdown (.index i) front rfl rfl
  · next front =>
    -- there is nothing in front of a root, and nothing above it
    obtain rfl : front = [] := (List.cons.inj hreduced.1).2.symm
    have htop := h.arrives.symm.trans (Arrived.restart hdepth).arrives
    obtain rfl := Option.some.inj htop
    rw [c.parent?_root] at hparent
    cases hparent
  · exact h.push (s := .tag .parent) hparent hroot.symm

/-- What has been read of a path and its absolute form lead to the same place, and they still do
when the rest of the path has been followed. -/
theorem Arrived.foldl (h : Arrived config c done d) (hreduced : Path.Reduced done) (hp : p.Moves)
    (hc : c.depth ≤ config.maxDepth) (hd : d.depth + p.length ≤ config.maxDepth)
    (hmoved : (moved? config p d).value = some e) :
    Arrived config c (p.foldl Path.absoluteStep done) e := by
  induction p generalizing done d with
  | nil =>
    obtain rfl : d = e := Option.some.inj hmoved
    exact h
  | cons s p ih =>
    rw [moved?_cons] at hmoved
    obtain ⟨m, hmove, hrest⟩ := Option.bind_eq_some_iff.mp hmoved
    rw [List.length_cons] at hd
    have hstep : Arrived config c (Path.absoluteStep done s) m ∧ m.depth ≤ d.depth + 1 := by
      rcases s.eq_of_isMove hp.head with hs | rfl | rfl | rfl
      · rw [move?_concrete hs] at hmove
        obtain ⟨hroot, hdepth⟩ := Cursor.root_of_parent? (Cursor.parent?_of_hop? hmove)
        rw [Path.absoluteStep_concrete hs]
        exact ⟨h.push ((move?_concrete hs d).trans hmove) hroot, Nat.le_of_eq hdepth⟩
      · obtain ⟨-, hdepth⟩ := Cursor.root_of_parent? hmove
        exact ⟨h.parent hreduced hc hmove, by omega⟩
      · rw [move?_root (by omega)] at hmove
        obtain rfl := Option.some.inj hmove
        rw [h.root_eq, c.depth_root]
        exact ⟨Arrived.restart hc, Nat.zero_le _⟩
      · obtain rfl : d = m := Option.some.inj hmove
        exact ⟨h, Nat.le_succ _⟩
    obtain ⟨harrived, hdepth⟩ := hstep
    exact ih harrived (hreduced.step s) hp.tail (by omega) hrest

/-- A path of moves has an absolute form of moves. -/
theorem Path.Moves.foldl (hp : p.Moves) (hdone : Path.Moves done) :
    Path.Moves (p.foldl Path.absoluteStep done) := by
  induction p generalizing done with
  | nil => exact hdone
  | cons s p ih =>
    refine ih hp.tail ?_
    rcases Path.absoluteStep_cases done s with heq | heq | ⟨t, heq⟩ | heq
    · rw [heq]
      intro t ht
      rcases List.mem_cons.mp ht with rfl | ht
      · exact hp.head
      · exact hdone t ht
    · rw [heq]
      exact hdone
    · rw [heq] at hdone
      exact hdone.tail
    · rw [heq]
      intro t ht
      obtain rfl := List.mem_singleton.mp ht
      rfl

theorem Path.Moves.absolute (hp : p.Moves) : p.absolute.Moves := by
  intro s hs
  exact hp.foldl (fun _ h => absurd h List.not_mem_nil) s (List.mem_reverse.mp hs)

end Following

/-- A path of moves and its absolute form lead to the same place, from wherever the path leads to a
place at all. The absolute form of any path is its own absolute form. -/
theorem locate_absolute :
    (∀ (c d : Cursor) (p : Path) (r : Resolver), p.Moves → c.depth + p.length ≤ r.config.maxDepth →
      (Resolver.locate c (.path p) r).1 = .ok (some d) →
      (Resolver.locate c (.path p.absolute) r).1 = .ok (some d)) ∧
    ∀ p : Path, p.absolute.absolute = p.absolute := by
  constructor
  · intro c d p r hp hdepth hlocate
    rw [locate_moves c hp] at hlocate
    have hmoved : (moved? r.config p c).value = some d := Except.ok.inj hlocate
    have hstart : Arrived r.config c [] c := ⟨rfl, rfl⟩
    have harrived := hstart.foldl trivial hp (by omega) hdepth hmoved
    rw [locate_moves c hp.absolute]
    exact congrArg Except.ok harrived.arrives
  · intro p
    have hnil : Path.Reduced [] := trivial
    exact (hnil.foldl p).absolute_eq

/-- From an element of a list, down, up again, back to the top and down through an element that
is identified by its name. -/
theorem locate_absolute_nested :
    let found : Json := .obj [("n", .null), ("name", .str "x")]
    let list : Json := .arr [.bool true, found]
    let c : Cursor := ⟨.bool true, [(list, 0), (.obj [("a", list)], 0)]⟩
    let p : Path := [.tag .parent, .index (-1), .tag .root, .tag .current, .key "a", .index 0,
      .tag .parent, .key "x"]
    let d : Cursor := ⟨found, [(list, 1), (.obj [("a", list)], 0)]⟩
    let r : Resolver := .new .default
    p.absolute = [.tag .root, .key "a", .key "x"] ∧
      (Resolver.locate c (.path p.absolute) r).1 = .ok (some d) :=
  ⟨by cbv, locate_absolute.1 _ _ _ _ (by decide) (by cbv) (by cbv)⟩

end TreePath

import Mathlib
import TreePath.Proofs.Write.Deletion
import TreePath.Proofs.Write.Addressing

namespace TreePath

open TreeUpdate Json

/-- The position of an element, counted from the end if it is below zero. -/
def inRange? (i : Int64) (len : Nat) : Option Nat := (place? i len).filter fun k => k < len

/-- Takes out the element at a position, if there is one, and counts it. -/
def takeOut (i : Int64) (items : List Json) : Nat × List Json :=
  match inRange? i items.length with
  | some k => (1, items.eraseIdx k)
  | none => (0, items)

/-- Takes out the elements at the positions one after the other, and counts them. -/
def takeOutInTurn : List Int64 → List Json → Nat × List Json
  | [], items => (0, items)
  | i :: rest, items =>
    let first := takeOut i items
    let others := takeOutInTurn rest first.2
    (first.1 + others.1, others.2)

/-- When the element at `i` has been taken out of `len` elements, `j` still addresses the element
that it has addressed before: one in front of `i`, or one behind `i` counted from the end. -/
def Undisturbed (len : Nat) (i j : Int64) : Prop :=
  ∀ a ∈ inRange? i len, ∀ b ∈ inRange? j len, (0 ≤ j.toInt → b < a) ∧ (j.toInt < 0 → a < b)

instance (len : Nat) (i j : Int64) : Decidable (Undisturbed len i j) :=
  inferInstanceAs (Decidable (∀ a ∈ inRange? i len, ∀ b ∈ inRange? j len,
    (0 ≤ j.toInt → b < a) ∧ (j.toInt < 0 → a < b)))

/-- Positions behind the element at `a` move up by one when it goes. -/
def shifted (a b : Nat) : Nat := if b < a then b else b - 1

section Positions

variable {len a b : Nat} {i j k : Int64}

theorem inRange?_eq_some : inRange? i len = some a ↔
    a < len ∧ (0 ≤ i.toInt → i.toInt = a) ∧ (i.toInt < 0 → i.toInt + len = a) := by
  unfold inRange? place?
  rw [Option.filter_eq_some_iff]
  simp only [Option.ite_none_left_eq_some, Option.some.injEq, decide_eq_true_eq]
  split <;> omega

/-- What is not disturbed stands in front of the element that goes, or behind it and is counted from
the end. -/
theorem shifted_cases (ha : inRange? i len = some a) (hb : inRange? j len = some b)
    (h : Undisturbed len i j) :
    shifted a b = b ∧ b < a ∧ 0 ≤ j.toInt ∨ shifted a b + 1 = b ∧ a < b ∧ j.toInt < 0 := by
  obtain ⟨hfront, hback⟩ := h a ha b hb
  unfold shifted
  split <;> omega

/-- A position that is not disturbed addresses the same element as before. -/
theorem inRange?_shifted (ha : inRange? i len = some a) (h : Undisturbed len i j) :
    inRange? j (len - 1) = (inRange? j len).map (shifted a) := by
  have hlt := (inRange?_eq_some.mp ha).1
  ext c
  rw [Option.map_eq_some_iff, inRange?_eq_some]
  constructor
  · rintro ⟨hc, hfront, hback⟩
    by_cases hneg : j.toInt < 0
    · have hj : inRange? j len = some (c + 1) := inRange?_eq_some.mpr (by omega)
      have hcases := shifted_cases ha hj h
      exact ⟨c + 1, hj, by omega⟩
    · have hj : inRange? j len = some c := inRange?_eq_some.mpr (by omega)
      have hcases := shifted_cases ha hj h
      exact ⟨c, hj, by omega⟩
  · rintro ⟨b, hj, rfl⟩
    have hb := inRange?_eq_some.mp hj
    have hcases := shifted_cases ha hj h
    omega

/-- Positions that do not disturb each other do not do so either once another element has gone that
disturbs none of them. -/
theorem undisturbed_shifted (ha : inRange? i len = some a) (hj : Undisturbed len i j)
    (hk : Undisturbed len i k) (h : Undisturbed len j k) : Undisturbed (len - 1) j k := by
  intro b' hb' c' hc'
  rw [Option.mem_def, inRange?_shifted ha hj] at hb'
  rw [Option.mem_def, inRange?_shifted ha hk] at hc'
  obtain ⟨b, hb, rfl⟩ := Option.map_eq_some_iff.mp hb'
  obtain ⟨c, hc, rfl⟩ := Option.map_eq_some_iff.mp hc'
  have hbc := h b hb c hc
  have hbcases := shifted_cases ha hb hj
  have hccases := shifted_cases ha hc hk
  omega

/-- The positions in a sequence of `len` elements. -/
def positions (is : List Int64) (len : Nat) : List Nat := is.filterMap fun i => inRange? i len

theorem positions_shifted {is : List Int64} (ha : inRange? i len = some a)
    (h : ∀ j ∈ is, Undisturbed len i j) :
    positions is (len - 1) = (positions is len).map (shifted a) := by
  rw [positions, positions, List.map_filterMap]
  exact List.filterMap_congr fun j hj => inRange?_shifted ha (h j hj)

theorem mem_shifted {places : List Nat} (k : Nat)
    (h : ∀ b ∈ places, shifted a b = b ∧ b < a ∨ shifted a b + 1 = b ∧ a < b) :
    k ∈ places.map (shifted a) ↔ k < a ∧ k ∈ places ∨ a ≤ k ∧ k + 1 ∈ places := by
  rw [List.mem_map]
  constructor
  · rintro ⟨b, hb, rfl⟩
    rcases h b hb with ⟨hsame, hlt⟩ | ⟨hup, hgt⟩
    · rw [hsame]
      exact .inl ⟨hlt, hb⟩
    · rw [hup]
      exact .inr ⟨by omega, hb⟩
  · rintro (⟨hlt, hk⟩ | ⟨hle, hk⟩)
    · have hcases := h k hk
      exact ⟨k, hk, by omega⟩
    · have hcases := h (k + 1) hk
      exact ⟨k + 1, hk, by omega⟩

theorem positions_nodup {is : List Int64} (h : is.Pairwise (Undisturbed len)) :
    (positions is len).Nodup := by
  refine List.Pairwise.filterMap _ (fun i j hij a ha b hb => ?_) h
  have hside := hij a ha b hb
  omega

end Positions

section Taking

theorem takeOut_of_none {i : Int64} {items : List Json} (h : inRange? i items.length = none) :
    takeOut i items = (0, items) := by
  unfold takeOut
  rw [h]

theorem takeOut_of_some {i : Int64} {items : List Json} {a : Nat}
    (h : inRange? i items.length = some a) : takeOut i items = (1, items.eraseIdx a) := by
  unfold takeOut
  rw [h]

/-- To drop the element at `a` first, and then the others where they have moved to, is to drop all
of them. -/
theorem dropChildren_shifted {items : List Json} {a : Nat} {places : List Nat}
    (h : ∀ b ∈ places, shifted a b = b ∧ b < a ∨ shifted a b + 1 = b ∧ a < b) :
    (Json.arr (items.eraseIdx a)).dropChildren ((places.map (shifted a)).map .index) =
      (Json.arr items).dropChildren ((a :: places).map .index) := by
  have hindex : ∀ (k : Nat) (places : List Nat),
      ChildKey.index k ∈ places.map ChildKey.index ↔ k ∈ places := by simp
  rw [dropChildren_arr, dropChildren_arr]
  apply congrArg Json.arr
  simp only [hindex, mem_shifted _ h]
  refine filterMap_eraseIdx items 0 (fun v k hk => ?_) (fun v => by simp) fun v k hk => ?_
  · have hne : k ≠ a := by omega
    have hlt : k < a := by omega
    have hnot : ¬a ≤ k := by omega
    simp [hne, hlt, hnot]
  · have hne : k + 1 ≠ a := by omega
    have hle : a ≤ k := by omega
    have hnot : ¬k < a := by omega
    simp [hne, hle, hnot]

/-- What is taken out in turn is what the positions address beforehand, if they do not disturb each
other. -/
theorem takeOutInTurn_eq {is : List Int64} {items : List Json}
    (h : is.Pairwise (Undisturbed items.length)) :
    (takeOutInTurn is items).1 = (positions is items.length).length ∧
      Json.arr (takeOutInTurn is items).2 =
        (Json.arr items).dropChildren ((positions is items.length).map .index) := by
  induction is generalizing items with
  | nil => exact ⟨rfl, (editChildren_keep fun key v _ => by simp [positions]).symm⟩
  | cons i rest ih =>
    obtain ⟨hi, hrest⟩ := List.pairwise_cons.mp h
    cases ha : inRange? i items.length with
    | none =>
      have hsame : positions (i :: rest) items.length = positions rest items.length :=
        List.filterMap_cons_none ha
      rw [takeOutInTurn, takeOut_of_none ha, hsame, Nat.zero_add]
      exact ih hrest
    | some a =>
      have hlt := (inRange?_eq_some.mp ha).1
      have hlength : (items.eraseIdx a).length = items.length - 1 := List.length_eraseIdx_of_lt hlt
      have hall : positions (i :: rest) items.length = a :: positions rest items.length :=
        List.filterMap_cons_some ha
      have hleft : rest.Pairwise (Undisturbed (items.eraseIdx a).length) := by
        rw [hlength]
        exact hrest.imp_of_mem fun hj hk hjk => undisturbed_shifted ha (hi _ hj) (hi _ hk) hjk
      have hsides : ∀ b ∈ positions rest items.length,
          shifted a b = b ∧ b < a ∨ shifted a b + 1 = b ∧ a < b := by
        intro b hb
        obtain ⟨j, hj, hjb⟩ := List.mem_filterMap.mp hb
        have hcases := shifted_cases ha hjb (hi j hj)
        omega
      obtain ⟨hcount, htree⟩ := ih hleft
      rw [hlength, positions_shifted ha hi] at hcount htree
      rw [takeOutInTurn, takeOut_of_some ha, hall]
      refine ⟨?_, htree.trans (dropChildren_shifted hsides)⟩
      rw [hcount, List.length_map, List.length_cons, Nat.add_comm]

end Taking

section Writing

variable (config : Config) {patch : Patch} {items : List Json}

theorem enter_index_removal (done : Path) (i : Int64) :
    (enter config done (.index i) true : Write Json (Option ChildKey)) (.arr items) =
      ⟨.ok ((place? i items.length).map .index), .arr items, 0⟩ := by
  have hcontainer : (Write.step (TreeUpdate.ensureContainer (Segment.index i).container) :
      Write Json Bool) (.arr items) = ⟨.ok true, .arr items, 0⟩ := rfl
  have hcount : childCount (Json.arr items) = items.length := rfl
  unfold enter
  refine (Write.view_bind_apply _ _ _).trans ((Write.bind_ok hcontainer _).trans ?_)
  rw [if_pos rfl]
  refine (Write.view_bind_apply _ _ _).trans ((Write.view_bind_apply _ _ _).trans ?_)
  rw [hcount]
  cases place? i items.length <;> rfl

theorem writeAt_index_removal (hvalue : patch.value = none) (done : Path) (i : Int64) {depth : Nat}
    (hdepth : depth ≤ config.maxDepth) :
    (writeAt config patch done [.index i] depth : Write Json Nat) (.arr items) =
      ⟨.ok (takeOut i items).1, .arr (takeOut i items).2, 0⟩ := by
  have hremoval := Patch.isRemoval_of_none hvalue
  have hresolve := Patch.resolve_of_none hvalue
  rw [writeAt, if_neg (by omega), writeOn_concrete config patch done rfl, hremoval,
    Write.bind_ok (enter_index_removal config done i)]
  unfold takeOut inRange?
  cases hplace : place? i items.length with
  | none => rfl
  | some k =>
    have hpatched : (apply (some (.index k)) patch : Write Json Nat) (.arr items) =
        ⟨.ok ((Json.arr items).patchedChild (.index k) patch).1,
          ((Json.arr items).patchedChild (.index k) patch).2, 0⟩ := rfl
    change (writeBelow config patch done (.index i) [] depth (.index k) : Write Json Nat) _ = _
    rw [writeBelow, finish_removal config hvalue, hpatched, patchedChild]
    by_cases hk : k < items.length
    · simp only [List.getElem?_eq_getElem hk, hresolve, Option.filter, hk, decide_true, if_true]
    · simp [hresolve, Option.filter, hk]

theorem writeAlternately_indices (hvalue : patch.value = none) (is : List Int64) {depth : Nat}
    (hdepth : depth ≤ config.maxDepth) :
    (writeAlternately config patch (is.map fun i => [.index i]) [] depth : Write Json Nat)
        (.arr items) =
      ⟨.ok (takeOutInTurn is items).1, .arr (takeOutInTurn is items).2, 0⟩ := by
  induction is generalizing items with
  | nil => rw [List.map_nil, writeAlternately]; rfl
  | cons i rest ih =>
    have hfirst := @writeAt_index_removal config patch items hvalue [] i depth hdepth
    rw [List.map_cons, writeAlternately]
    change (writeAt config patch [] [.index i] depth >>= _) _ = _
    rw [Write.bind_ok hfirst, Write.bind_ok ih, takeOutInTurn]
    rfl

end Writing

section Resolving

/-- Removal through a union of positions deletes in turn: each position is looked up in what the
ones before it have left. When none of them disturbs a later one, exactly the elements go that the
positions address in the sequence as it was, each of them counted once. -/
theorem remove_union_undisturbed (items : List Json) (is : List Int64) (named : Bool) (r : Resolver)
    (hdepth : 1 ≤ r.config.maxDepth) (h : is.Pairwise (Undisturbed items.length)) :
    let places : List Location := (positions is items.length).map fun k => [.index k]
    places.Nodup ∧
      (Resolver.remove (.arr items) (.path [.union (is.map fun i => [.index i]) named]) r).1 =
        (.ok places.length, (Json.arr items).without fun l => decide (l ∈ places)) := by
  intro places
  have hpaths : ∀ p ∈ is.map fun i => [Segment.index i], Path.SelectsChildren p := by
    intro p hp s hs
    obtain ⟨i, -, rfl⟩ := List.mem_map.mp hp
    obtain rfl := List.mem_singleton.mp hs
    rfl
  have hrun : (Resolver.remove (.arr items)
      (.path [.union (is.map fun i => [.index i]) named]) r).1 =
      let o := (writeAt r.config .remove [] [.union (is.map fun i => [.index i]) named] 0 :
        Write Json Nat) (.arr items)
      (o.result, o.tree) := by
    have hnil : Path.SelectsChildren [] := fun s hs => absurd hs List.not_mem_nil
    have hunion : (write r.config [.union (is.map fun i => [.index i]) named] .remove :
        Write Json Nat) = writeAt r.config .remove [] [.union (is.map fun i => [.index i]) named] 0 :=
      write_union hnil hpaths hnil named r.config .remove
    rw [← hunion]
    rfl
  obtain ⟨hcount, htree⟩ := takeOutInTurn_eq h
  refine ⟨(positions_nodup h).map fun a b hab => by simpa using hab, ?_⟩
  rw [hrun, writeAt, if_neg (by omega), writeOn,
    writeAlternately_indices r.config rfl is (by omega)]
  rw [hcount, htree, dropChildren_eq_without, List.map_map, List.length_map]
  rfl

theorem remove_union_undisturbed_four :
    let a : Json := .str "a"
    let b : Json := .str "b"
    let c : Json := .str "c"
    let d : Json := .str "d"
    let is : List Int64 := [1, 0, -1, 7]
    let r : Resolver := .new .default
    1 ≤ r.config.maxDepth ∧ is.Pairwise (Undisturbed 4) ∧
      let places : List Location := (positions is 4).map fun k => [.index k]
      places.Nodup ∧
        (Resolver.remove (.arr [a, b, c, d])
            (.path [.union (is.map fun i => [.index i]) true]) r).1 =
          (.ok places.length, (Json.arr [a, b, c, d]).without fun l => decide (l ∈ places)) := by
  intro a b c d is r
  have hdepth : 1 ≤ r.config.maxDepth := by decide
  have hundisturbed : is.Pairwise (Undisturbed 4) := by decide
  exact ⟨hdepth, hundisturbed, remove_union_undisturbed [a, b, c, d] is true r hdepth hundisturbed⟩

/-- In ascending order the first position disturbs the second one: of three elements the one in the
middle is left, although it is addressed, and the last one goes, which is not. -/
theorem remove_union_ascending :
    let t : Json := .arr [.str "a", .str "b", .str "c"]
    let r : Resolver := .new .default
    (Resolver.remove t (.path [.union [[.index 0], [.index 1]] false]) r).1 =
        (.ok 2, .arr [.str "b"]) ∧
      t.without (fun l => decide (l ∈ [[.index 0], [ChildKey.index 1]])) = .arr [.str "c"] := by
  intro t r
  refine ⟨?_, ?_⟩
  · cbv
  · cbv

end Resolving

end TreePath

import TreePath.Proofs.Tree.Location
import TreePath.Proofs.Write.Place

namespace TreePath

namespace Json

/-- The value stands at the location. -/
def Has (t : Json) : Location → Json → Prop
  | [], v => v = t
  | key :: rest, v => ∃ c, (key, c) ∈ t.children ∧ c.Has rest v

/-- The key is one of those under which the container lists its children. -/
def Lists (t : Json) (key : ChildKey) : Prop :=
  match t, key with
  | .obj _, .name _ => True
  | .arr _, .index _ => True
  | _, _ => False

section Standing

variable {t v w c : Json} {key k : ChildKey} {l : Location}

/-- Where there are no children, only the value itself stands somewhere. -/
theorem Has.of_childless (hnone : t.children = []) (h : t.Has l v) : l = [] ∧ v = t := by
  cases l with
  | nil => exact ⟨rfl, h⟩
  | cons key l =>
    obtain ⟨c, hc, -⟩ := h
    rw [hnone] at hc
    exact absurd hc List.not_mem_nil

theorem children_null : Json.null.children = [] := rfl

theorem children_emptyValue (kind : NodeKind) : kind.emptyValue.children = [] := by
  cases kind <;> rfl

theorem Lists.accepts (h : t.Lists key) : t.Accepts key := by
  cases t with
  | obj fields => trivial
  | arr items =>
    cases key with
    | name n => exact absurd h id
    | index i => trivial
  | null | bool | num | str => cases key <;> exact absurd h id

theorem lists_of_mem (h : (key, c) ∈ t.children) : t.Lists key := by
  cases t with
  | obj fields =>
    obtain ⟨name, rfl, -⟩ := mem_children_obj.mp h
    trivial
  | arr items =>
    obtain ⟨i, rfl, -⟩ := mem_children_arr.mp h
    trivial
  | null | bool | num | str => exact absurd h List.not_mem_nil

theorem mem_children_iff (ht : t.WellFormed) (hk : t.Lists key) :
    (key, c) ∈ t.children ↔ t.child? key = some c := by
  refine ⟨child?_of_mem ht, fun hc => ?_⟩
  cases t with
  | obj fields =>
    cases key with
    | name n =>
      rw [child?_obj] at hc
      exact mem_children_obj.mpr ⟨n, rfl, Fields.mem_of_find? hc⟩
    | index i => exact absurd hk id
  | arr items =>
    cases key with
    | name n => exact absurd hk id
    | index i => exact mem_children_arr.mpr ⟨i, rfl, hc⟩
  | null | bool | num | str => cases key <;> exact absurd hk id

/-- A child is looked up and put in as under one of the keys that are listed: a mapping knows a
position by its name. -/
theorem Accepts.exists_lists (h : t.Accepts key) :
    ∃ k, t.Lists k ∧ t.child? key = t.child? k ∧ ∀ w, t.putChild key w = t.putChild k w := by
  cases t with
  | obj fields => exact ⟨.name key.asName, trivial, by simp [ChildKey.asName], by simp [ChildKey.asName]⟩
  | arr items =>
    cases key with
    | name n => exact absurd h id
    | index i => exact ⟨.index i, trivial, rfl, fun _ => rfl⟩
  | null | bool | num | str => exact absurd h id

theorem kind_putChild (t : Json) (key : ChildKey) (w : Json) : (t.putChild key w).kind = t.kind := by
  cases t with
  | obj fields => cases key <;> rfl
  | arr items => cases key <;> rfl
  | null | bool | num | str => cases key <;> rfl

theorem lists_putChild (h : t.Lists key) (k : ChildKey) (w : Json) :
    (t.putChild k w).Lists key := by
  cases t with
  | obj fields =>
    rw [putChild_obj]
    cases key <;> exact h
  | arr items => cases k <;> cases key <;> exact h
  | null | bool | num | str => cases key <;> exact absurd h id

/-- The slots that are filled up with null when a child is put in behind the end of a sequence. -/
def Padded (t : Json) (k key : ChildKey) : Prop :=
  ∃ i j, k = .index i ∧ key = .index j ∧ t.size ≤ j ∧ j < i

theorem mem_padded {items : List Json} {i j : Nat} (hne : j ≠ i) :
    ((padded items (i + 1)).set i w)[j]? = some c ↔
      items[j]? = some c ∨ c = .null ∧ items.length ≤ j ∧ j < i := by
  rw [List.getElem?_set_ne (Ne.symm hne), padded, List.getElem?_append]
  split
  · next hlt =>
    rw [List.getElem?_eq_getElem hlt]
    constructor
    · exact .inl
    · rintro (h | ⟨-, hle, -⟩)
      · exact h
      · omega
  · next hge =>
    have hnone : items[j]? = none := List.getElem?_eq_none (Nat.le_of_not_lt hge)
    rw [hnone, List.getElem?_replicate]
    split
    · next hlt =>
      constructor
      · intro h
        exact .inr ⟨(Option.some.inj h).symm, by omega, by omega⟩
      · rintro (h | ⟨rfl, -⟩)
        · cases h
        · rfl
    · next hnot =>
      constructor
      · intro h
        cases h
      · rintro (h | ⟨-, -, hlt⟩)
        · cases h
        · omega

/-- A child that is put in stands at its key; beside it stands what has stood there, or a slot that
has been filled up. -/
theorem mem_children_put (ht : t.WellFormed) (hk : t.Lists k) :
    (key, c) ∈ (t.putChild k w).children ↔
      key = k ∧ c = w ∨ key ≠ k ∧ ((key, c) ∈ t.children ∨ c = .null ∧ t.Padded k key) := by
  cases t with
  | obj fields =>
    cases k with
    | index i => exact absurd hk id
    | name n =>
      rw [putChild_obj, mem_children_obj, mem_children_obj, ChildKey.asName]
      have hasc := Fields.ascending_insert ht.1 n w
      have hfind : ∀ (m : String) (fields : List (String × Json)), Fields.Ascending fields →
          ((m, c) ∈ fields ↔ Fields.find? fields m = some c) := fun m fields ha =>
        ⟨Fields.find?_of_mem ha, Fields.mem_of_find?⟩
      constructor
      · rintro ⟨m, rfl, hmem⟩
        rw [hfind m _ hasc] at hmem
        by_cases hm : m = n
        · subst hm
          rw [Fields.find?_insert_self] at hmem
          exact .inl ⟨rfl, (Option.some.inj hmem).symm⟩
        · rw [Fields.find?_insert_of_ne w hm, ← hfind m _ ht.1] at hmem
          exact .inr ⟨by simpa using hm, .inl ⟨m, rfl, hmem⟩⟩
      · rintro (⟨rfl, rfl⟩ | ⟨hne, ⟨m, rfl, hmem⟩ | ⟨-, i, j, hi, -⟩⟩)
        · exact ⟨n, rfl, (hfind n _ hasc).mpr (Fields.find?_insert_self _ _ _)⟩
        · have hm : m ≠ n := fun h => hne (congrArg _ h)
          refine ⟨m, rfl, (hfind m _ hasc).mpr ?_⟩
          rw [Fields.find?_insert_of_ne w hm, ← hfind m _ ht.1]
          exact hmem
        · cases hi
  | arr items =>
    cases k with
    | name n => exact absurd hk id
    | index i =>
      rw [putChild, mem_children_arr, mem_children_arr]
      constructor
      · rintro ⟨j, rfl, hget⟩
        by_cases hj : j = i
        · subst hj
          rw [List.getElem?_set_self (lt_length_padded items j)] at hget
          exact .inl ⟨rfl, (Option.some.inj hget).symm⟩
        · refine .inr ⟨by simpa using hj, ?_⟩
          rcases (mem_padded hj).mp hget with h | ⟨hnull, hle, hlt⟩
          · exact .inl ⟨j, rfl, h⟩
          · exact .inr ⟨hnull, i, j, rfl, rfl, hle, hlt⟩
      · rintro (⟨rfl, rfl⟩ | ⟨hne, ⟨j, rfl, hget⟩ | ⟨hnull, i', j, hi, rfl, hle, hlt⟩⟩)
        · exact ⟨i, rfl, List.getElem?_set_self (lt_length_padded items i)⟩
        · have hj : j ≠ i := fun h => hne (congrArg _ h)
          exact ⟨j, rfl, (mem_padded hj).mpr (.inl hget)⟩
        · obtain rfl : i = i' := ChildKey.index.inj hi
          have hj : j ≠ i := fun h => hne (congrArg _ h)
          exact ⟨j, rfl, (mem_padded hj).mpr (.inr ⟨hnull, hle, hlt⟩)⟩
  | null | bool | num | str => cases k <;> exact absurd hk id

/-- Where there is a child, another one takes its place, and the others stay. -/
theorem mem_children_exchange {old : Json} (ht : t.WellFormed) (hold : (k, old) ∈ t.children) :
    (key, c) ∈ (t.putChild k w).children ↔
      key = k ∧ c = w ∨ key ≠ k ∧ (key, c) ∈ t.children := by
  have hnone : ¬t.Padded k key := by
    rintro ⟨i, j, rfl, rfl, hle, hlt⟩
    cases t with
    | arr items =>
      obtain ⟨_, ⟨⟩, hget⟩ := mem_children_arr.mp hold
      obtain ⟨hi, -⟩ := List.getElem?_eq_some_iff.mp hget
      have hsize : (Json.arr items).size = items.length := rfl
      omega
    | obj fields =>
      obtain ⟨_, ⟨⟩, -⟩ := mem_children_obj.mp hold
    | null | bool | num | str => exact absurd hold List.not_mem_nil
  rw [mem_children_put ht (lists_of_mem hold)]
  simp only [hnone, and_false, or_false]

end Standing

end Json

end TreePath

namespace TreePath

/-- Names with what they stand for. The operations keep the names strictly ascending. -/
abbrev Fields (α : Type) := List (String × α)

namespace Fields

variable {α β : Type}

/-- Strictly ascending names; in particular no name stands twice. -/
def Ascending (fields : List (String × α)) : Prop :=
  fields.Pairwise fun a b => a.1 < b.1

def find? (fields : List (String × α)) (name : String) : Option α :=
  match fields with
  | [] => none
  | (n, a) :: rest => if n = name then some a else find? rest name

/-- Where `name` stands among the fields. -/
def position? (fields : List (String × α)) (name : String) : Option Nat :=
  match fields with
  | [] => none
  | (n, _) :: rest => if n = name then some 0 else (position? rest name).map (· + 1)

/-- Puts `a` at `name`, in its place in the order, or instead of what `name` stood for. -/
def insert (fields : List (String × α)) (name : String) (a : α) : List (String × α) :=
  match fields with
  | [] => [(name, a)]
  | (n, b) :: rest =>
    if n = name then (name, a) :: rest
    else if name < n then (name, a) :: (n, b) :: rest
    else (n, b) :: insert rest name a

def erase (fields : List (String × α)) (name : String) : List (String × α) :=
  match fields with
  | [] => []
  | (n, b) :: rest => if n = name then rest else (n, b) :: erase rest name

/-- The fields that a list of pairs leaves when they are inserted one after the other: the last
one of a name stays. -/
def ofList (pairs : List (String × α)) : List (String × α) :=
  pairs.foldl (fun fields pair => insert fields pair.1 pair.2) []

def names (fields : List (String × α)) : List String := fields.map (·.1)

theorem find?_insert_self (fields : List (String × α)) (name : String) (a : α) :
    find? (insert fields name a) name = some a := by
  induction fields with
  | nil => simp [insert, find?]
  | cons field rest ih =>
    obtain ⟨n, b⟩ := field
    by_cases h : n = name
    · simp [insert, find?, h]
    · by_cases hlt : name < n <;> simp [insert, find?, h, hlt, ih]

theorem find?_insert_of_ne {fields : List (String × α)} {name other : String} (a : α)
    (hne : other ≠ name) : find? (insert fields name a) other = find? fields other := by
  have hne' : ¬ name = other := fun h => hne h.symm
  induction fields with
  | nil => simp [insert, find?, hne']
  | cons field rest ih =>
    obtain ⟨n, b⟩ := field
    by_cases h : n = name
    · subst h
      simp [insert, find?, hne']
    · by_cases hlt : name < n <;> simp [insert, find?, h, hlt, hne', ih]

end Fields

end TreePath

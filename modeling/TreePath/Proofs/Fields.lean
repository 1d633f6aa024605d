import TreePath.Fields

namespace TreePath.Fields

variable {α β : Type}

theorem ascending_cons {n : String} {a : α} {fields : List (String × α)} :
    Ascending ((n, a) :: fields) ↔ (∀ f ∈ fields, n < f.1) ∧ Ascending fields :=
  List.pairwise_cons

theorem ascending_single (name : String) (a : α) : Ascending [(name, a)] :=
  List.pairwise_singleton _ _

theorem ascending_pair {name other : String} (h : name < other) (a b : α) :
    Ascending [(name, a), (other, b)] :=
  List.pairwise_pair.mpr h

/-- A name above all others goes to the end. -/
theorem insert_concat {fields : List (String × α)} {name : String} {a : α}
    (h : ∀ f ∈ fields, f.1 < name) : insert fields name a = fields ++ [(name, a)] := by
  induction fields with
  | nil => rfl
  | cons field rest ih =>
    obtain ⟨n, b⟩ := field
    have hn : n < name := h (n, b) (by simp)
    have hne : n ≠ name := fun he => String.lt_irrefl _ (he ▸ hn)
    have hrest := ih fun f hf => h f (List.mem_cons_of_mem _ hf)
    simp [insert, hne, String.lt_asymm hn, hrest]

theorem foldl_insert (done : List (String × α)) {fields : List (String × α)}
    (h : Ascending (done ++ fields)) :
    fields.foldl (fun fields pair => insert fields pair.1 pair.2) done = done ++ fields := by
  induction fields generalizing done with
  | nil => simp
  | cons field rest ih =>
    have hbelow : ∀ f ∈ done, f.1 < field.1 := fun f hf =>
      (List.pairwise_append.mp h).2.2 f hf field (by simp)
    rw [List.foldl_cons, insert_concat hbelow, ih _ (by simpa using h)]
    simp

theorem ofList_ascending {fields : List (String × α)} (h : Ascending fields) :
    ofList fields = fields :=
  foldl_insert [] h

theorem mem_of_find? {fields : List (String × α)} {name : String} {a : α}
    (h : find? fields name = some a) : (name, a) ∈ fields := by
  induction fields with
  | nil => simp [find?] at h
  | cons field rest ih =>
    obtain ⟨n, b⟩ := field
    rw [find?] at h
    split at h
    · next hn =>
      obtain rfl := Option.some.inj h
      simp [hn]
    · exact List.mem_cons_of_mem _ (ih h)

/-- Each name stands for what is listed with it. -/
theorem find?_of_mem {fields : List (String × α)} (h : Ascending fields) {name : String} {a : α}
    (hmem : (name, a) ∈ fields) : find? fields name = some a := by
  induction fields with
  | nil => simp at hmem
  | cons field rest ih =>
    obtain ⟨n, b⟩ := field
    obtain ⟨hn, hrest⟩ := ascending_cons.mp h
    rcases List.mem_cons.mp hmem with heq | hmem
    · obtain ⟨rfl, rfl⟩ := Prod.mk.inj heq
      simp [find?]
    · have hne : n ≠ name := fun he => String.lt_irrefl _ (he ▸ hn _ hmem)
      rw [find?, if_neg hne]
      exact ih hrest hmem

theorem nodup_names {fields : List (String × α)} (h : Ascending fields) :
    (fields.map Prod.fst).Nodup := by
  refine List.pairwise_map.mpr (List.Pairwise.imp ?_ h)
  intro a b hlt heq
  exact String.lt_irrefl _ (heq ▸ hlt)

/-- Fields in order are told apart by what the names stand for. -/
theorem ext {fields others : List (String × α)} (h : Ascending fields) (h' : Ascending others)
    (hsame : ∀ name, find? fields name = find? others name) : fields = others := by
  have hmem : ∀ f, f ∈ fields ↔ f ∈ others := by
    rintro ⟨name, a⟩
    constructor
    · intro hf
      exact mem_of_find? ((hsame name).symm.trans (find?_of_mem h hf))
    · intro hf
      exact mem_of_find? ((hsame name).trans (find?_of_mem h' hf))
  have hnodup : ∀ {l : List (String × α)}, Ascending l → l.Nodup := by
    intro l hl
    refine List.Pairwise.imp (fun {a b} hlt he => ?_) hl
    exact String.lt_irrefl _ (he ▸ hlt)
  have hperm := (List.perm_ext_iff_of_nodup (hnodup h) (hnodup h')).mpr hmem
  refine hperm.eq_of_pairwise (fun a b _ _ hab hba => ?_) h h'
  exact absurd (String.lt_trans hab hba) (String.lt_irrefl _)

theorem find?_map (f : α → β) (fields : List (String × α)) (name : String) :
    find? (fields.map fun field => (field.1, f field.2)) name = (find? fields name).map f := by
  induction fields with
  | nil => rfl
  | cons field rest ih =>
    obtain ⟨n, a⟩ := field
    simp only [List.map_cons, find?]
    split
    · rfl
    · exact ih

/-- Behind the first field stand only larger names. -/
theorem lt_of_find? {n name : String} {a b : α} {rest : List (String × α)}
    (h : Ascending ((n, a) :: rest)) (hf : find? rest name = some b) : n < name :=
  (ascending_cons.mp h).1 _ (mem_of_find? hf)

theorem mem_insert {fields : List (String × α)} {name : String} {a : α} {f : String × α}
    (h : f ∈ insert fields name a) : f = (name, a) ∨ f ∈ fields := by
  induction fields with
  | nil => exact .inl (by simpa [insert] using h)
  | cons field rest ih =>
    obtain ⟨n, b⟩ := field
    rw [insert] at h
    split at h
    · rcases List.mem_cons.mp h with h | h
      · exact .inl h
      · exact .inr (List.mem_cons_of_mem _ h)
    · split at h
      · exact List.mem_cons.mp h
      · rcases List.mem_cons.mp h with h | h
        · exact .inr (by simp [h])
        · exact (ih h).imp_right (List.mem_cons_of_mem _)

theorem mem_insert_of_ne {fields : List (String × α)} {name : String} {f : String × α}
    (hf : f ∈ fields) (hne : f.1 ≠ name) (a : α) : f ∈ insert fields name a := by
  induction fields with
  | nil => cases hf
  | cons field rest ih =>
    obtain ⟨n, b⟩ := field
    rw [insert]
    rcases List.mem_cons.mp hf with rfl | hrest
    · rw [if_neg hne]
      split <;> simp
    · split
      · exact List.mem_cons_of_mem _ hrest
      · split
        · exact List.mem_cons_of_mem _ hf
        · exact List.mem_cons_of_mem _ (ih hrest)

theorem ascending_insert {fields : List (String × α)} (h : Ascending fields) (name : String)
    (a : α) : Ascending (insert fields name a) := by
  induction fields with
  | nil => exact List.pairwise_singleton _ _
  | cons field rest ih =>
    obtain ⟨n, b⟩ := field
    obtain ⟨hn, hrest⟩ := ascending_cons.mp h
    rw [insert]
    split
    · next heq => exact ascending_cons.mpr ⟨heq ▸ hn, hrest⟩
    · next hne =>
      split
      · next hlt =>
        refine ascending_cons.mpr ⟨fun f hf => ?_, h⟩
        rcases List.mem_cons.mp hf with rfl | hf
        · exact hlt
        · exact String.lt_trans hlt (hn f hf)
      · next hnot =>
        refine ascending_cons.mpr ⟨fun f hf => ?_, ih hrest⟩
        rcases mem_insert hf with rfl | hf
        · refine Decidable.byContradiction fun hnot' => hne ?_
          exact String.le_antisymm (String.not_lt.mp hnot) (String.not_lt.mp hnot')
        · exact hn f hf

theorem ascending_foldl {done : List (String × α)} (h : Ascending done)
    (pairs : List (String × α)) :
    Ascending (pairs.foldl (fun fields pair => insert fields pair.1 pair.2) done) := by
  induction pairs generalizing done with
  | nil => exact h
  | cons pair rest ih => exact ih (ascending_insert h _ _)

theorem ascending_ofList (pairs : List (String × α)) : Ascending (ofList pairs) :=
  ascending_foldl List.Pairwise.nil pairs

theorem find?_foldl (done pairs : List (String × α)) (name : String) :
    find? (pairs.foldl (fun fields pair => insert fields pair.1 pair.2) done) name =
      ((pairs.reverse.find? fun pair => pair.1 = name).map Prod.snd).or (find? done name) := by
  induction pairs generalizing done with
  | nil => rfl
  | cons pair rest ih =>
    rw [List.foldl_cons, ih, List.reverse_cons, List.find?_append]
    cases rest.reverse.find? fun pair => pair.1 = name with
    | some found => rfl
    | none =>
      by_cases hname : pair.1 = name
      · simp [hname, find?_insert_self]
      · simp [hname, find?_insert_of_ne pair.2 (Ne.symm hname)]

/-- Of the pairs of one name, the last one stays. -/
theorem find?_ofList (pairs : List (String × α)) (name : String) :
    find? (ofList pairs) name =
      (pairs.reverse.find? fun pair => pair.1 = name).map Prod.snd := by
  rw [ofList, find?_foldl]
  exact Option.or_none

theorem mem_erase {fields : List (String × α)} {name : String} {f : String × α}
    (h : f ∈ erase fields name) : f ∈ fields := by
  induction fields with
  | nil => simp [erase] at h
  | cons field rest ih =>
    obtain ⟨n, b⟩ := field
    rw [erase] at h
    split at h
    · exact List.mem_cons_of_mem _ h
    · rcases List.mem_cons.mp h with h | h
      · simp [h]
      · exact List.mem_cons_of_mem _ (ih h)

theorem ascending_erase {fields : List (String × α)} (h : Ascending fields) (name : String) :
    Ascending (erase fields name) := by
  induction fields with
  | nil => exact h
  | cons field rest ih =>
    obtain ⟨n, b⟩ := field
    obtain ⟨hn, hrest⟩ := ascending_cons.mp h
    rw [erase]
    split
    · exact hrest
    · exact ascending_cons.mpr ⟨fun f hf => hn f (mem_erase hf), ih hrest⟩

theorem insert_insert (fields : List (String × α)) (name : String) (a b : α) :
    insert (insert fields name a) name b = insert fields name b := by
  induction fields with
  | nil => simp [insert]
  | cons field rest ih =>
    obtain ⟨n, c⟩ := field
    by_cases hn : n = name
    · simp [insert, hn]
    · by_cases hlt : name < n
      · simp [insert, hn, hlt]
      · simp [insert, hn, hlt, ih]

/-- To put in what is there changes nothing. -/
theorem insert_find? {fields : List (String × α)} {name : String} {a : α}
    (h : Ascending fields) (hf : find? fields name = some a) : insert fields name a = fields := by
  induction fields with
  | nil => simp [find?] at hf
  | cons field rest ih =>
    obtain ⟨n, b⟩ := field
    by_cases hn : n = name
    · simp only [find?, hn, if_true, Option.some.injEq] at hf
      simp [insert, hn, hf]
    · simp only [find?, hn, if_false] at hf
      have hlt : ¬name < n := String.lt_asymm (lt_of_find? h hf)
      simp [insert, hn, hlt, ih (ascending_cons.mp h).2 hf]

theorem erase_eq_self {fields : List (String × α)} {name : String}
    (hf : find? fields name = none) : erase fields name = fields := by
  induction fields with
  | nil => rfl
  | cons field rest ih =>
    obtain ⟨n, b⟩ := field
    by_cases hn : n = name
    · simp [find?, hn] at hf
    · simp only [find?, hn, if_false] at hf
      simp [erase, hn, ih hf]

theorem find?_erase_of_ne {fields : List (String × α)} {name other : String}
    (hne : other ≠ name) : find? (erase fields name) other = find? fields other := by
  have hne' : ¬name = other := fun h => hne h.symm
  induction fields with
  | nil => rfl
  | cons field rest ih =>
    obtain ⟨n, b⟩ := field
    by_cases hn : n = name
    · simp [erase, find?, hn, hne']
    · simp [erase, find?, hn, ih]

theorem find?_erase_self {fields : List (String × α)} (h : Ascending fields) (name : String) :
    find? (erase fields name) name = none := by
  induction fields with
  | nil => rfl
  | cons field rest ih =>
    obtain ⟨n, b⟩ := field
    obtain ⟨hn, hrest⟩ := ascending_cons.mp h
    by_cases hname : n = name
    · cases hf : find? rest name with
      | none => simp [erase, hname, hf]
      | some a =>
        exact absurd (lt_of_find? h hf) (hname ▸ String.lt_irrefl n)
    · simp [erase, find?, hname, ih hrest]

/-- What is erased is what has the name. -/
theorem erase_eq_filter {fields : List (String × α)} (h : Ascending fields) (name : String) :
    erase fields name = fields.filter fun f => f.1 ≠ name := by
  induction fields with
  | nil => rfl
  | cons field rest ih =>
    obtain ⟨n, a⟩ := field
    obtain ⟨hn, hrest⟩ := ascending_cons.mp h
    by_cases hname : n = name
    · have hother : ∀ f ∈ rest, decide (f.1 ≠ name) = true := fun f hf =>
        decide_eq_true fun he => String.lt_irrefl _ (he ▸ hname ▸ hn f hf)
      rw [erase, if_pos hname, List.filter_cons_of_neg (by simp [hname]),
        List.filter_eq_self.mpr hother]
    · rw [erase, if_neg hname, List.filter_cons_of_pos (by simp [hname]), ih hrest]

/-- To put something at a name that is there is to exchange what stands there. -/
theorem insert_eq_map {fields : List (String × α)} (h : Ascending fields) {name : String} {b : α}
    (hmem : (name, b) ∈ fields) (a : α) :
    insert fields name a = fields.map fun f => if f.1 = name then (f.1, a) else f := by
  induction fields with
  | nil => simp at hmem
  | cons field rest ih =>
    obtain ⟨n, c⟩ := field
    obtain ⟨hn, hrest⟩ := ascending_cons.mp h
    by_cases hname : n = name
    · have hother : ∀ f ∈ rest, (if f.1 = name then (f.1, a) else f) = f := fun f hf =>
        if_neg fun he => String.lt_irrefl _ (he ▸ hname ▸ hn f hf)
      rw [insert, if_pos hname, List.map_cons, if_pos hname, List.map_congr_left hother,
        List.map_id', hname]
    · have hmem : (name, b) ∈ rest := by
        rcases List.mem_cons.mp hmem with heq | hmem
        · exact absurd (congrArg Prod.fst heq).symm hname
        · exact hmem
      have hlt : ¬name < n := String.lt_asymm (hn _ hmem)
      rw [insert, if_neg hname, if_neg hlt, ih hrest hmem, List.map_cons, if_neg hname]

/-- A name that stands for something has a place, where it stands for that. -/
theorem find?_eq_bind (fields : List (String × α)) (name : String) :
    find? fields name = (position? fields name).bind fun k => fields[k]?.map (·.2) := by
  induction fields with
  | nil => rfl
  | cons field rest ih =>
    obtain ⟨n, b⟩ := field
    by_cases hn : n = name
    · simp [find?, position?, hn]
    · simp only [find?, position?, hn, if_false, ih]
      cases position? rest name <;> rfl

theorem find?_eq_none_of_position? {fields : List (String × α)} {name : String}
    (h : position? fields name = none) : find? fields name = none := by
  rw [find?_eq_bind, h]
  rfl

theorem exists_of_position? {fields : List (String × α)} {name : String} {k : Nat}
    (h : position? fields name = some k) : ∃ a, find? fields name = some a := by
  induction fields generalizing k with
  | nil => simp [position?] at h
  | cons field rest ih =>
    obtain ⟨n, b⟩ := field
    by_cases hn : n = name
    · exact ⟨b, by simp [find?, hn]⟩
    · simp only [find?, position?, hn, if_false, Option.map_eq_some_iff] at h ⊢
      obtain ⟨j, hj, -⟩ := h
      exact ih hj

theorem mem_names_iff {fields : List (String × α)} {name : String} :
    name ∈ names fields ↔ (find? fields name).isSome = true := by
  induction fields with
  | nil => simp [names, find?]
  | cons field rest ih =>
    obtain ⟨n, a⟩ := field
    have hcons : name ∈ names ((n, a) :: rest) ↔ n = name ∨ name ∈ names rest := by
      simp [names, eq_comm]
    rw [hcons, find?]
    split
    · next hn => simp [hn]
    · next hn => simp [hn, ih]

/-- Where a name stands depends on the names alone. -/
theorem position?_congr {fields : List (String × α)} {others : List (String × β)}
    (h : others.map Prod.fst = fields.map Prod.fst) (name : String) :
    position? others name = position? fields name := by
  induction fields generalizing others with
  | nil =>
    rw [List.map_nil, List.map_eq_nil_iff] at h
    rw [h]
    rfl
  | cons field fields ih =>
    cases others with
    | nil => simp at h
    | cons other others =>
      rw [List.map_cons, List.map_cons, List.cons.injEq] at h
      rw [position?, position?, h.1, ih h.2]

/-- What was at the name goes, and the new value comes. -/
theorem perm_insert {fields : List (String × α)} (h : Ascending fields) (name : String) (a : α) :
    ((find? fields name).toList ++ (insert fields name a).map Prod.snd).Perm
      (a :: fields.map Prod.snd) := by
  induction fields with
  | nil => exact .refl _
  | cons field rest ih =>
    obtain ⟨n, b⟩ := field
    rw [find?, insert]
    by_cases hname : n = name
    · rw [if_pos hname, if_pos hname]
      exact .swap a b _
    · rw [if_neg hname, if_neg hname]
      by_cases hlt : name < n
      · have hnone : find? rest name = none := by
          cases hfound : find? rest name with
          | none => rfl
          | some b' =>
            exact absurd hlt (String.lt_asymm (lt_of_find? h hfound))
        rw [if_pos hlt, hnone]
        exact .refl _
      · rw [if_neg hlt]
        have hrest := ih (ascending_cons.mp h).2
        exact List.perm_middle.trans ((hrest.cons b).trans (.swap a b _))

theorem perm_erase {fields : List (String × α)} {name : String} {a : α}
    (h : find? fields name = some a) :
    (a :: (erase fields name).map Prod.snd).Perm (fields.map Prod.snd) := by
  induction fields with
  | nil => cases h
  | cons field rest ih =>
    obtain ⟨n, b⟩ := field
    rw [find?] at h
    rw [erase]
    by_cases hname : n = name
    · rw [if_pos hname] at h ⊢
      obtain rfl := Option.some.inj h
      exact .refl _
    · rw [if_neg hname] at h ⊢
      exact (List.Perm.swap b a _).trans ((ih h).cons b)

section Altering

variable {fields : List (String × α)} {name other : String} {new : Option α}

/-- The fields with something else at a name, or with nothing there. -/
def alter (fields : List (String × α)) (name : String) : Option α → List (String × α)
  | some a => insert fields name a
  | none => erase fields name

theorem ascending_alter (h : Ascending fields) (name : String) (new : Option α) :
    Ascending (alter fields name new) := by
  cases new with
  | some a => exact ascending_insert h name a
  | none => exact ascending_erase h name

theorem find?_alter_self (h : Ascending fields) (name : String) (new : Option α) :
    find? (alter fields name new) name = new := by
  cases new with
  | some a => exact find?_insert_self fields name a
  | none => exact find?_erase_self h name

theorem find?_alter_of_ne (hne : other ≠ name) (new : Option α) :
    find? (alter fields name new) other = find? fields other := by
  cases new with
  | some a => exact find?_insert_of_ne a hne
  | none => exact find?_erase_of_ne hne

/-- To put in what is there, or nothing where there is nothing, changes nothing. -/
theorem alter_find? (h : Ascending fields) (name : String) :
    alter fields name (find? fields name) = fields := by
  cases hf : find? fields name with
  | some a => exact insert_find? h hf
  | none => exact erase_eq_self hf

/-- The last change of a field stays. -/
theorem alter_alter (h : Ascending fields) (name : String) (a b : Option α) :
    alter (alter fields name a) name b = alter fields name b := by
  have ha := ascending_alter h name a
  refine ext (ascending_alter ha name b) (ascending_alter h name b) fun n => ?_
  by_cases hn : n = name
  · subst hn
    rw [find?_alter_self ha, find?_alter_self h]
  · rw [find?_alter_of_ne hn, find?_alter_of_ne hn, find?_alter_of_ne hn]

/-- Changes of different fields may be made in either order. -/
theorem alter_comm (h : Ascending fields) (hne : name ≠ other) (a b : Option α) :
    alter (alter fields name a) other b = alter (alter fields other b) name a := by
  have ha := ascending_alter h name a
  have hb := ascending_alter h other b
  refine ext (ascending_alter ha other b) (ascending_alter hb name a) fun n => ?_
  by_cases hn : n = name
  · subst hn
    rw [find?_alter_of_ne hne, find?_alter_self h, find?_alter_self hb]
  · by_cases hother : n = other
    · subst hother
      rw [find?_alter_self ha, find?_alter_of_ne hn, find?_alter_self h]
    · rw [find?_alter_of_ne hother, find?_alter_of_ne hn, find?_alter_of_ne hn,
        find?_alter_of_ne hother]

end Altering

end TreePath.Fields

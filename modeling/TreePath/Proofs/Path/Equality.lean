import Mathlib
import TreePath.Path.Equality
import TreePath.Proofs.Path.Shown

namespace TreePath

/-- Two things are told apart by their texts, whatever follows these. -/
def TellsApart {α : Type} (text : α → List Char) (a b : α) : Prop :=
  ∀ r s, text a ++ r = text b ++ s → a = b ∧ r = s

theorem TellsApart.self {α : Type} {text : α → List Char} (a : α) : TellsApart text a a :=
  fun _ _ htext => ⟨rfl, List.append_cancel_left htext⟩

/-- Lists are told apart by the texts of their items with a separator between them. -/
theorem TellsApart.separated {α : Type} {text : α → List Char} (separator : List Char)
    (joined : List α → List Char) (hone : ∀ a, joined [a] = text a)
    (hmore : ∀ a b rest, joined (a :: b :: rest) = text a ++ (separator ++ joined (b :: rest)))
    {as bs : List α} (h : List.Forall₂ (TellsApart text) as bs) : TellsApart joined as bs := by
  induction h with
  | nil => exact .self []
  | @cons a b as bs hab hrest ih =>
    intro r s htext
    cases hrest with
    | nil =>
      rw [hone, hone] at htext
      obtain ⟨rfl, hrest⟩ := hab r s htext
      exact ⟨rfl, hrest⟩
    | cons hnext htail =>
      simp only [hmore, List.append_assoc] at htext
      obtain ⟨rfl, htext'⟩ := hab _ _ htext
      obtain ⟨heq, hrest⟩ := ih r s (List.append_cancel_left htext')
      exact ⟨by rw [heq], hrest⟩

namespace Double

def zero : Double := ⟨0, by decide⟩

def negativeZero : Double := ⟨0x8000000000000000, by decide⟩

/-- The double, with the sign of a zero taken off. -/
def unsigned (d : Double) : Double := if d.isZero then zero else d

theorem toNat_bits_of_isZero {d : Double} (h : d.isZero = true) :
    d.bits.toNat = if d.isNegative then 1 <<< 63 else 0 := by
  have hlt : d.bits.toNat < 2 ^ 64 := d.bits.toNat_lt
  have hfield : d.exponentField = 0 := by
    by_cases hne : d.exponentField = 0
    · exact hne
    · simp [isZero, significand, hne] at h
  have hfraction : d.fractionField = 0 := by simpa [isZero, significand, hfield] using h
  simp only [exponentField, fractionField, Nat.shiftRight_eq_div_pow, Nat.reducePow,
    Nat.reduceShiftLeft] at hfield hfraction
  simp only [isNegative, decide_eq_true_eq]
  split <;> omega

/-- A zero is its sign and nothing else. -/
theorem eq_of_isZero {a b : Double} (ha : a.isZero = true) (hb : b.isZero = true)
    (hsign : a.isNegative = b.isNegative) : a = b := by
  have hbits : a.bits = b.bits := by
    apply UInt64.toNat_inj.mp
    rw [toNat_bits_of_isZero ha, toNat_bits_of_isZero hb, hsign]
  cases a
  cases b
  simpa using hbits

theorem same_iff {a b : Double} : a.same b = true ↔ a.unsigned = b.unsigned := by
  have hzero : zero.isZero = true := by decide
  have hbits : a.bits = b.bits ↔ a = b := by cases a; cases b; simp
  simp only [same, Bool.or_eq_true, beq_iff_eq, Bool.and_eq_true, unsigned, hbits]
  cases ha : a.isZero <;> cases hb : b.isZero
  · simp
  · simp only [Bool.false_eq_true, and_true, or_false, if_false, if_true]
    constructor <;> intro h <;> simp [h, hb, hzero] at ha
  · simp only [Bool.false_eq_true, and_false, or_false, if_false, if_true]
    constructor <;> intro h <;> simp [← h, ha, hzero] at hb
  · simp

end Double

def Number.unsigned : Number → Number
  | .int n => .int n
  | .double d => .double d.unsigned

theorem Number.same_iff {a b : Number} : a.same b = true ↔ a.unsigned = b.unsigned := by
  cases a <;> cases b <;> simp [same, unsigned, Double.same_iff]

namespace Json

mutual

/-- The value, with the signs of its zeros taken off. -/
def unsigned : Json → Json
  | .num n => .num n.unsigned
  | .arr items => .arr (unsignedItems items)
  | .obj fields => .obj (unsignedFields fields)
  | v => v

def unsignedItems : List Json → List Json
  | [] => []
  | v :: rest => v.unsigned :: unsignedItems rest

def unsignedFields : List (String × Json) → List (String × Json)
  | [] => []
  | (name, v) :: rest => (name, v.unsigned) :: unsignedFields rest

end

mutual

theorem same_iff (a b : Json) : a.same b = true ↔ a.unsigned = b.unsigned := by
  cases a <;> cases b <;>
    simp [same, unsigned, Number.same_iff, sameItems_iff, sameFields_iff]

theorem sameItems_iff (as bs : List Json) :
    sameItems as bs = true ↔ unsignedItems as = unsignedItems bs := by
  cases as <;> cases bs <;> simp [sameItems, unsignedItems, same_iff, sameItems_iff]

theorem sameFields_iff (as bs : List (String × Json)) :
    sameFields as bs = true ↔ unsignedFields as = unsignedFields bs := by
  cases as <;> cases bs <;>
    simp [sameFields, unsignedFields, same_iff, sameFields_iff, and_assoc]

end

theorem tellsApart_renderDouble {a b : Double} (h : a.same b = true) :
    TellsApart renderDouble a b := by
  simp only [Double.same, Bool.or_eq_true, beq_iff_eq, Bool.and_eq_true] at h
  obtain hbits | ⟨ha, hb⟩ := h
  · obtain rfl : a = b := by cases a; cases b; simpa using hbits
    exact .self a
  · intro r s htext
    simp only [renderDouble, ha, hb, if_true] at htext
    cases hna : a.isNegative <;> cases hnb : b.isNegative <;> simp [hna, hnb] at htext
    · exact ⟨Double.eq_of_isZero ha hb (hna.trans hnb.symm), htext⟩
    · exact ⟨Double.eq_of_isZero ha hb (hna.trans hnb.symm), htext⟩

theorem tellsApart_renderNumber {a b : Number} (h : a.same b = true) :
    TellsApart renderNumber a b := by
  cases a <;> cases b <;> simp only [Number.same, Bool.false_eq_true, beq_iff_eq] at h
  · subst h
    exact .self _
  · intro r s htext
    obtain ⟨rfl, hrest⟩ := tellsApart_renderDouble h r s htext
    exact ⟨rfl, hrest⟩

mutual

theorem tellsApart_render {a b : Json} (h : a.same b = true) : TellsApart render a b := by
  cases a <;> cases b <;> simp only [same, Bool.false_eq_true, beq_iff_eq] at h
  case null.null => exact .self _
  case bool.bool | str.str =>
    subst h
    exact .self _
  case num.num =>
    intro r s htext
    obtain ⟨rfl, hrest⟩ := tellsApart_renderNumber h r s htext
    exact ⟨rfl, hrest⟩
  case arr.arr as bs =>
    intro r s htext
    have hitems := TellsApart.separated [','] renderItems (fun _ => rfl)
      (by simp [renderItems]) (tellsApart_items h)
    obtain ⟨rfl, hrest⟩ := hitems (']' :: r) (']' :: s) (by simpa [render] using htext)
    exact ⟨rfl, by simpa using hrest⟩
  case obj.obj as bs =>
    intro r s htext
    have hfields := TellsApart.separated [','] renderFields (fun _ => rfl)
      (by simp [renderFields]) (tellsApart_fields h)
    obtain ⟨rfl, hrest⟩ := hfields ('}' :: r) ('}' :: s) (by simpa [render] using htext)
    exact ⟨rfl, by simpa using hrest⟩

theorem tellsApart_items {as bs : List Json} (h : sameItems as bs = true) :
    List.Forall₂ (TellsApart render) as bs := by
  match as, bs with
  | [], [] => exact .nil
  | [], _ :: _ | _ :: _, [] => simp [sameItems] at h
  | a :: as, b :: bs =>
    simp only [sameItems, Bool.and_eq_true] at h
    exact .cons (tellsApart_render h.1) (tellsApart_items h.2)

theorem tellsApart_fields {as bs : List (String × Json)} (h : sameFields as bs = true) :
    List.Forall₂ (TellsApart fieldText) as bs := by
  match as, bs with
  | [], [] => exact .nil
  | [], _ :: _ | _ :: _, [] => simp [sameFields] at h
  | (m, a) :: as, (n, b) :: bs =>
    simp only [sameFields, Bool.and_eq_true, beq_iff_eq] at h
    obtain ⟨⟨rfl, ha⟩, hrest⟩ := h
    refine .cons (fun r s htext => ?_) (tellsApart_fields hrest)
    obtain ⟨rfl, hrest⟩ := tellsApart_render ha r s (by simpa [fieldText] using htext)
    exact ⟨rfl, hrest⟩

end

end Json

mutual

/-- The segment, with the signs of the zeros in its queries taken off. -/
def Segment.unsigned : Segment → Segment
  | .predicate query => .predicate (unsignedQuery query)
  | .union alternatives named => .union (unsignedPaths alternatives) named
  | .tuple members => .tuple (unsignedPath members)
  | s => s

def unsignedPath : List Segment → List Segment
  | [] => []
  | s :: rest => s.unsigned :: unsignedPath rest

def unsignedPaths : List (List Segment) → List (List Segment)
  | [] => []
  | p :: rest => unsignedPath p :: unsignedPaths rest

def unsignedQuery : List (List Segment × Expected) → List (List Segment × Expected)
  | [] => []
  | (p, e) :: rest => (unsignedPath p, e.unsigned) :: unsignedQuery rest

def Expected.unsigned : Expected → Expected
  | .value v => .value v.unsigned
  | .query q => .query (unsignedQuery q)

end

mutual

theorem Segment.same_iff (s t : Segment) : s.same t = true ↔ s.unsigned = t.unsigned := by
  cases s <;> cases t <;>
    simp [Segment.same, Segment.unsigned, sameQuery_iff, samePaths_iff, samePath_iff]
  termination_by structural s

theorem samePath_iff (p q : List Segment) :
    samePath p q = true ↔ unsignedPath p = unsignedPath q := by
  cases p <;> cases q <;> simp [samePath, unsignedPath, Segment.same_iff, samePath_iff]
  termination_by structural p

theorem samePaths_iff (ps qs : List (List Segment)) :
    samePaths ps qs = true ↔ unsignedPaths ps = unsignedPaths qs := by
  cases ps <;> cases qs <;> simp [samePaths, unsignedPaths, samePath_iff, samePaths_iff]
  termination_by structural ps

theorem sameQuery_iff (q r : List (List Segment × Expected)) :
    sameQuery q r = true ↔ unsignedQuery q = unsignedQuery r := by
  match q, r with
  | [], [] | [], _ :: _ | _ :: _, [] => simp [sameQuery, unsignedQuery]
  | (p, e) :: q, (t, f) :: r =>
    simp [sameQuery, unsignedQuery, samePath_iff p t, Expected.same_iff e f, sameQuery_iff q r,
      and_assoc]
  termination_by structural q

theorem Expected.same_iff (e f : Expected) : e.same f = true ↔ e.unsigned = f.unsigned := by
  cases e <;> cases f <;>
    simp [Expected.same, Expected.unsigned, Json.same_iff, sameQuery_iff]
  termination_by structural e

end

/-- Only objects are marked, so equal values are marked alike. -/
theorem Json.tellsApart_renderExpected {v w : Json} (h : v.same w = true) :
    TellsApart Json.renderExpected v w := by
  intro r s htext
  apply Json.tellsApart_render h
  cases v <;> cases w <;> simp only [Json.same, Bool.false_eq_true] at h <;>
    simpa [Json.renderExpected] using htext

theorem samePath_comm (p q : Path) : samePath p q = samePath q p := by
  rw [Bool.eq_iff_iff, samePath_iff, samePath_iff, eq_comm]

theorem samePath_nil {p : Path} : samePath p [] = true ↔ p = [] := by
  cases p <;> simp [samePath]

theorem Segment.same_tag {s : Segment} {t : Tag} : s.same (.tag t) = true ↔ s = .tag t := by
  cases s <;> simp [Segment.same]

theorem samePath_tag {p : Path} {t : Tag} : samePath p [.tag t] = true ↔ p = [.tag t] := by
  match p with
  | [] => simp [samePath]
  | [s] => simp [samePath, Segment.same_tag]
  | _ :: _ :: _ => simp [samePath]

/-- The two paths with signs of their own equal no other path. -/
theorem TellsApart.queryKey {p q : Path} (hsame : samePath p q = true)
    (h : TellsApart renderPath p q) :
    TellsApart (fun p => TreePath.queryKey p (renderPath p)) p q := by
  by_cases heq : p = q
  · subst heq
    exact .self p
  · have hp : p ≠ [] ∧ p ≠ [.tag .current] := by
      rw [samePath_comm] at hsame
      constructor <;> intro hp <;> subst hp
      · exact heq (samePath_nil.mp hsame).symm
      · exact heq (samePath_tag.mp hsame).symm
    have hq : q ≠ [] ∧ q ≠ [.tag .current] := by
      constructor <;> intro hq <;> subst hq
      · exact heq (samePath_nil.mp hsame)
      · exact heq (samePath_tag.mp hsame)
    intro r s htext
    simp only [queryKey_eq_text hp.1 hp.2, queryKey_eq_text hq.1 hq.2] at htext
    exact h r s htext

theorem Segment.isBracketed_eq_of_same {s t : Segment} (h : s.same t = true) :
    s.isBracketed = t.isBracketed := by
  cases s <;> cases t <;> simp_all [Segment.same, Segment.isBracketed]

theorem tellsApart_renderHops {as bs : Path} (hsame : samePath as bs = true)
    (h : List.Forall₂ (TellsApart Segment.render) as bs) : TellsApart renderHops as bs := by
  induction h with
  | nil => exact .self []
  | @cons a b as bs hab _ ih =>
    simp only [samePath, Bool.and_eq_true] at hsame
    intro r s htext
    have hmark : a.render ++ (renderHops as ++ r) = b.render ++ (renderHops bs ++ s) := by
      simp only [renderHops, Segment.isBracketed_eq_of_same hsame.1, List.append_assoc] at htext
      split at htext
      · exact htext
      · simpa using htext
    obtain ⟨rfl, hhops⟩ := hab _ _ hmark
    obtain ⟨rfl, hrest⟩ := ih hsame.2 _ _ hhops
    exact ⟨rfl, hrest⟩

theorem tellsApart_renderRelative {as bs : Path} (hsame : samePath as bs = true)
    (h : List.Forall₂ (TellsApart Segment.render) as bs) : TellsApart renderRelative as bs := by
  cases h with
  | nil => exact .self []
  | @cons a b as bs hab htail =>
    simp only [samePath, Bool.and_eq_true] at hsame
    intro r s htext
    obtain ⟨rfl, hhops⟩ := hab _ _ (by simpa [renderRelative] using htext)
    obtain ⟨rfl, hrest⟩ := tellsApart_renderHops hsame.2 htail _ _ hhops
    exact ⟨rfl, hrest⟩

theorem tellsApart_renderPath {as bs : Path} (hsame : samePath as bs = true)
    (h : List.Forall₂ (TellsApart Segment.render) as bs) : TellsApart renderPath as bs := by
  cases h with
  | nil => exact .self []
  | @cons a b as bs hab htail =>
    have hheads : a.same b = true ∧ samePath as bs = true := by simpa [samePath] using hsame
    by_cases hb : b = .tag .root
    · subst hb
      obtain rfl := Segment.same_tag.mp hheads.1
      intro r s htext
      simp only [renderPath, List.cons_append, List.cons.injEq, true_and] at htext
      obtain ⟨rfl, hrest⟩ := tellsApart_renderRelative hheads.2 htail r s htext
      exact ⟨rfl, hrest⟩
    · have ha : a ≠ .tag .root := by
        rintro rfl
        cases b <;> simp_all [Segment.same]
      intro r s htext
      rw [renderPath_cons ha, renderPath_cons hb] at htext
      exact tellsApart_renderRelative hsame (.cons hab htail) r s htext

mutual

theorem Segment.tellsApart_render {a b : Segment} (h : a.same b = true) :
    TellsApart Segment.render a b := by
  cases a <;> cases b <;> simp only [Segment.same, Bool.false_eq_true, beq_iff_eq] at h
  case key.key | index.index | slice.slice | tag.tag =>
    subst h
    exact .self _
  case predicate.predicate as bs =>
    have hentries := TellsApart.separated [',', ' '] renderEntries (fun _ => rfl)
      (by simp [renderEntries]) (tellsApart_entries h)
    intro r s htext
    obtain ⟨rfl, hrest⟩ := hentries ('}' :: ']' :: r) ('}' :: ']' :: s)
      (by simpa [Segment.render] using htext)
    exact ⟨rfl, by simpa using hrest⟩
  case union.union as m bs n =>
    simp only [Bool.and_eq_true, beq_iff_eq] at h
    obtain ⟨h, rfl⟩ := h
    have hpaths := TellsApart.separated [',', ' '] renderPaths (fun _ => rfl)
      (by simp [renderPaths]) (tellsApart_paths h)
    intro r s htext
    cases m
    · obtain ⟨rfl, hrest⟩ := hpaths (']' :: ']' :: r) (']' :: ']' :: s)
        (by simpa [Segment.render] using htext)
      exact ⟨rfl, by simpa using hrest⟩
    · obtain ⟨rfl, hrest⟩ := hpaths ('}' :: ']' :: r) ('}' :: ']' :: s)
        (by simpa [Segment.render] using htext)
      exact ⟨rfl, by simpa using hrest⟩
  case tuple.tuple as bs =>
    have hmembers := TellsApart.separated [',', ' '] renderMembers (fun _ => rfl)
      (by simp [renderMembers]) (tellsApart_members h)
    intro r s htext
    obtain ⟨rfl, hrest⟩ := hmembers (')' :: ']' :: r) (')' :: ']' :: s)
      (by simpa [Segment.render] using htext)
    exact ⟨rfl, by simpa using hrest⟩

theorem tellsApart_members {as bs : List Segment} (h : samePath as bs = true) :
    List.Forall₂ (TellsApart Segment.render) as bs := by
  match as, bs with
  | [], [] => exact .nil
  | [], _ :: _ | _ :: _, [] => simp [samePath] at h
  | a :: as, b :: bs =>
    simp only [samePath, Bool.and_eq_true] at h
    exact .cons (Segment.tellsApart_render h.1) (tellsApart_members h.2)

theorem tellsApart_paths {as bs : List (List Segment)} (h : samePaths as bs = true) :
    List.Forall₂ (TellsApart renderPath) as bs := by
  match as, bs with
  | [], [] => exact .nil
  | [], _ :: _ | _ :: _, [] => simp [samePaths] at h
  | a :: as, b :: bs =>
    simp only [samePaths, Bool.and_eq_true] at h
    exact .cons (tellsApart_renderPath h.1 (tellsApart_members h.1)) (tellsApart_paths h.2)

theorem tellsApart_entries {as bs : List (List Segment × Expected)}
    (h : sameQuery as bs = true) : List.Forall₂ (TellsApart entryText) as bs := by
  match as, bs with
  | [], [] => exact .nil
  | [], _ :: _ | _ :: _, [] => simp [sameQuery] at h
  | (p, e) :: as, (q, f) :: bs =>
    simp only [sameQuery, Bool.and_eq_true] at h
    refine .cons (fun r s htext => ?_) (tellsApart_entries h.2)
    have hkey := TellsApart.queryKey h.1.1 (tellsApart_renderPath h.1.1 (tellsApart_members h.1.1))
    obtain ⟨rfl, hvalue⟩ := hkey _ _ (by simpa [entryText] using htext)
    obtain ⟨rfl, hrest⟩ := Expected.tellsApart_render h.1.2 r s (by simpa using hvalue)
    exact ⟨rfl, hrest⟩

theorem Expected.tellsApart_render {e f : Expected} (h : e.same f = true) :
    TellsApart Expected.render e f := by
  cases e <;> cases f <;> simp only [Expected.same, Bool.false_eq_true] at h
  case value.value v w =>
    intro r s htext
    obtain ⟨rfl, hrest⟩ := Json.tellsApart_renderExpected h r s htext
    exact ⟨rfl, hrest⟩
  case query.query as bs =>
    have hentries := TellsApart.separated [',', ' '] renderEntries (fun _ => rfl)
      (by simp [renderEntries]) (tellsApart_entries h)
    intro r s htext
    obtain ⟨rfl, hrest⟩ := hentries ('}' :: r) ('}' :: s)
      (by simpa [Expected.render] using htext)
    exact ⟨rfl, by simpa using hrest⟩

end

/-- Equal paths have one text exactly when they are one path, and so they do when no value in either
is a negative zero. -/
theorem Path.toText_eq_of_same {p q : Path} (h : p.same q = true) :
    (p.toText = q.toText ↔ p = q) ∧
      (unsignedPath p = p → unsignedPath q = q → p.toText = q.toText) := by
  have hunsigned : unsignedPath p = unsignedPath q := (samePath_iff p q).mp h
  constructor
  · constructor
    · intro htext
      have hchars : renderPath p = renderPath q := String.ofList_injective htext
      have happart := tellsApart_renderPath h (tellsApart_members h)
      exact (happart [] [] (by rw [hchars])).1
    · intro heq
      rw [heq]
  · intro hp hq
    rw [← hp, ← hq, hunsigned]

theorem Path.toText_eq_of_same_zero :
    Path.same [.predicate [([.key "k"], .value (.num (.double .zero)))]]
        [.predicate [([.key "k"], .value (.num (.double .zero)))]] = true ∧
      Path.toText [.predicate [([.key "k"], .value (.num (.double .zero)))]] =
        Path.toText [.predicate [([.key "k"], .value (.num (.double .zero)))]] := by
  have h : Path.same [.predicate [([.key "k"], .value (.num (.double .zero)))]]
      [.predicate [([.key "k"], .value (.num (.double .zero)))]] = true := by cbv
  exact ⟨h, (Path.toText_eq_of_same h).2 rfl rfl⟩

/-- The two zeros are equal, and their texts are not. -/
theorem Path.toText_ne_of_same :
    Path.same [.predicate [([.key "k"], .value (.num (.double .zero)))]]
        [.predicate [([.key "k"], .value (.num (.double .negativeZero)))]] = true ∧
      Path.toText [.predicate [([.key "k"], .value (.num (.double .zero)))]] ≠
        Path.toText [.predicate [([.key "k"], .value (.num (.double .negativeZero)))]] := by
  constructor
  · cbv
  · intro htext
    have hchars := String.ofList_injective htext
    cbv at hchars
    simp at hchars

end TreePath

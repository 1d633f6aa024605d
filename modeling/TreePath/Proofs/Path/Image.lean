import Mathlib
import TreePath.Proofs.Json.Within
import TreePath.Proofs.Path.RoundTrip

namespace TreePath

open Text (isBlank)

mutual

/-- No value that the segment expects holds a double. -/
def Segment.FloatFree : Segment → Prop
  | .predicate query => QueryFloatFree query
  | .union alternatives _ => AlternativesFloatFree alternatives
  | .tuple members => PathFloatFree members
  | _ => True

def PathFloatFree : List Segment → Prop
  | [] => True
  | s :: rest => s.FloatFree ∧ PathFloatFree rest

def AlternativesFloatFree : List (List Segment) → Prop
  | [] => True
  | p :: rest => PathFloatFree p ∧ AlternativesFloatFree rest

def QueryFloatFree : List (List Segment × Expected) → Prop
  | [] => True
  | (p, e) :: rest => PathFloatFree p ∧ e.FloatFree ∧ QueryFloatFree rest

def Expected.FloatFree : Expected → Prop
  | .value v => v.FloatFree
  | .query q => QueryFloatFree q

end

theorem pathFloatFree_append {p q : Path} :
    PathFloatFree (p ++ q) ↔ PathFloatFree p ∧ PathFloatFree q := by
  induction p with
  | nil => exact (true_and _).symm.to_iff
  | cons s p ih =>
    change s.FloatFree ∧ PathFloatFree (p ++ q) ↔ (s.FloatFree ∧ PathFloatFree p) ∧ _
    rw [ih, and_assoc]

theorem pathPrintable_append {p q : Path} (hp : PathPrintable p) (hq : PathPrintable q) :
    PathPrintable (p ++ q) := by
  induction p with
  | nil => exact hq
  | cons s p ih => exact ⟨hp.1, ih hp.2⟩

theorem alternativesFloatFree_of_flatten {ps : List Path} (h : PathFloatFree ps.flatten) :
    AlternativesFloatFree ps := by
  induction ps with
  | nil => trivial
  | cons p ps ih =>
    obtain ⟨hp, hrest⟩ := pathFloatFree_append.mp h
    exact ⟨hp, ih hrest⟩

theorem pathPrintable_flatten {ps : List Path} (h : AlternativesPrintable ps) :
    PathPrintable ps.flatten := by
  induction ps with
  | nil => trivial
  | cons p ps ih => exact pathPrintable_append h.2.1 (ih h.2.2)

/-- The span has a character, and the first one is no blank. -/
def Span.StartsVisibly (s : Span) : Prop := ∃ c rest, s.chars = c :: rest ∧ isBlank c = false

theorem Span.startsVisibly_trim {s : Span} (h : s.trim.chars ≠ []) : s.trim.StartsVisibly := by
  change dropEndBlanks s.skipBlanks.chars ≠ [] at h
  change ∃ c rest, dropEndBlanks s.skipBlanks.chars = c :: rest ∧ isBlank c = false
  cases hskip : s.skipBlanks.chars with
  | nil => simp [hskip, dropEndBlanks] at h
  | cons c rest =>
    have hc : isBlank c = false := by
      have hhead := List.head?_dropWhile_not isBlank s.chars
      change s.chars.dropWhile isBlank = c :: rest at hskip
      simpa [hskip] using hhead
    rw [dropEndBlanks]
    split
    · exact ⟨c, [], by simp [hc], hc⟩
    · exact ⟨c, _, rfl, hc⟩

namespace Parser

theorem selectorTag_eq {start : Nat} {name : List Char} {p : Path}
    (h : selectorTag start name = .ok p) : ∃ t, p = [.tag t] := by
  unfold selectorTag at h
  split at h
  · exact ⟨_, (Except.ok.inj h).symm⟩
  · cases h

/-- What a selector can stand for: one segment, read from what its inner brackets hold, or else the
hops of a path. -/
inductive Selected (s : Span) : Path → Prop where
  | all : Selected s [.slice .full]
  | query {inside : Span} {q : Query} (shorter : inside.length < s.length)
    (h : Parser.query inside = .ok q) : Selected s [.predicate q]
  | braces {inside : Span} {segment : Segment} (shorter : inside.length + 1 < s.length)
    (h : Parser.braces inside = .ok segment) : Selected s [segment]
  | union {inside : Span} {ps : List Path} (shorter : inside.length + 1 < s.length)
    (h : members inside = .ok ps) : Selected s [.union ps false]
  | tuple {inside : Span} {ps : List Path} (shorter : inside.length + 1 < s.length)
    (h : members inside = .ok ps) : Selected s [.tuple ps.flatten]
  | spliced {p : Path} (h : Parser.spliced s = .ok p) : Selected s p

theorem selected {s : Span} {p : Path} (h : selector s = .ok p) :
    s.chars ≠ [] ∧ Selected s p := by
  have hinside : ∀ {t : Span}, t.length + 2 = s.length → t.trim.length + 1 < s.length := by
    intro t ht
    have := t.length_trim_le
    omega
  rw [selector] at h
  split at h
  · cases h
  · next hs =>
    obtain rfl := Except.ok.inj h
    exact ⟨by simp [hs], .all⟩
  · next hs =>
    obtain ⟨found, -, h⟩ := Fault.bind_eq_ok h
    match found with
    | some inside =>
      obtain ⟨q, hq, h⟩ := Fault.bind_eq_ok h
      obtain rfl := Fault.pure_eq_ok h
      have hlength : inside.1.trim.length < s.length := by
        have := inside.2
        have := inside.1.length_trim_le
        have := s.length_drop 1
        omega
      exact ⟨by simp [hs], .query hlength hq⟩
    | none => cases h
  · cases h
  · next hs =>
    obtain ⟨found, -, h⟩ := Fault.bind_eq_ok h
    match found with
    | some inside =>
      obtain ⟨segment, hsegment, h⟩ := Fault.bind_eq_ok h
      obtain rfl := Fault.pure_eq_ok h
      exact ⟨by simp [hs], .braces (hinside inside.2) hsegment⟩
    | none => exact ⟨by simp [hs], .spliced h⟩
  · next hs =>
    obtain ⟨found, -, h⟩ := Fault.bind_eq_ok h
    match found with
    | some inside =>
      obtain ⟨ps, hps, h⟩ := Fault.bind_eq_ok h
      obtain rfl := Fault.pure_eq_ok h
      exact ⟨by simp [hs], .union (hinside inside.2) hps⟩
    | none => exact ⟨by simp [hs], .spliced h⟩
  · next hs =>
    obtain ⟨found, -, h⟩ := Fault.bind_eq_ok h
    match found with
    | some inside =>
      obtain ⟨ps, hps, h⟩ := Fault.bind_eq_ok h
      obtain rfl := Fault.pure_eq_ok h
      exact ⟨by simp [hs], .tuple (hinside inside.2) hps⟩
    | none => exact ⟨by simp [hs], .spliced h⟩
  · next hne _ _ _ _ _ _ => exact ⟨hne, .spliced h⟩

section Nonempty

mutual

/-- A text that is not blank denotes at least one hop. -/
theorem path_ne_nil {s : Span} {p : Path} (h : path s = .ok p) (hs : s.StartsVisibly) :
    p ≠ [] := by
  obtain ⟨c, rest, hc, hblank⟩ := hs
  have hskip : s.skipBlanks = s := skipBlanks_eq hc hblank
  rw [path, hskip] at h
  split at h
  · obtain ⟨tail, -, htail⟩ := Fault.bind_eq_ok h
    rw [← Fault.pure_eq_ok htail]
    exact List.cons_ne_nil _ _
  · next hslash =>
    have hstart : StartsHop s.chars :=
      ⟨c, rest, hc, hblank, fun he => hslash rest (he ▸ hc)⟩
    exact hops_ne_nil h hstart
termination_by (s.length, 3)
decreasing_by exact .right _ (by decide)

theorem hops_ne_nil {s : Span} {p : Path} (h : hops s = .ok p) (hs : StartsHop s.chars) :
    p ≠ [] := by
  rw [hops, skipSeparators_eq hs] at h
  split at h
  · next hnil =>
    obtain ⟨c, rest, hc, -⟩ := hs
    simp [hc] at hnil
  · exact brackets_ne_nil h
  · obtain ⟨hop, -, h⟩ := Fault.bind_eq_ok h
    obtain ⟨tail, -, htail⟩ := Fault.bind_eq_ok h
    rw [← Fault.pure_eq_ok htail]
    exact List.cons_ne_nil _ _
termination_by (s.length, 2)
decreasing_by exact .right _ (by decide)

theorem brackets_ne_nil {s : Span} {p : Path} (h : brackets s = .ok p) : p ≠ [] := by
  rw [brackets] at h
  obtain ⟨group, -, h⟩ := Fault.bind_eq_ok h
  obtain ⟨segments, hsegments, h⟩ := Fault.bind_eq_ok h
  obtain ⟨tail, -, htail⟩ := Fault.bind_eq_ok h
  rw [← Fault.pure_eq_ok htail]
  have hinside : segments ≠ [] := selector_ne_nil hsegments Span.startsVisibly_trim
  exact List.append_ne_nil_of_left_ne_nil hinside tail
termination_by (s.length, 0)
decreasing_by
  have := group.shorter
  have := group.inside.length_trim_le
  exact .left _ _ (by omega)

theorem selector_ne_nil {s : Span} {p : Path} (h : selector s = .ok p)
    (hs : s.chars ≠ [] → s.StartsVisibly) : p ≠ [] := by
  obtain ⟨hchars, hselected⟩ := selected h
  cases hselected with
  | spliced h => exact spliced_ne_nil h (hs hchars)
  | all | query | braces | union | tuple => exact List.cons_ne_nil _ _
termination_by (s.length, 5)
decreasing_by exact .right _ (by decide)

theorem spliced_ne_nil {s : Span} {p : Path} (h : spliced s = .ok p) (hs : s.StartsVisibly) :
    p ≠ [] := by
  rw [spliced] at h
  obtain ⟨cut, -, h⟩ := Fault.bind_eq_ok h
  split at h
  · obtain ⟨slice, -, h⟩ := Fault.bind_eq_ok h
    exact Fault.pure_eq_ok h ▸ List.cons_ne_nil _ _
  · split at h
    · obtain ⟨t, rfl⟩ := selectorTag_eq h
      exact List.cons_ne_nil _ _
    · exact path_ne_nil h hs
termination_by (s.length, 4)
decreasing_by exact .right _ (by decide)

end

/-- A list that is not blank has a member. -/
theorem members_ne_nil {s : Span} {ps : List Path} (h : members s = .ok ps)
    (hs : s.chars.isEmpty = false) : ps ≠ [] := by
  rw [members, if_neg (by simp [hs])] at h
  obtain ⟨parts, -, h⟩ := Fault.bind_eq_ok h
  rw [Span.Parts.toList, paths] at h
  split at h
  · cases h
  · obtain ⟨p, -, h⟩ := Fault.bind_eq_ok h
    obtain ⟨rest, -, h⟩ := Fault.bind_eq_ok h
    exact Fault.pure_eq_ok h ▸ List.cons_ne_nil _ _

end Nonempty

section Hops

theorem printable_of_isBracketed {s : Segment} (h : s.isBracketed = false) : s.Printable := by
  cases s with
  | key | index | tag => trivial
  | slice | predicate | union | tuple => simp [Segment.isBracketed] at h

theorem isBracketed_classify {start : Nat} {text : List Char} {segment : Segment}
    (h : Token.classify start text = .ok segment) : segment.isBracketed = false := by
  unfold Token.classify at h
  split at h
  · split at h
    · exact Except.ok.inj h ▸ rfl
    · cases h
  · split at h
    · exact Except.ok.inj h ▸ rfl
    · exact Except.ok.inj h ▸ rfl
    · split at h
      · exact Except.ok.inj h ▸ rfl
      · exact Except.ok.inj h ▸ rfl
    · exact Except.ok.inj h ▸ rfl

theorem isBracketed_token {s : Span} {hop : s.Hop} (h : s.token = .ok hop) :
    hop.segment.isBracketed = false := by
  unfold Span.token at h
  split at h
  · cases h
  · split at h
    · cases h
    · split at h
      · cases h
      · split at h
        · cases h
        · next hsegment =>
          exact Except.ok.inj h ▸ isBracketed_classify hsegment

theorem isBracketed_quotedKey {s : Span} {hop : s.Hop} (h : s.quotedKey = .ok hop) :
    hop.segment.isBracketed = false := by
  unfold Span.quotedKey at h
  split at h
  · cases h
  · exact Except.ok.inj h ▸ rfl

theorem isBracketed_dots {s : Span} {hop : s.Hop} (h : s.dots = .ok hop) :
    hop.segment.isBracketed = false := by
  unfold Span.dots at h
  split at h
  · cases h
  · simp only at h
    split at h
    · cases h
    · split at h
      · exact Except.ok.inj h ▸ rfl
      · cases h

/-- What stands outside of brackets is a key, a position or a tag. -/
theorem isBracketed_hop {s : Span} {hop : s.Hop} (h : s.hop = .ok hop) :
    hop.segment.isBracketed = false := by
  unfold Span.hop at h
  split at h
  · exact isBracketed_quotedKey h
  · exact isBracketed_quotedKey h
  · exact isBracketed_dots h
  · exact isBracketed_token h

/-- A slice that was read does not stand still. -/
theorem step_ne_zero {s : Span} {slice : Slice} (h : Slice.read s = .ok slice) :
    slice.step ≠ some 0 := by
  unfold Slice.read at h
  obtain ⟨parts, -, h⟩ := Fault.bind_eq_ok h
  split at h
  · cases h
  · obtain ⟨bounds, -, h⟩ := Fault.bind_eq_ok h
    simp only at h
    split at h
    · cases h
    · next hstep => exact Fault.pure_eq_ok h ▸ hstep

end Hops

section Values

theorem printable_string (text : String) : (Expected.value (.str text)).Printable :=
  ⟨trivial, trivial, Nat.zero_lt_succ _⟩

theorem printable_read {text : List Char} {v : Json} (h : Json.read? text = some v)
    (hf : v.FloatFree) : (Expected.value v).Printable := by
  have hwithin := Json.read?_within h
  exact ⟨hf, hwithin.wellFormed, Nat.lt_succ_of_le hwithin.nesting_le⟩

theorem readMarked_printable {s : Span} {e : Expected} (h : Expected.readMarked s = .ok e)
    (hf : e.FloatFree) : e.Printable := by
  unfold Expected.readMarked at h
  split at h
  · next hread =>
    obtain rfl := Except.ok.inj h
    exact printable_read hread hf
  · cases h

theorem readQuoted_printable {s : Span} {e : Expected} (h : Expected.readQuoted s = .ok e) :
    e.Printable := by
  unfold Expected.readQuoted at h
  obtain ⟨⟨text, rest⟩, -, h⟩ := Fault.bind_eq_ok h
  simp only at h
  split at h
  · exact Fault.pure_eq_ok h ▸ printable_string _
  · cases h

/-- What is no value of its own stands for its text. -/
theorem ofBare_printable {text : List Char} (hf : (Expected.ofBare text).FloatFree) :
    (Expected.ofBare text).Printable := by
  unfold Expected.ofBare at hf ⊢
  cases hread : Json.read? text with
  | none => exact printable_string _
  | some v =>
    rw [hread] at hf
    exact printable_read hread hf

end Values

section Printable

mutual

theorem path_printable {s : Span} {p : Path} (h : path s = .ok p) (hf : PathFloatFree p) :
    PathPrintable p := by
  rw [path] at h
  split at h
  · obtain ⟨rest, hrest, h⟩ := Fault.bind_eq_ok h
    obtain rfl := Fault.pure_eq_ok h
    exact ⟨trivial, hops_printable hrest hf.2⟩
  · exact hops_printable h hf
termination_by (s.length, 3)
decreasing_by all_goals
  have := s.length_skipBlanks_le
  have := s.skipBlanks.length_drop 1
  exact .right' _ (by omega) (by decide)

theorem hops_printable {s : Span} {p : Path} (h : hops s = .ok p) (hf : PathFloatFree p) :
    PathPrintable p := by
  rw [hops] at h
  split at h
  · exact Except.ok.inj h ▸ trivial
  · exact brackets_printable h hf
  · obtain ⟨hop, hhop, h⟩ := Fault.bind_eq_ok h
    obtain ⟨rest, hrest, h⟩ := Fault.bind_eq_ok h
    obtain rfl := Fault.pure_eq_ok h
    exact ⟨printable_of_isBracketed (isBracketed_hop hhop), following_printable hrest hf.2⟩
termination_by (s.length, 2)
decreasing_by
  · exact .right' _ (s.length_dropWhile_le _) (by decide)
  · have : s.skipSeparators.length ≤ s.length := s.length_dropWhile_le _
    have := hop.shorter
    exact .left _ _ (by omega)

theorem brackets_printable {s : Span} {p : Path} (h : brackets s = .ok p)
    (hf : PathFloatFree p) : PathPrintable p := by
  rw [brackets] at h
  obtain ⟨group, -, h⟩ := Fault.bind_eq_ok h
  obtain ⟨segments, hsegments, h⟩ := Fault.bind_eq_ok h
  obtain ⟨rest, hrest, h⟩ := Fault.bind_eq_ok h
  obtain rfl := Fault.pure_eq_ok h
  obtain ⟨hf, hfrest⟩ := pathFloatFree_append.mp hf
  exact pathPrintable_append (selector_printable hsegments hf) (following_printable hrest hfrest)
termination_by (s.length, 0)
decreasing_by all_goals
  have := group.shorter
  have := group.inside.length_trim_le
  exact .left _ _ (by omega)

theorem following_printable {s : Span} {p : Path} (h : following s = .ok p)
    (hf : PathFloatFree p) : PathPrintable p := by
  rw [following] at h
  split at h
  · exact brackets_printable h hf
  · split at h
    · exact Except.ok.inj h ▸ trivial
    · split at h
      · exact hops_printable h hf
      · cases h
termination_by (s.length, 1)
decreasing_by
  · exact .right _ (by decide)
  · next hchars _ =>
    have := s.length_skipBlanks_le
    simp only [Span.length, hchars, List.length_cons] at this
    exact .left _ _ (by simp only [Span.length]; omega)

theorem selector_printable {s : Span} {p : Path} (h : selector s = .ok p)
    (hf : PathFloatFree p) : PathPrintable p := by
  cases (selected h).2 with
  | all => exact ⟨by simp [Segment.Printable, Slice.full], trivial⟩
  | query shorter hq => exact ⟨query_printable hq hf.1, trivial⟩
  | braces shorter hsegment => exact ⟨braces_printable hsegment hf.1, trivial⟩
  | union shorter hps => exact ⟨⟨by simp, members_printable hps hf.1⟩, trivial⟩
  | tuple shorter hps =>
    have hmembers := members_printable hps (alternativesFloatFree_of_flatten hf.1)
    exact ⟨pathPrintable_flatten hmembers, trivial⟩
  | spliced h => exact spliced_printable h hf
termination_by (s.length, 5)
decreasing_by
  · exact .right' _ (by omega) (by decide)
  · exact .right' _ (by omega) (by decide)
  · exact .right' _ (by omega) (by decide)
  · exact .right' _ (by omega) (by decide)
  · exact .right _ (by decide)

theorem spliced_printable {s : Span} {p : Path} (h : spliced s = .ok p)
    (hf : PathFloatFree p) : PathPrintable p := by
  rw [spliced] at h
  obtain ⟨cut, -, h⟩ := Fault.bind_eq_ok h
  split at h
  · obtain ⟨slice, hslice, h⟩ := Fault.bind_eq_ok h
    obtain rfl := Fault.pure_eq_ok h
    exact ⟨step_ne_zero hslice, trivial⟩
  · split at h
    · obtain ⟨t, rfl⟩ := selectorTag_eq h
      exact ⟨trivial, trivial⟩
    · exact path_printable h hf
termination_by (s.length, 4)
decreasing_by exact .right _ (by decide)

theorem braces_printable {s : Span} {segment : Segment} (h : braces s = .ok segment)
    (hf : segment.FloatFree) : segment.Printable := by
  rw [braces] at h
  split at h
  · exact Fault.pure_eq_ok h ▸ trivial
  · next hchars =>
    obtain ⟨parts, -, h⟩ := Fault.bind_eq_ok h
    split at h
    · obtain ⟨q, hq, h⟩ := Fault.bind_eq_ok h
      obtain rfl := Fault.pure_eq_ok h
      exact query_printable hq hf
    · obtain ⟨ps, hps, h⟩ := Fault.bind_eq_ok h
      obtain rfl := Fault.pure_eq_ok h
      have hne : ps ≠ [] := members_ne_nil hps (by simpa using hchars)
      exact ⟨fun _ => hne, members_printable hps hf⟩
termination_by (s.length + 1, 2)
decreasing_by all_goals exact .right _ (by decide)

theorem members_printable {s : Span} {ps : List Path} (h : members s = .ok ps)
    (hf : AlternativesFloatFree ps) : AlternativesPrintable ps := by
  rw [members] at h
  split at h
  · exact Fault.pure_eq_ok h ▸ trivial
  · obtain ⟨parts, -, h⟩ := Fault.bind_eq_ok h
    exact paths_printable h hf
termination_by (s.length + 1, 1)
decreasing_by exact .right' _ (Nat.le_of_eq parts.extent_eq) (by decide)

theorem paths_printable {parts : List Span} {ps : List Path} (h : paths parts = .ok ps)
    (hf : AlternativesFloatFree ps) : AlternativesPrintable ps := by
  match parts with
  | [] =>
    rw [paths] at h
    exact Except.ok.inj h ▸ trivial
  | part :: parts =>
    rw [paths] at h
    split at h
    · cases h
    · next hpart =>
      obtain ⟨p, hp, h⟩ := Fault.bind_eq_ok h
      obtain ⟨rest, hrest, h⟩ := Fault.bind_eq_ok h
      obtain rfl := Fault.pure_eq_ok h
      have hvisible : part.trim.StartsVisibly :=
        Span.startsVisibly_trim (by simpa using hpart)
      exact ⟨path_ne_nil hp hvisible, path_printable hp hf.1, paths_printable hrest hf.2⟩
termination_by (Span.extent parts, 0)
decreasing_by all_goals
  have := part.length_trim_le
  exact .left _ _ (by simp only [Span.extent]; omega)

theorem query_printable {s : Span} {q : Query} (h : query s = .ok q) (hf : QueryFloatFree q) :
    QueryPrintable q := by
  rw [query] at h
  split at h
  · exact Fault.pure_eq_ok h ▸ trivial
  · obtain ⟨parts, -, h⟩ := Fault.bind_eq_ok h
    exact entries_printable h hf
termination_by (s.length + 1, 1)
decreasing_by exact .right' _ (Nat.le_of_eq parts.extent_eq) (by decide)

theorem entries_printable {parts : List Span} {q : Query} (h : entries parts = .ok q)
    (hf : QueryFloatFree q) : QueryPrintable q := by
  match parts with
  | [] =>
    rw [entries] at h
    exact Except.ok.inj h ▸ trivial
  | part :: parts =>
    rw [entries] at h
    split at h
    · cases h
    · obtain ⟨found, -, h⟩ := Fault.bind_eq_ok h
      match found with
      | none => cases h
      | some cut =>
        obtain ⟨key, hkey, h⟩ := Fault.bind_eq_ok h
        obtain ⟨value, hvalue, h⟩ := Fault.bind_eq_ok h
        obtain ⟨rest, hrest, h⟩ := Fault.bind_eq_ok h
        obtain rfl := Fault.pure_eq_ok h
        obtain ⟨hfkey, hfvalue, hfrest⟩ := hf
        exact ⟨queryKey_printable hkey hfkey, expected_printable hvalue hfvalue,
          entries_printable hrest hfrest⟩
termination_by (Span.extent parts, 0)
decreasing_by
  · have := cut.shorter
    have := part.length_trim_le
    have := cut.before.length_trim_le
    exact .left _ _ (by simp only [Span.extent]; omega)
  · have := cut.shorter
    have := part.length_trim_le
    have := cut.after.length_trim_le
    exact .left _ _ (by simp only [Span.extent]; omega)
  · exact .left _ _ (by simp only [Span.extent]; omega)

theorem queryKey_printable {s : Span} {p : Path} (h : queryKey s = .ok p)
    (hf : PathFloatFree p) : PathPrintable p := by
  rw [queryKey] at h
  split at h
  · exact Except.ok.inj h ▸ trivial
  · exact Except.ok.inj h ▸ trivial
  · exact Except.ok.inj h ▸ trivial
  · exact path_printable h hf
  · exact path_printable h hf
termination_by (s.length, 4)
decreasing_by all_goals
  have := s.length_drop 1
  exact .right' _ (by omega) (by decide)

theorem expected_printable {s : Span} {e : Expected} (h : expected s = .ok e)
    (hf : e.FloatFree) : e.Printable := by
  rw [expected] at h
  split at h
  · cases h
  · exact nested_printable h hf
  · exact nested_printable h hf
  · exact readMarked_printable h hf
  · exact readQuoted_printable h
  · exact Except.ok.inj h ▸ ofBare_printable (Except.ok.inj h ▸ hf)
termination_by (s.length, 1)
decreasing_by all_goals
  have := s.length_drop 1
  exact .right' _ (by omega) (by decide)

theorem nested_printable {s : Span} {e : Expected} (h : nested s = .ok e) (hf : e.FloatFree) :
    e.Printable := by
  rw [nested] at h
  obtain ⟨group, -, h⟩ := Fault.bind_eq_ok h
  split at h
  · cases h
  · obtain ⟨q, hq, h⟩ := Fault.bind_eq_ok h
    obtain rfl := Fault.pure_eq_ok h
    exact query_printable hq hf
termination_by (s.length, 0)
decreasing_by
  have := group.shorter
  have := group.inside.length_trim_le
  exact .left _ _ (by omega)

end

end Printable

end Parser

/-- The text of a path that was read is read as the same path, in whatever spelling the path was
given: what the parser makes shows in its text, as long as no double is in it. -/
theorem parse_canonical {text : String} {p : Path} (h : Path.parse text = .ok p)
    (hf : PathFloatFree p) : PathPrintable p ∧ Path.parse p.toText = .ok p := by
  have hread : Parser.path (Span.ofText text) = .ok p := by
    unfold Path.parse Path.read at h
    cases hp : Parser.path (Span.ofText text) with
    | error fault =>
      rw [hp] at h
      cases h
    | ok q =>
      rw [hp] at h
      exact congrArg Except.ok (Except.ok.inj h)
  have hprintable : PathPrintable p := Parser.path_printable hread hf
  exact ⟨hprintable, Path.parse_toText hprintable⟩

theorem parse_canonical_spellings :
    let text := " //a.[ 'b' ]/[?\x7b @k/.. : = \x7b\"x\": [1]\x7d , . : bare\x7d]/ [\x7bc, [1:]\x7d]"
    let one : Json := .num (.int ⟨1, by decide, by decide⟩)
    let query : Query :=
      [([.key "k", .tag .parent], .value (.obj [("x", .arr [one])])), ([], .value (.str "bare"))]
    let p : Path :=
      [.tag .root, .key "a", .key "b", .predicate query,
        .union [[.key "c"], [.slice ⟨some 1, none, none⟩]] true]
    Path.parse text = .ok p ∧ PathFloatFree p ∧ PathPrintable p ∧ Path.parse p.toText = .ok p := by
  intro text one query p
  have hparse : Path.parse text = .ok p := by cbv
  have hfloat : PathFloatFree p := by
    simp [p, query, one, PathFloatFree, Segment.FloatFree, QueryFloatFree, Expected.FloatFree,
      AlternativesFloatFree, Json.FloatFree, Json.FloatFreeItems, Json.FloatFreeFields]
  exact ⟨hparse, hfloat, parse_canonical hparse hfloat⟩

end TreePath

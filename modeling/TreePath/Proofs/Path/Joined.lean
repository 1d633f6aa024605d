import TreePath.Error
import TreePath.Proofs.Path.Continued
import TreePath.Proofs.Path.Image

namespace TreePath

open Text (isBlank)
open Nesting (isOpener)

namespace Parser

/-- What may stand behind a path: nothing, or a slash and more hops. -/
inductive Continues : List Char → Path → Prop where
  | done : Continues [] []
  | slash {text : List Char} {q : Path} (h : Gives hops text q) : Continues ('/' :: text) q

theorem Continues.endsHop {more : List Char} {q : Path} (h : Continues more q) : EndsHop more := by
  cases h with
  | done => exact .inl rfl
  | slash => exact .inr (.inl ⟨_, rfl⟩)

section Skipping

/-- Characters to skip in front make no difference. -/
theorem dropWhile_front {s : Span} {front rest : List Char} {p : Char → Bool}
    (hs : s.chars = front ++ rest) (hfront : ∀ c ∈ front, p c = true) :
    s.dropWhile p = (⟨s.start + front.length, rest⟩ : Span).dropWhile p := by
  simp only [Span.dropWhile, hs, List.dropWhile_append_of_pos hfront,
    List.takeWhile_append_of_pos hfront, List.length_append]
  rw [Nat.add_assoc]

theorem exists_dropWhile (s : Span) (p : Char → Bool) :
    ∃ front, s.chars = front ++ (s.dropWhile p).chars ∧ ∀ c ∈ front, p c = true :=
  ⟨s.chars.takeWhile p, List.takeWhile_append_dropWhile.symm, fun _ => List.mem_takeWhile_imp⟩

theorem gives_hops_front {front text : List Char} {p : Path}
    (hfront : ∀ c ∈ front, (isBlank c || decide (c = '/')) = true) (h : Gives hops text p) :
    Gives hops (front ++ text) p := by
  intro s hs
  have hskip : s.skipSeparators = (⟨s.start + front.length, text⟩ : Span).skipSeparators :=
    dropWhile_front hs hfront
  rw [hops, hskip, ← hops]
  exact h _ rfl

theorem following_of_ne {s : Span} (hs : ∀ rest, s.chars ≠ '[' :: rest) :
    following s = match s.skipBlanks.chars with
      | [] => .ok []
      | c :: rest =>
        if c = '/' ∨ c = '.' then hops ⟨s.skipBlanks.start + 1, rest⟩
        else .error ⟨.unexpected c, s.skipBlanks.start⟩ := by
  rw [following]
  split
  · next heq => exact absurd heq (hs _)
  · split
    · next heq => rw [heq]
    · next heq => rw [heq]

theorem gives_following_front {front text : List Char} {c : Char} {p : Path}
    (hfront : ∀ c ∈ front, isBlank c = true) (hc : c = '/' ∨ c = '.') (h : Gives hops text p) :
    Gives following (front ++ c :: text) p := by
  intro s hs
  have hvisible : isBlank c = false ∧ c ≠ '[' := by rcases hc with rfl | rfl <;> decide
  have hplain : ∀ rest, s.chars ≠ '[' :: rest := by
    intro rest heq
    cases front with
    | nil => exact hvisible.2 (List.cons.inj (hs.symm.trans heq)).1
    | cons d front =>
      have := hfront d List.mem_cons_self
      rw [(List.cons.inj (hs.symm.trans heq)).1] at this
      exact absurd this (by decide)
  have hskip : s.skipBlanks = ⟨s.start + front.length, c :: text⟩ :=
    (dropWhile_front hs hfront).trans (dropWhile_eq rfl hvisible.1)
  rw [following_of_ne hplain, hskip]
  simp only [if_pos hc]
  exact h _ rfl

theorem gives_following_blanks {text : List Char} (h : ∀ c ∈ text, isBlank c = true) :
    Gives following text [] := by
  intro s hs
  have hplain : ∀ rest, s.chars ≠ '[' :: rest := by
    intro rest heq
    have := h '[' (by rw [← hs, heq]; exact List.mem_cons_self)
    exact absurd this (by decide)
  have hskip : s.skipBlanks = ⟨s.start + text.length, []⟩ :=
    (dropWhile_front (hs.trans (List.append_nil _).symm) h)
  rw [following_of_ne hplain, hskip]

end Skipping

-- The rules call each other on shorter spans, or on the same span by a lower rule.
section Rules

/-- What is read of a span that is one group is read of the same group elsewhere. -/
theorem enclosed_gives {α : Type} {s t : Span} {c : Char} {rest : List Char}
    (read : Span → Except Fault α) (give : α → Path) {other other' : Except Fault Path} {p : Path}
    (hs : s.chars = c :: rest) (ho : isOpener c = true) (ht : t.chars = s.chars)
    (h : (s.enclosed >>= fun found => match found with
      | some inside => read inside.1.trim >>= fun a => pure (give a)
      | none => other) = .ok p)
    (hread : ∀ inside inside' : Span, inside.length + 2 = s.length → ∀ a,
      read inside.trim = .ok a → inside'.trim.chars = inside.trim.chars →
      read inside'.trim = .ok a)
    (hother : other = .ok p → other' = .ok p) :
    (t.enclosed >>= fun found => match found with
      | some inside => read inside.1.trim >>= fun a => pure (give a)
      | none => other') = .ok p := by
  obtain ⟨found, hfound, h⟩ := Fault.bind_eq_ok h
  obtain ⟨found', hfound', hinside⟩ := Span.enclosed_shift hs ho hfound ht
  rw [hfound']
  match found, found', hinside with
  | some inside, some inside', hinside =>
    obtain ⟨a, ha, h⟩ := Fault.bind_eq_ok h
    have htrim := Span.trim_shift (Option.some.inj hinside)
    exact (Fault.bind_of_ok (hread inside.1 inside'.1 inside.2 a ha htrim) _).trans h
  | none, none, _ => exact hother h

theorem selectorTag_shift {start : Nat} {name : List Char} {p : Path}
    (h : selectorTag start name = .ok p) (start' : Nat) : selectorTag start' name = .ok p := by
  unfold selectorTag at h ⊢
  split at h
  · exact h
  · cases h

mutual

/-- A path is read wherever its text stands. -/
theorem path_shift {s t : Span} {p : Path} (h : path s = .ok p)
    (ht : t.chars = s.chars) : path t = .ok p := by
  have hskip : t.skipBlanks.chars = s.skipBlanks.chars := by
    rw [Span.skipBlanks_chars, Span.skipBlanks_chars, ht]
  have hdrop := s.length_skipBlanks_le
  rw [path] at h ⊢
  rw [hskip]
  split at h
  · next rest hs =>
    obtain ⟨p, hp, h⟩ := Fault.bind_eq_ok h
    obtain rfl := Fault.pure_eq_ok h
    have hgives := hops_append hp .done
    rw [List.append_nil, List.append_nil] at hgives
    exact Fault.bind_of_ok (hgives _ (by simp only [Span.drop, hskip])) _
  · next hs =>
    have hgives := hops_append h .done
    rw [List.append_nil, List.append_nil] at hgives
    exact hgives _ hskip
termination_by (s.length, 3)
decreasing_by all_goals
  have := s.skipBlanks.length_drop 1
  exact .right' _ (by omega) (by decide)

/-- Hops that are read up to the end of the text are read in front of more hops as well. -/
theorem hops_append {s : Span} {p q : Path} {more : List Char} (h : hops s = .ok p)
    (hmore : Continues more q) : Gives hops (s.chars ++ more) (p ++ q) := by
  obtain ⟨front, hfront, hall⟩ := exists_dropWhile s fun c => isBlank c || decide (c = '/')
  change s.chars = front ++ s.skipSeparators.chars at hfront
  have hlength : s.skipSeparators.length ≤ s.length := s.length_dropWhile_le _
  rw [hfront, List.append_assoc]
  refine gives_hops_front hall ?_
  -- Behind the separators there is nothing, or a hop that ends in front of a slash as well.
  rw [hops] at h
  split at h
  · next hs =>
    obtain rfl := Except.ok.inj h
    rw [hs]
    cases hmore with
    | done => exact gives_hops_nil
    | slash hq =>
      have hslash : ∀ c ∈ ['/'], (isBlank c || decide (c = '/')) = true := by simp
      have hgives := gives_hops_front hslash hq
      exact hgives
  · next rest hs =>
    have hgives : Gives brackets (s.skipSeparators.chars ++ more) (p ++ q) :=
      fun t ht => brackets_append hs h hmore ht
    rw [hs] at hgives ⊢
    exact gives_hops_brackets hgives
  · next hnil hbracket =>
    obtain ⟨hop, hhop, h⟩ := Fault.bind_eq_ok h
    obtain ⟨rest, hrest, h⟩ := Fault.bind_eq_ok h
    obtain rfl := Fault.pure_eq_ok h
    obtain ⟨c, cs, hs⟩ := List.exists_cons_of_ne_nil hnil
    have hbehind := following_append hrest hmore
    refine gives_hops_hop ⟨c, cs ++ more, by rw [hs]; rfl, startsHop_skipSeparators hs⟩ ?_
      (fun t ht => Span.reads_append hhop hmore.endsHop ht) hbehind
    intro rest heq
    rw [hs, List.cons_append] at heq
    exact hbracket cs (hs.trans (by rw [(List.cons.inj heq).1]))
termination_by (s.length, 2)
decreasing_by
  · exact .right' _ hlength (by decide)
  · have := hop.shorter
    exact .left _ _ (by omega)

theorem brackets_append {s t : Span} {p q : Path} {more rest : List Char}
    (hs : s.chars = '[' :: rest) (h : brackets s = .ok p) (hmore : Continues more q)
    (ht : t.chars = s.chars ++ more) : brackets t = .ok (p ++ q) := by
  rw [brackets] at h ⊢
  obtain ⟨g, hg, h⟩ := Fault.bind_eq_ok h
  obtain ⟨segments, hsegments, h⟩ := Fault.bind_eq_ok h
  obtain ⟨p, hp, h⟩ := Fault.bind_eq_ok h
  obtain rfl := Fault.pure_eq_ok h
  obtain ⟨g', hg', hinside, hrest⟩ := Span.group_append hs rfl hg ht
  rw [hg']
  refine (Fault.bind_of_ok (selector_shift hsegments (Span.trim_shift hinside)) _).trans ?_
  refine (Fault.bind_of_ok (following_append hp hmore _ hrest) _).trans ?_
  rw [List.append_assoc]
  rfl
termination_by (s.length, 0)
decreasing_by all_goals
  have := g.shorter
  have := g.inside.length_trim_le
  exact .left _ _ (by omega)

theorem following_append {s : Span} {p q : Path} {more : List Char} (h : following s = .ok p)
    (hmore : Continues more q) : Gives following (s.chars ++ more) (p ++ q) := by
  by_cases hbracket : ∃ rest, s.chars = '[' :: rest
  · obtain ⟨rest, hs⟩ := hbracket
    rw [following, hs] at h
    have hgives : Gives brackets (s.chars ++ more) (p ++ q) :=
      fun t ht => brackets_append hs h hmore ht
    rw [hs] at hgives ⊢
    exact gives_following_brackets hgives
  · obtain ⟨front, hfront, hall⟩ := exists_dropWhile s isBlank
    change s.chars = front ++ s.skipBlanks.chars at hfront
    have hlength := s.length_skipBlanks_le
    rw [following_of_ne fun rest hs => hbracket ⟨rest, hs⟩] at h
    rw [hfront, List.append_assoc]
    split at h
    · next hs =>
      obtain rfl := Except.ok.inj h
      rw [hs]
      cases hmore with
      | done => exact gives_following_blanks (by simpa using hall)
      | slash hq => exact gives_following_front hall (.inl rfl) hq
    · next c rest hs =>
      split at h
      · next hc =>
        rw [hs]
        exact gives_following_front hall hc (hops_append h hmore)
      · cases h
termination_by (s.length, 1)
decreasing_by
  · exact .right _ (by decide)
  · next hs _ =>
    simp only [Span.length, hs, List.length_cons] at hlength
    exact .left _ _ (by simp only [Span.length]; omega)

theorem selector_shift {s t : Span} {p : Path} (h : selector s = .ok p)
    (ht : t.chars = s.chars) : selector t = .ok p := by
  have hsplice : spliced s = .ok p → spliced t = .ok p := fun h => spliced_shift h ht
  have hlength := s.length_drop 1
  rw [selector] at h ⊢
  rw [ht]
  split at h
  · cases h
  · exact h
  · next rest hs =>
    have hdrop : (s.drop 1).chars = '{' :: rest := by simp [Span.drop, hs]
    have hdrop' : (t.drop 1).chars = (s.drop 1).chars := by simp only [Span.drop, ht]
    obtain ⟨found, hfound, h⟩ := Fault.bind_eq_ok h
    obtain ⟨found', hfound', hinside⟩ := Span.enclosed_shift hdrop rfl hfound hdrop'
    rw [hfound']
    match found, found', hinside with
    | some inside, some inside', hinside =>
      obtain ⟨q, hq, h⟩ := Fault.bind_eq_ok h
      have htrim := Span.trim_shift (Option.some.inj hinside)
      have := inside.2
      have := inside.1.length_trim_le
      exact (Fault.bind_of_ok (query_shift hq htrim) _).trans h
    | none, _, _ => cases h
  · cases h
  · next hs =>
    exact enclosed_gives braces (fun segment => [segment]) hs rfl ht h
      (fun inside _ _ segment hsegment htrim => braces_shift hsegment htrim) hsplice
  · next hs =>
    exact enclosed_gives members (fun ps => [.union ps false]) hs rfl ht h
      (fun inside _ _ ps hps htrim => members_shift hps htrim) hsplice
  · next hs =>
    exact enclosed_gives members (fun ps => [.tuple ps.flatten]) hs rfl ht h
      (fun inside _ _ ps hps htrim => members_shift hps htrim) hsplice
  · exact hsplice h
termination_by (s.length, 5)
decreasing_by
  · exact .right _ (by decide)
  · exact .left _ _ (by omega)
  all_goals
    have := inside.length_trim_le
    exact .left _ _ (by omega)

theorem spliced_shift {s t : Span} {p : Path} (h : spliced s = .ok p)
    (ht : t.chars = s.chars) : spliced t = .ok p := by
  rw [spliced] at h ⊢
  obtain ⟨found, hfound, h⟩ := Fault.bind_eq_ok h
  obtain ⟨found', hfound', htexts⟩ := Span.cut_shift rfl hfound ht
  have hsome : found'.isSome = found.isSome := by
    simpa only [Option.isSome_map] using congrArg Option.isSome htexts
  rw [hfound']
  change (if found'.isSome = true then _ else _) = _
  rw [hsome]
  split at h
  · next hcut =>
    rw [if_pos hcut]
    obtain ⟨slice, hslice, h⟩ := Fault.bind_eq_ok h
    rw [Slice.read_shift hslice ht]
    exact h
  · next hcut =>
    rw [if_neg hcut, ht]
    split at h
    · exact selectorTag_shift h t.start
    · exact path_shift h ht
termination_by (s.length, 4)
decreasing_by exact .right _ (by decide)

theorem braces_shift {s t : Span} {segment : Segment} (h : braces s = .ok segment)
    (ht : t.chars = s.chars) : braces t = .ok segment := by
  rw [braces] at h ⊢
  rw [ht]
  split at h
  · next hnil => rwa [if_pos hnil]
  · next hnil =>
    rw [if_neg hnil]
    obtain ⟨parts, hparts, h⟩ := Fault.bind_eq_ok h
    obtain ⟨parts', hparts', hchars⟩ := Span.split_shift rfl hparts ht
    rw [hparts']
    change (if parts'.toList.any (·.hasCut ':') = true then _ else _) = _
    rw [Span.anyCut_shift rfl hchars]
    split at h
    · next hcolon =>
      obtain ⟨q, hq, h⟩ := Fault.bind_eq_ok h
      rw [if_pos hcolon]
      exact (Fault.bind_of_ok (query_shift hq ht) _).trans h
    · next hcolon =>
      obtain ⟨ps, hps, h⟩ := Fault.bind_eq_ok h
      rw [if_neg hcolon]
      exact (Fault.bind_of_ok (members_shift hps ht) _).trans h
termination_by (s.length + 1, 2)
decreasing_by all_goals exact .right _ (by decide)

theorem members_shift {s t : Span} {ps : List Path} (h : members s = .ok ps)
    (ht : t.chars = s.chars) : members t = .ok ps := by
  rw [members] at h ⊢
  rw [ht]
  split at h
  · next hnil => rwa [if_pos hnil]
  · next hnil =>
    rw [if_neg hnil]
    obtain ⟨parts, hparts, h⟩ := Fault.bind_eq_ok h
    obtain ⟨parts', hparts', hchars⟩ := Span.split_shift rfl hparts ht
    rw [hparts']
    exact paths_shift h hchars
termination_by (s.length + 1, 1)
decreasing_by exact .right' _ (Nat.le_of_eq parts.extent_eq) (by decide)

theorem paths_shift {parts parts' : List Span} {ps : List Path} (h : paths parts = .ok ps)
    (hparts : parts'.map Span.chars = parts.map Span.chars) : paths parts' = .ok ps := by
  match parts with
  | [] => rwa [List.map_eq_nil_iff.mp hparts]
  | part :: parts =>
    obtain ⟨part', parts', rfl, hpart, hrest⟩ := List.map_eq_cons_iff.mp hparts
    have htrim := Span.trim_shift hpart
    rw [paths] at h ⊢
    rw [htrim]
    split at h
    · cases h
    · next hnil =>
      obtain ⟨p, hp, h⟩ := Fault.bind_eq_ok h
      obtain ⟨rest, hrest', h⟩ := Fault.bind_eq_ok h
      rw [if_neg hnil]
      refine (Fault.bind_of_ok (path_shift hp htrim) _).trans ?_
      rw [paths_shift hrest' hrest]
      exact h
termination_by (Span.extent parts, 0)
decreasing_by all_goals
  have := part.length_trim_le
  exact .left _ _ (by simp only [Span.extent]; omega)

theorem query_shift {s t : Span} {q : Query} (h : query s = .ok q)
    (ht : t.chars = s.chars) : query t = .ok q := by
  rw [query] at h ⊢
  rw [ht]
  split at h
  · next hnil => rwa [if_pos hnil]
  · next hnil =>
    rw [if_neg hnil]
    obtain ⟨parts, hparts, h⟩ := Fault.bind_eq_ok h
    obtain ⟨parts', hparts', hchars⟩ := Span.split_shift rfl hparts ht
    rw [hparts']
    exact entries_shift h hchars
termination_by (s.length + 1, 1)
decreasing_by exact .right' _ (Nat.le_of_eq parts.extent_eq) (by decide)

theorem entries_shift {parts parts' : List Span} {q : Query} (h : entries parts = .ok q)
    (hparts : parts'.map Span.chars = parts.map Span.chars) : entries parts' = .ok q := by
  match parts with
  | [] => rwa [List.map_eq_nil_iff.mp hparts]
  | part :: parts =>
    obtain ⟨part', parts', rfl, hpart, hrest⟩ := List.map_eq_cons_iff.mp hparts
    have htrim := Span.trim_shift hpart
    rw [entries] at h ⊢
    rw [htrim]
    split at h
    · cases h
    · next hnil =>
      rw [if_neg hnil]
      obtain ⟨found, hfound, h⟩ := Fault.bind_eq_ok h
      obtain ⟨found', hfound', htexts⟩ := Span.cut_shift rfl hfound htrim
      rw [hfound']
      match found, found', htexts with
      | none, _, _ => cases h
      | some cut, some cut', htexts =>
        obtain ⟨hbefore, hafter⟩ := Prod.mk.inj (Option.some.inj htexts)
        obtain ⟨key, hkey, h⟩ := Fault.bind_eq_ok h
        obtain ⟨value, hvalue, h⟩ := Fault.bind_eq_ok h
        obtain ⟨rest, hrest', h⟩ := Fault.bind_eq_ok h
        refine (Fault.bind_of_ok (queryKey_shift hkey (Span.trim_shift hbefore)) _).trans ?_
        refine (Fault.bind_of_ok (expected_shift hvalue (Span.trim_shift hafter)) _).trans ?_
        rw [entries_shift hrest' hrest]
        exact h
termination_by (Span.extent parts, 0)
decreasing_by
  · have := cut.shorter
    have := part.length_trim_le
    have := cut.before.length_trim_le
    exact .left _ _ (by simp only [Span.extent]; omega)
  · have := cut.shorter
    have := part.length_trim_le
    have := cut.after.length_trim_le
    exact .left _ _ (by simp only [Span.extent]; omega)
  · exact .left _ _ (by simp only [Span.extent]; omega)

theorem queryKey_shift {s t : Span} {p : Path} (h : queryKey s = .ok p)
    (ht : t.chars = s.chars) : queryKey t = .ok p := by
  have hdrop : (t.drop 1).chars = (s.drop 1).chars := by simp only [Span.drop, ht]
  have hlength := s.length_drop 1
  rw [queryKey] at h ⊢
  rw [ht]
  split at h
  · exact h
  · exact h
  · exact h
  · exact path_shift h hdrop
  · exact path_shift h ht
termination_by (s.length, 4)
decreasing_by all_goals exact .right' _ (by omega) (by decide)

theorem expected_shift {s t : Span} {e : Expected} (h : expected s = .ok e)
    (ht : t.chars = s.chars) : expected t = .ok e := by
  have hdrop : (t.drop 1).chars = (s.drop 1).chars := by simp only [Span.drop, ht]
  have hlength := s.length_drop 1
  rw [expected] at h ⊢
  rw [ht]
  split at h
  · cases h
  · next rest hs =>
    have hbrace : (s.drop 1).chars = '{' :: rest := by simp [Span.drop, hs]
    exact nested_shift hbrace h hdrop
  · next hs => exact nested_shift hs h ht
  · exact Expected.readMarked_shift h hdrop
  · exact Expected.readQuoted_shift h ht
  · exact h
termination_by (s.length, 1)
decreasing_by all_goals exact .right' _ (by omega) (by decide)

theorem nested_shift {s t : Span} {rest : List Char} {e : Expected} (hs : s.chars = '{' :: rest)
    (h : nested s = .ok e) (ht : t.chars = s.chars) : nested t = .ok e := by
  rw [nested] at h ⊢
  obtain ⟨g, hg, h⟩ := Fault.bind_eq_ok h
  obtain ⟨g', hg', hinside, hrest⟩ := Span.group_shift hs rfl hg ht
  rw [hg']
  change (if !g'.rest.chars.isEmpty then _ else _) = _
  rw [hrest]
  split at h
  · cases h
  · next hnil =>
    obtain ⟨q, hq, h⟩ := Fault.bind_eq_ok h
    rw [if_neg hnil]
    exact (Fault.bind_of_ok (query_shift hq (Span.trim_shift hinside)) _).trans h
termination_by (s.length, 0)
decreasing_by
  have := g.shorter
  have := g.inside.length_trim_le
  exact .left _ _ (by omega)

end

/-- A path with a hop in it goes on behind a slash. -/
theorem path_append {s : Span} {p q : Path} {more : List Char} (h : path s = .ok p) (hp : p ≠ [])
    (hmore : Continues more q) : Gives path (s.chars ++ more) (p ++ q) := by
  intro t ht
  have hvisible : s.skipBlanks.chars ≠ [] := by
    intro hnil
    rw [path, hnil] at h
    have hskip : s.skipBlanks.skipSeparators.chars = [] :=
      congrArg (List.dropWhile fun c => isBlank c || decide (c = '/')) hnil
    change hops s.skipBlanks = .ok p at h
    rw [hops, hskip] at h
    exact hp (Except.ok.inj h).symm
  have hskip : t.skipBlanks.chars = s.skipBlanks.chars ++ more := by
    rw [Span.skipBlanks_chars, ht, List.dropWhile_append]
    exact if_neg fun hnil => hvisible (List.isEmpty_iff.mp hnil)
  rw [path] at h ⊢
  rw [hskip]
  split at h
  · next rest hs =>
    obtain ⟨p, hhops, h⟩ := Fault.bind_eq_ok h
    obtain rfl := Fault.pure_eq_ok h
    rw [hs, List.cons_append]
    refine Fault.bind_of_ok (hops_append hhops hmore _ ?_) _
    simp only [Span.drop, hskip, hs, List.cons_append, List.drop_succ_cons, List.drop_zero]
  · next hslash =>
    obtain ⟨c, rest, hs⟩ := List.exists_cons_of_ne_nil hvisible
    rw [hs, List.cons_append]
    split
    · next heq => exact absurd (hs.trans (by rw [(List.cons.inj heq).1])) (hslash rest)
    · exact hops_append h hmore _ hskip

/-- A path that does not start at the root is one run of hops. -/
theorem gives_hops_of_path {s : Span} {p : Path} (h : path s = .ok p)
    (hslash : ∀ rest, s.skipBlanks.chars ≠ '/' :: rest) : Gives hops s.chars p := by
  obtain ⟨front, hfront, hall⟩ := exists_dropWhile s isBlank
  change s.chars = front ++ s.skipBlanks.chars at hfront
  have hhops : hops s.skipBlanks = .ok p := by
    rw [path] at h
    split at h
    · next hs => exact absurd hs (hslash _)
    · exact h
  have hgives := hops_append hhops .done
  rw [List.append_nil, List.append_nil] at hgives
  rw [hfront]
  exact gives_hops_front (fun c hc => by rw [hall c hc]; rfl) hgives

end Rules

end Parser

/-- Texts joined by a slash denote the paths joined. What is in front of the slash denotes at least
one hop, for else the slash would stand for the root, and what is behind it does not start at the
root itself. -/
theorem parse_join {a b : String} {p q : Path} (ha : Path.parse a = .ok p) (hp : p ≠ [])
    (hb : Path.parse b = .ok q) (hslash : (b.toList.dropWhile isBlank).head? ≠ some '/') :
    Path.parse (a ++ "/" ++ b) = .ok (p.join q) := by
  have hread : ∀ {text : String} {p : Path}, Path.parse text = .ok p ↔ Path.read text = .ok p := by
    intro text p
    rw [Path.parse]
    cases Path.read text <;> simp [Except.mapError]
  rw [hread] at ha hb ⊢
  have hhops := Parser.gives_hops_of_path hb fun rest hs => hslash (by
    rw [Span.skipBlanks_chars] at hs
    exact congrArg List.head? hs)
  refine Parser.path_append ha hp (.slash hhops) _ ?_
  simp [Span.ofText, String.toList_append]

theorem parse_join_blanks :
    let a := " /a.b/[ 'c]' ] . "
    let b := " . /\"d/\"[1]// "
    let p : Path := [.tag .root, .key "a", .key "b", .key "c]"]
    let q : Path := [.tag .current, .key "d/", .index 1]
    (Path.parse a = .ok p ∧ p ≠ [] ∧ Path.parse b = .ok q ∧
      (b.toList.dropWhile isBlank).head? ≠ some '/') ∧
      Path.parse (a ++ "/" ++ b) = .ok (p.join q) := by
  intro a b p q
  have ha : Path.parse a = .ok p := by cbv
  have hb : Path.parse b = .ok q := by cbv
  have hslash : (b.toList.dropWhile isBlank).head? ≠ some '/' := by decide
  exact ⟨⟨ha, by simp [p], hb, hslash⟩, parse_join ha (by simp [p]) hb hslash⟩

end TreePath

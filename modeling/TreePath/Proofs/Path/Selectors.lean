import TreePath.Proofs.Path.Hops
import TreePath.Proofs.Path.Rules

namespace TreePath

open Nesting

/-- Texts with commas between them. -/
def commas : List (List Char) → List Char
  | [] => []
  | [w] => w
  | w :: v :: rest => w ++ ',' :: ' ' :: commas (v :: rest)

theorem commas_ne_nil {w : List Char} (hw : w ≠ []) (ws : List (List Char)) :
    commas (w :: ws) ≠ [] := by
  cases ws <;> simp [commas, hw]

section Splitting

variable {bare : Char → Prop}

theorem balanced_space {w : List Char} (hspace : bare ' ') (h : Balanced bare w) :
    Balanced bare (' ' :: w) :=
  .bare (by decide) hspace h

/-- A list is split into its items, behind the first one with the blank in front. -/
theorem split_commas (hbare : ∀ c, bare c → c ≠ ',') {w : List Char} {ws : List (List Char)}
    (hw : Balanced bare w) (hws : ∀ v ∈ ws, Balanced bare (' ' :: v)) (i : Nat) :
    ∃ head tail, (plain []).split ',' i (commas (w :: ws)) = .ok (head, tail) ∧
      (head :: tail).map Span.chars = w :: ws.map (' ' :: ·) := by
  induction ws generalizing w i with
  | nil => exact ⟨_, _, split_word (by decide) hw hbare i, rfl⟩
  | cons v rest ih =>
    have hspaced : ∃ head tail,
        (plain []).split ',' (i + w.length + 1) (' ' :: commas (v :: rest)) = .ok (head, tail) ∧
          (head :: tail).map Span.chars = (' ' :: v) :: rest.map (' ' :: ·) := by
      have hv : Balanced bare (' ' :: v) := hws v (by simp)
      have htail := ih hv (fun u hu => hws u (List.mem_cons_of_mem _ hu)) (i + w.length + 1)
      cases rest with
      | nil => exact htail
      | cons u rest => exact htail
    obtain ⟨head, tail, hsplit, hparts⟩ := hspaced
    refine ⟨⟨i, w⟩, head :: tail, ?_, ?_⟩
    · rw [commas, split_separator (by decide) hw hbare, hsplit]
      rfl
    · rw [List.map_cons, hparts]
      rfl

theorem Span.split_commas (hbare : ∀ c, bare c → c ≠ ',') {s : Span} {w : List Char}
    {ws : List (List Char)} (hw : Balanced bare w) (hws : ∀ v ∈ ws, Balanced bare (' ' :: v))
    (hs : s.chars = commas (w :: ws)) :
    ∃ p : Parts s, s.split ',' = .ok p ∧ p.toList.map Span.chars = w :: ws.map (' ' :: ·) := by
  obtain ⟨head, tail, hsplit, hparts⟩ := TreePath.split_commas hbare hw hws s.start
  rw [← hs] at hsplit
  obtain ⟨p, hp, rfl, rfl⟩ := split_eq hsplit
  exact ⟨p, hp, hparts⟩

/-- Without the blanks, the parts of a list are its items. -/
theorem trim_parts {parts : List Span} {w : List Char} {ws : List (List Char)} (hw : Edged w)
    (hws : ∀ v ∈ ws, Edged v) (h : parts.map Span.chars = w :: ws.map (' ' :: ·)) :
    parts.map (fun part => part.trim.chars) = w :: ws := by
  cases parts with
  | nil => simp at h
  | cons part rest =>
    obtain ⟨hpart, hrest⟩ := List.cons.inj h
    have htail : rest.map (fun part => part.trim.chars) = ws := by
      clear h hpart
      induction rest generalizing ws with
      | nil => simpa using hrest
      | cons part rest ih =>
        cases ws with
        | nil => simp at hrest
        | cons v ws =>
          obtain ⟨hv, hrest⟩ := List.cons.inj hrest
          have hedged := hws v (by simp)
          rw [List.map_cons, Span.trim_space hedged hv,
            ih (fun u hu => hws u (List.mem_cons_of_mem _ hu)) hrest]
    rw [List.map_cons, htail, Span.trim_edged (hpart ▸ hw), hpart]

end Splitting

theorem Solid.space {w : List Char} (h : Solid w) : Balanced IsInner (' ' :: w) :=
  balanced_space ⟨by decide, by decide⟩ h.balanced

/-- Without blanks at its ends, but maybe empty. -/
def Trimmed (text : List Char) : Prop := text = [] ∨ Edged text

theorem Trimmed.trim_eq {text : List Char} (h : Trimmed text) {s : Span} (hs : s.chars = text) :
    s.trim.chars = text := by
  rcases h with rfl | h
  · exact Span.trim_nil hs
  · rw [Span.trim_edged (hs ▸ h), hs]

theorem edged_commas {w : List Char} {ws : List (List Char)} (hw : Edged w)
    (hws : ∀ v ∈ ws, Edged v) : Edged (commas (w :: ws)) := by
  induction ws generalizing w with
  | nil => exact hw
  | cons v rest ih =>
    have hrest := ih (hws v (by simp)) fun u hu => hws u (List.mem_cons_of_mem _ hu)
    exact hw.between hrest [',', ' ']

theorem trimmed_commas {ws : List (List Char)} (h : ∀ w ∈ ws, Edged w) : Trimmed (commas ws) := by
  cases ws with
  | nil => exact .inl rfl
  | cons w ws =>
    exact .inr (edged_commas (h w (by simp)) fun v hv => h v (List.mem_cons_of_mem _ hv))

theorem balanced_commas {bare : Char → Prop} {ws : List (List Char)} (hcomma : bare ',')
    (hspace : bare ' ') (h : ∀ w ∈ ws, Balanced bare w) : Balanced bare (commas ws) := by
  induction ws with
  | nil => exact .nil
  | cons w ws ih =>
    have hw := h w (by simp)
    have hrest := ih fun v hv => h v (List.mem_cons_of_mem _ hv)
    cases ws with
    | nil => exact hw
    | cons v rest =>
      exact hw.append (.bare (by decide) hcomma (balanced_space hspace hrest))

namespace Parser

section Lists

variable {α : Type} {text : α → List Char} {value : α → Path}

theorem paths_eq (items : List α) {parts : List Span}
    (hparts : parts.map (fun part => part.trim.chars) = items.map text)
    (h : ∀ x ∈ items, text x ≠ [] ∧ Gives path (text x) (value x)) :
    paths parts = .ok (items.map value) := by
  induction parts generalizing items with
  | nil =>
    cases items with
    | nil => rw [paths]; rfl
    | cons x items => simp at hparts
  | cons part parts ih =>
    cases items with
    | nil => simp at hparts
    | cons x items =>
      obtain ⟨hpart, hrest⟩ := List.cons.inj hparts
      obtain ⟨hne, hgives⟩ := h x (by simp)
      have hitems := ih items hrest fun y hy => h y (List.mem_cons_of_mem _ hy)
      rw [paths, if_neg (by simp [hpart, hne])]
      change (do return (← path part.trim) :: (← paths parts)) = _
      rw [hgives _ hpart, hitems]
      rfl

/-- Items that read back, in a list. -/
theorem gives_members {items : List α}
    (h : ∀ x ∈ items, Solid (text x) ∧ Gives path (text x) (value x)) :
    Gives members (commas (items.map text)) (items.map value) := by
  intro s hs
  cases items with
  | nil =>
    rw [members, if_pos (by rw [hs]; rfl)]
    rfl
  | cons x items =>
    have hsolid : ∀ v ∈ items.map text, Solid v := by
      intro v hv
      obtain ⟨y, hy, rfl⟩ := List.mem_map.mp hv
      exact (h y (List.mem_cons_of_mem _ hy)).1
    have hx := (h x (by simp)).1
    obtain ⟨parts, hsplit, hparts⟩ := Span.split_commas (fun _ hc => hc.1) hx.balanced
      (fun v hv => (hsolid v hv).space) hs
    have hpaths := paths_eq (x :: items)
      (trim_parts hx.edged (fun v hv => (hsolid v hv).edged) hparts)
      fun y hy => ⟨(h y hy).1.edged.ne_nil, (h y hy).2⟩
    rw [members, if_neg (by rw [hs]; simpa using commas_ne_nil hx.edged.ne_nil _), hsplit]
    exact hpaths

end Lists

/-- The text of an entry: a key, a colon and a value, each of which reads back. -/
def ReadsEntry (text : List Char) (entry : Path × Expected) : Prop :=
  ∃ key value, text = key ++ ':' :: ' ' :: value ∧ Solid key ∧ Solid value ∧
    Gives queryKey key entry.1 ∧ Gives expected value entry.2

namespace ReadsEntry

variable {text : List Char} {entry : Path × Expected}

theorem edged (h : ReadsEntry text entry) : Edged text := by
  obtain ⟨key, value, rfl, hkey, hvalue, -⟩ := h
  exact hkey.edged.between hvalue.edged [':', ' ']

theorem balanced (h : ReadsEntry text entry) : Balanced (· ≠ ',') text := by
  obtain ⟨key, value, rfl, hkey, hvalue, -⟩ := h
  have hinner : ∀ {w}, Balanced IsInner w → Balanced (· ≠ ',') w := fun hw => hw.mono fun _ h => h.1
  exact (hinner hkey.balanced).append (.bare (by decide) (by decide) (hinner hvalue.space))

theorem cut_eq (h : ReadsEntry text entry) {s : Span} (hs : s.chars = text) :
    ∃ c : Span.Cut s, s.cut ':' = .ok (some c) ∧ queryKey c.before.trim = .ok entry.1 ∧
      expected c.after.trim = .ok entry.2 := by
  obtain ⟨key, value, rfl, hkey, hvalue, hreadKey, hreadValue⟩ := h
  obtain ⟨c, hc, hbefore, hafter⟩ := Span.cut_eq (show isOrdinary ':' = true from rfl)
    hkey.balanced (fun _ h => h.2) hvalue.space.any hs
  refine ⟨c, hc, hreadKey _ ?_, hreadValue _ ?_⟩
  · rw [Span.trim_edged (hbefore ▸ hkey.edged), hbefore]
  · exact Span.trim_space hvalue.edged hafter

end ReadsEntry

section Queries

variable {text : Path × Expected → List Char}

theorem entries_eq {q : Query} {parts : List Span}
    (hparts : parts.map (fun part => part.trim.chars) = q.map text)
    (h : ∀ e ∈ q, ReadsEntry (text e) e) : entries parts = .ok q := by
  induction parts generalizing q with
  | nil =>
    cases q with
    | nil => rw [entries]
    | cons e q => simp at hparts
  | cons part parts ih =>
    cases q with
    | nil => simp at hparts
    | cons e q =>
      obtain ⟨hpart, hrest⟩ := List.cons.inj hparts
      change part.trim.chars = text e at hpart
      have he := h e (by simp)
      obtain ⟨c, hcut, hkey, hvalue⟩ := he.cut_eq hpart
      rw [entries, if_neg (by rw [hpart]; simpa using he.edged.ne_nil), hcut]
      change (do
        let key ← queryKey c.before.trim
        let value ← expected c.after.trim
        return (key, value) :: (← entries parts)) = _
      rw [hkey, hvalue, ih hrest fun y hy => h y (List.mem_cons_of_mem _ hy)]
      rfl

/-- The parts of a text that lists entries. -/
theorem split_entries {e : Path × Expected} {q : Query} (h : ∀ x ∈ e :: q, ReadsEntry (text x) x)
    {s : Span} (hs : s.chars = commas ((e :: q).map text)) :
    ∃ parts : Span.Parts s, s.split ',' = .ok parts ∧ entries parts.toList = .ok (e :: q) ∧
      parts.head.chars = text e := by
  have he := h e (by simp)
  have hrest : ∀ v ∈ q.map text, Edged v ∧ Balanced (· ≠ ',') v := by
    intro v hv
    obtain ⟨y, hy, rfl⟩ := List.mem_map.mp hv
    exact ⟨(h y (List.mem_cons_of_mem _ hy)).edged, (h y (List.mem_cons_of_mem _ hy)).balanced⟩
  obtain ⟨parts, hsplit, hparts⟩ := Span.split_commas (fun _ hc => hc) he.balanced
    (fun v hv => balanced_space (by decide) (hrest v hv).2) hs
  refine ⟨parts, hsplit, ?_, (List.cons.inj hparts).1⟩
  exact entries_eq (trim_parts he.edged (fun v hv => (hrest v hv).1) hparts) h

theorem gives_query {q : Query} (h : ∀ e ∈ q, ReadsEntry (text e) e) :
    Gives query (commas (q.map text)) q := by
  intro s hs
  cases q with
  | nil =>
    rw [query, if_pos (by rw [hs]; rfl)]
    rfl
  | cons e q =>
    obtain ⟨parts, hsplit, hentries, -⟩ := split_entries h hs
    have hne := commas_ne_nil (h e (by simp)).edged.ne_nil (q.map text)
    rw [query, if_neg (by rw [hs]; simpa using hne), hsplit]
    exact hentries

theorem trimmed_entries {q : Query} (h : ∀ e ∈ q, ReadsEntry (text e) e) :
    Trimmed (commas (q.map text)) := by
  refine trimmed_commas fun w hw => ?_
  obtain ⟨e, he, rfl⟩ := List.mem_map.mp hw
  exact (h e he).edged

theorem balanced_entries {q : Query} (h : ∀ e ∈ q, ReadsEntry (text e) e) :
    Balanced (fun _ => True) (commas (q.map text)) := by
  refine balanced_commas trivial trivial fun w hw => ?_
  obtain ⟨e, he, rfl⟩ := List.mem_map.mp hw
  exact (h e he).balanced.any

/-- Between braces, a list of entries is a query. -/
theorem gives_braces_query {q : Query} (h : ∀ e ∈ q, ReadsEntry (text e) e) :
    Gives braces (commas (q.map text)) (.predicate q) := by
  intro s hs
  cases q with
  | nil =>
    rw [braces, if_pos (by rw [hs]; rfl)]
    rfl
  | cons e q =>
    obtain ⟨parts, hsplit, -, hhead⟩ := split_entries h hs
    obtain ⟨c, hcut, -⟩ := (h e (by simp)).cut_eq hhead
    have hany : parts.toList.any (·.hasCut ':') = true := by
      simp [Span.Parts.toList, Span.hasCut, hcut]
    have hne := commas_ne_nil (h e (by simp)).edged.ne_nil (q.map text)
    have hquery := gives_query h s hs
    rw [braces, if_neg (by rw [hs]; simpa using hne), hsplit]
    change (if parts.toList.any (·.hasCut ':') = true then _ else _) = _
    rw [if_pos hany, hquery]
    rfl

end Queries

section Brackets

variable {α : Type} {text : α → List Char} {value : α → Path}

/-- Between braces, paths without colons are the alternatives of a named union. -/
theorem gives_braces_union {items : List α} (hne : items ≠ [])
    (h : ∀ x ∈ items, Solid (text x) ∧ Gives path (text x) (value x)) :
    Gives braces (commas (items.map text)) (.union (items.map value) true) := by
  intro s hs
  obtain ⟨x, rest, rfl⟩ := List.exists_cons_of_ne_nil hne
  have hx := (h x (by simp)).1
  have hsolid : ∀ v ∈ rest.map text, Solid v := by
    intro v hv
    obtain ⟨y, hy, rfl⟩ := List.mem_map.mp hv
    exact (h y (List.mem_cons_of_mem _ hy)).1
  obtain ⟨parts, hsplit, hparts⟩ := Span.split_commas (fun _ hc => hc.1) hx.balanced
    (fun v hv => (hsolid v hv).space) hs
  have hnone : parts.toList.any (·.hasCut ':') = false := by
    rw [List.any_eq_false]
    intro part hpart
    have hmem := List.mem_map_of_mem (f := Span.chars) hpart
    rw [hparts, List.mem_cons, List.mem_map] at hmem
    have hbalanced : Balanced IsInner part.chars := by
      rcases hmem with hmem | ⟨v, hv, hmem⟩
      · exact hmem ▸ hx.balanced
      · exact hmem ▸ (hsolid v hv).space
    have hcut := Span.cut_eq_none (show isOrdinary ':' = true from rfl) hbalanced fun _ hc => hc.2
    simp [Span.hasCut, hcut]
  have hmembers := gives_members h s hs
  rw [braces, if_neg (by rw [hs]; simpa using commas_ne_nil hx.edged.ne_nil _), hsplit]
  change (if parts.toList.any (·.hasCut ':') = true then _ else _) = _
  rw [if_neg (by simp [hnone]), hmembers]
  rfl

theorem gives_selector_braces {inside : List Char} {segment : Segment} (htrim : Trimmed inside)
    (hinside : Balanced (fun _ => True) inside) (h : Gives braces inside segment) :
    Gives selector ('{' :: (inside ++ ['}'])) [segment] := by
  intro s hs
  obtain ⟨t, ht, htext⟩ := Span.enclosed_eq (by decide) (by decide) hinside hs
  rw [selector, hs, ht]
  change (do return [← braces t.1.trim]) = _
  rw [h _ (htrim.trim_eq htext)]
  rfl

theorem gives_selector_union {inside : List Char} {alternatives : List Path}
    (htrim : Trimmed inside) (hinside : Balanced (fun _ => True) inside)
    (h : Gives members inside alternatives) :
    Gives selector ('[' :: (inside ++ [']'])) [.union alternatives false] := by
  intro s hs
  obtain ⟨t, ht, htext⟩ := Span.enclosed_eq (by decide) (by decide) hinside hs
  rw [selector, hs, ht]
  change (do return [Segment.union (← members t.1.trim) false]) = _
  rw [h _ (htrim.trim_eq htext)]
  rfl

theorem gives_selector_tuple {inside : List Char} {members : List Path}
    (htrim : Trimmed inside) (hinside : Balanced (fun _ => True) inside)
    (h : Gives Parser.members inside members) :
    Gives selector ('(' :: (inside ++ [')'])) [.tuple members.flatten] := by
  intro s hs
  obtain ⟨t, ht, htext⟩ := Span.enclosed_eq (by decide) (by decide) hinside hs
  rw [selector, hs, ht]
  change (do return [Segment.tuple (← Parser.members t.1.trim).flatten]) = _
  rw [h _ (htrim.trim_eq htext)]
  rfl

end Brackets

section Entries

theorem gives_queryKey_self : Gives queryKey ['.'] [] := by
  intro s hs
  rw [queryKey, hs]
  rfl

theorem gives_queryKey {text : List Char} {p : Path} (hne : text ≠ []) (hpoint : text ≠ ['.'])
    (hsign : ∀ rest, text ≠ '@' :: rest) (h : Gives path text p) : Gives queryKey text p := by
  intro s hs
  have hpath := h s hs
  rw [queryKey]
  split
  · next heq => exact absurd (hs.symm.trans heq) hne
  · next heq => exact absurd (hs.symm.trans heq) hpoint
  · next heq => exact absurd (hs.symm.trans heq) (hsign _)
  · next heq => exact absurd (hs.symm.trans heq) (hsign _)
  · exact hpath

theorem gives_nested {inside : List Char} {q : Query} (htrim : Trimmed inside)
    (hinside : Balanced (fun _ => True) inside) (h : Gives query inside q) :
    Gives nested ('{' :: (inside ++ ['}'])) (.query q) := by
  intro s hs
  obtain ⟨g, hg, hgi, hgr⟩ := Span.group_eq (show isOpener '{' = true from rfl) hinside hs
  rw [nested, hg]
  change (do
    if !g.rest.chars.isEmpty then throw (Fault.mk .trailingAfterQuery g.rest.start)
    return Expected.query (← query g.inside.trim)) = _
  rw [if_neg (by simp [hgr]), h _ (htrim.trim_eq hgi)]
  rfl

theorem gives_expected_query {inside : List Char} {q : Query} (htrim : Trimmed inside)
    (hinside : Balanced (fun _ => True) inside) (h : Gives query inside q) :
    Gives expected ('?' :: '{' :: (inside ++ ['}'])) (.query q) := by
  intro s hs
  rw [expected, hs]
  exact gives_nested htrim hinside h (s.drop 1) (by simp [Span.drop, hs])

theorem gives_expected_marked {text : List Char} {v : Json} (hedged : Edged text)
    (hread : Json.read? text = some v) : Gives expected ('=' :: text) (.value v) := by
  intro s hs
  have hdrop : (s.drop 1).chars = text := by simp [Span.drop, hs]
  have htrim : (s.drop 1).trim.chars = text := by rw [Span.trim_edged (hdrop ▸ hedged), hdrop]
  rw [expected, hs]
  change Expected.readMarked (s.drop 1) = _
  rw [Expected.readMarked, htrim, hread]

/-- A text that is neither a query nor quoted nor marked is read as a value. -/
theorem gives_expected_bare {c : Char} {rest : List Char} {v : Json}
    (hc : c ∉ ['?', '{', '=', '\'']) (hread : Json.read? (c :: rest) = some v) :
    Gives expected (c :: rest) (.value v) := by
  intro s hs
  simp only [List.mem_cons, List.not_mem_nil, or_false, not_or] at hc
  obtain ⟨hquery, hbrace, hmark, hquote⟩ := hc
  have hother : ∀ {d : Char} {more : List Char}, c ≠ d → s.chars ≠ d :: more := by
    intro d more hne heq
    exact hne (List.cons.inj (hs.symm.trans heq)).1
  rw [expected]
  split
  · next heq => simp [hs] at heq
  · next heq => exact absurd heq (hother hquery)
  · next heq => exact absurd heq (hother hbrace)
  · next heq => exact absurd heq (hother hmark)
  · next heq => exact absurd heq (hother hquote)
  · rw [hs, Expected.ofBare, hread]
    rfl

end Entries

section Slices

open Text Decimal

theorem trimmed_bound (b : Option Int64) : Trimmed (Slice.renderBound b) := by
  cases b with
  | none => exact .inl rfl
  | some n => exact .inr (solid_intText _).edged

theorem balanced_bound (b : Option Int64) : Balanced IsInner (Slice.renderBound b) := by
  cases b with
  | none => exact .nil
  | some n => exact (solid_intText _).balanced

theorem readBound_eq {b : Option Int64} {s : Span} (hs : s.chars = Slice.renderBound b) :
    Slice.readBound s = .ok b := by
  have htrim := (trimmed_bound b).trim_eq hs
  unfold Slice.readBound
  cases b with
  | none => simp [htrim, Slice.renderBound]
  | some n =>
    simp [htrim, Slice.renderBound, intText_ne_nil, isInteger_intText, positionOf?_intText]

theorem mapM_readBound {parts : List Span} {bounds : List (Option Int64)}
    (h : parts.map Span.chars = bounds.map Slice.renderBound) :
    parts.mapM Slice.readBound = .ok bounds := by
  induction parts generalizing bounds with
  | nil =>
    cases bounds with
    | nil => rfl
    | cons b bounds => simp at h
  | cons part parts ih =>
    cases bounds with
    | nil => simp at h
    | cons b bounds =>
      obtain ⟨hpart, hrest⟩ := List.cons.inj h
      rw [List.mapM_cons, readBound_eq hpart, ih hrest]
      rfl

/-- The text behind the first two bounds: a colon and the step, if there is one. -/
def renderStep (step : Option Int64) : List Char :=
  match step with
  | none => []
  | some n => ':' :: Slice.renderBound (some n)

/-- The bounds that the text of the slice shows. -/
def shownBounds (s : Slice) : List (Option Int64) :=
  s.start :: s.stop :: (s.step.map some).toList

theorem render_slice {s : Slice} (h : s.isFull = false) :
    s.render = Slice.renderBound s.start ++ ':' ::
      (Slice.renderBound s.stop ++ renderStep s.step) := by
  unfold Slice.render renderStep
  rw [if_neg (by simp [h])]
  cases s.step <;> rfl

theorem split_slice (s : Slice) (i : Nat) :
    ∃ head second tail, (plain []).split ':' i (Slice.renderBound s.start ++ ':' ::
        (Slice.renderBound s.stop ++ renderStep s.step)) = .ok (head, second :: tail) ∧
      (head :: second :: tail).map Span.chars = (shownBounds s).map Slice.renderBound := by
  have hbare : ∀ c, IsInner c → c ≠ ':' := fun _ h => h.2
  obtain ⟨start, stop, step⟩ := s
  rw [split_separator (by decide) (balanced_bound start) hbare]
  cases step with
  | none =>
    simp only [renderStep, List.append_nil]
    rw [split_word (by decide) (balanced_bound stop) hbare]
    exact ⟨_, _, _, rfl, rfl⟩
  | some n =>
    simp only [renderStep]
    rw [split_separator (by decide) (balanced_bound stop) hbare,
      split_word (by decide) (balanced_bound (some n)) hbare]
    exact ⟨_, _, _, rfl, rfl⟩

/-- A slice with a bound or a step reads back, unless its step is zero. -/
theorem read_slice {s : Slice} (hfull : s.isFull = false) (hstep : s.step ≠ some 0) {t : Span}
    (ht : t.chars = s.render) :
    (∃ c : Span.Cut t, t.cut ':' = .ok (some c)) ∧ Slice.read t = .ok s := by
  obtain ⟨head, second, tail, hsplit, hparts⟩ := split_slice s t.start
  rw [← render_slice hfull, ← ht] at hsplit
  obtain ⟨⟨h, tl, hext⟩, hp, rfl, htl⟩ := Span.split_eq hsplit
  change tl = _ at htl
  subst htl
  refine ⟨?_, ?_⟩
  · unfold Span.cut
    rw [hp]
    exact ⟨_, rfl⟩
  · have hbounds := mapM_readBound hparts
    have hlen : (h :: second :: tail).length ≤ 3 := by
      have hcount : (shownBounds s).length ≤ 3 := by
        cases hs : s.step <;> rw [shownBounds, hs] <;> exact Nat.le_of_ble_eq_true rfl
      have := congrArg List.length hparts
      rw [List.length_map, List.length_map] at this
      exact this ▸ hcount
    unfold Slice.read
    rw [hp]
    change (do
      if 3 < (h :: second :: tail).length then throw (Fault.mk .tooManyBounds t.start)
      let bounds ← (h :: second :: tail).mapM Slice.readBound
      if (bounds[2]?).join = some 0 then throw (Fault.mk .zeroStep t.start)
      return Slice.mk (bounds[0]?).join (bounds[1]?).join (bounds[2]?).join) = _
    have hlast : ((shownBounds s)[2]?).join = s.step := by
      obtain ⟨start, stop, step⟩ := s
      cases step <;> rfl
    rw [if_neg (by omega), hbounds]
    change (do
      if ((shownBounds s)[2]?).join = some 0 then throw (Fault.mk .zeroStep t.start)
      return Slice.mk s.start s.stop ((shownBounds s)[2]?).join) = _
    rw [hlast, if_neg hstep]
    rfl

/-- Bounds and colons are all there is in the text of a slice. -/
theorem mem_render_slice {s : Slice} (hfull : s.isFull = false) {c : Char} (hc : c ∈ s.render) :
    isNumeral c = true ∨ c = ':' := by
  have hbound : ∀ b, c ∈ Slice.renderBound b → isNumeral c = true := by
    intro b hb
    cases b with
    | none => simp [Slice.renderBound] at hb
    | some n => exact isNumeral_of_mem_intText hb
  rw [render_slice hfull] at hc
  simp only [List.mem_append, List.mem_cons] at hc
  rcases hc with h | h | h | h
  · exact .inl (hbound _ h)
  · exact .inr h
  · exact .inl (hbound _ h)
  · cases hstep : s.step with
    | none => simp [hstep, renderStep] at h
    | some n =>
      rw [hstep, renderStep, List.mem_cons] at h
      exact h.symm.imp_left (hbound _)

theorem balanced_slice (s : Slice) : Edged s.render ∧ Balanced (fun _ => True) s.render := by
  cases hfull : s.isFull with
  | true =>
    have htext : s.render = ['*'] := by rw [Slice.render, if_pos hfull]
    rw [htext]
    exact ⟨.single (by decide), .bare (by decide) trivial .nil⟩
  | false =>
    have hne : s.render ≠ [] := by rw [render_slice hfull]; simp
    have hchar : ∀ c ∈ s.render, isBlank c = false ∧ Nesting.isOrdinary c = true := by
      intro c hc
      rcases mem_render_slice hfull hc with h | rfl
      · exact ⟨(isTokenChar_of_isNumeral h).2, (isTokenChar_of_isNumeral h).ordinary.1⟩
      · exact ⟨by decide, by decide⟩
    exact ⟨.ofVisible hne fun c hc => (hchar c hc).1,
      .ofOrdinary fun c hc => ⟨(hchar c hc).2, trivial⟩⟩

theorem gives_selector_slice {s : Slice} (hstep : s.step ≠ some 0) :
    Gives selector s.render [.slice s] := by
  intro t ht
  cases hfull : s.isFull with
  | true =>
    obtain ⟨start, stop, step⟩ := s
    simp only [Slice.isFull, Bool.and_eq_true, Option.isNone_iff_eq_none] at hfull
    obtain ⟨⟨rfl, rfl⟩, rfl⟩ := hfull
    rw [selector, ht]
    rfl
  | false =>
    obtain ⟨⟨c, hcut⟩, hread⟩ := read_slice hfull hstep ht
    have hspliced : spliced t = .ok [.slice s] := by
      rw [spliced, hcut]
      change (do return [Segment.slice (← Slice.read t)]) = _
      rw [hread]
      rfl
    have hfirst : ∀ {d : Char} {rest : List Char}, d ∈ ['*', '?', '{', '[', '('] →
        t.chars ≠ d :: rest := by
      intro d rest hd heq
      have hmem := mem_render_slice hfull (c := d) (by rw [← ht, heq]; simp)
      have hnot : ∀ d ∈ ['*', '?', '{', '[', '('], ¬(isNumeral d = true ∨ d = ':') :=
        forall_mem_of_all (by decide)
      exact hnot d hd hmem
    rw [selector]
    split
    · next heq => exact absurd (ht.symm.trans heq) (balanced_slice s).1.ne_nil
    · next heq => exact absurd heq (hfirst (by simp))
    · next heq => exact absurd heq (hfirst (by simp))
    · next heq => exact absurd heq (hfirst (by simp))
    · next heq => exact absurd heq (hfirst (by simp))
    · next heq => exact absurd heq (hfirst (by simp))
    · next heq => exact absurd heq (hfirst (by simp))
    · exact hspliced

end Slices

end Parser

end TreePath

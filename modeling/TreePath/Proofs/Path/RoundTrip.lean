import TreePath.Error
import TreePath.Proofs.Path.Printable

namespace TreePath

open TreePath.Parser

/-- The selector rule reads a bracketed segment back from its inner text. -/
structure InnerReads (s : Segment) : Prop where
  edged : Edged s.inner
  balanced : Balanced (fun _ => True) s.inner
  gives : Gives selector s.inner [s]

/-- The brackets of the path, if it has any, read back. -/
def BracketsRead (p : Path) : Prop := ∀ s ∈ p, s.isBracketed = true → InnerReads s

namespace BracketsRead

theorem head {s : Segment} {p : Path} (h : BracketsRead (s :: p)) :
    s.isBracketed = true → InnerReads s := h s (by simp)

theorem tail {s : Segment} {p : Path} (h : BracketsRead (s :: p)) : BracketsRead p :=
  fun t ht => h t (List.mem_cons_of_mem _ ht)

end BracketsRead

theorem solid_segment {s : Segment} (h : s.isBracketed = true → InnerReads s) :
    Solid s.render := by
  cases hb : s.isBracketed with
  | true =>
    rw [Segment.render_bracketed hb]
    exact .bracketed (by decide) (by decide) (h hb).balanced
  | false =>
    cases s with
    | key name => exact solid_key name
    | index i => exact solid_intText _
    | tag t => exact solid_tag t
    | slice | predicate | union | tuple => simp [Segment.isBracketed] at hb

theorem solid_slash : Solid ['/'] :=
  ⟨.single (by decide), .bare (by decide) ⟨by decide, by decide⟩ .nil⟩

theorem solid_hops {p : Path} (h : BracketsRead p) {front : List Char} (hfront : Solid front) :
    Solid (front ++ renderHops p) := by
  induction p generalizing front with
  | nil => simpa [renderHops] using hfront
  | cons s p ih =>
    have hs := solid_segment h.head
    rw [renderHops, ← List.append_assoc]
    refine ih h.tail ?_
    split
    · exact hfront.append hs
    · exact hfront.append (solid_slash.append hs)

theorem renderPath_cons {s : Segment} (hs : s ≠ .tag .root) (p : Path) :
    renderPath (s :: p) = s.render ++ renderHops p := by
  cases s with
  | tag t => cases t <;> first | exact absurd rfl hs | rfl
  | key | index | slice | predicate | union | tuple => rfl

theorem solid_path {p : Path} (hne : p ≠ []) (h : BracketsRead p) : Solid (renderPath p) := by
  obtain ⟨s, p, rfl⟩ := List.exists_cons_of_ne_nil hne
  by_cases hs : s = .tag .root
  · subst hs
    cases p with
    | nil => exact solid_slash
    | cons t p => exact solid_hops h.tail.tail (solid_slash.append (solid_segment h.tail.head))
  · rw [renderPath_cons hs]
    exact solid_hops h.tail (solid_segment h.head)

theorem startsHop_segment (s : Segment) (rest : List Char) : StartsHop (s.render ++ rest) := by
  cases hb : s.isBracketed with
  | true => exact ⟨'[', _, by rw [Segment.render_bracketed hb]; rfl, by decide, by decide⟩
  | false =>
    obtain ⟨c, cs, hc, hblank, hother⟩ := Segment.starts_render hb
    refine ⟨c, cs ++ rest, by rw [hc]; rfl, hblank, ?_⟩
    intro hempty
    obtain rfl := hempty
    exact hother (by simp)

theorem endsHop_hops (p : Path) : EndsHop (renderHops p) := by
  cases p with
  | nil => exact .inl rfl
  | cons s p =>
    cases hb : s.isBracketed with
    | true =>
      rw [renderHops, if_pos hb, Segment.render_bracketed hb]
      exact .inr (.inr ⟨_, rfl⟩)
    | false =>
      rw [renderHops, if_neg (by simp [hb])]
      exact .inr (.inl ⟨_, rfl⟩)

theorem gives_bracketed {s : Segment} (hb : s.isBracketed = true) (hs : InnerReads s) {p : Path}
    (h : Gives following (renderHops p) p) :
    Gives brackets (s.render ++ renderHops p) (s :: p) := by
  have hbrackets := gives_brackets hs.edged hs.balanced hs.gives h
  rw [Segment.render_bracketed hb, List.cons_append, List.append_assoc]
  exact hbrackets

/-- A path whose rest reads back, from its first hop on. -/
theorem gives_hops_cons {s : Segment} (hs : s.isBracketed = true → InnerReads s) {p : Path}
    (h : Gives following (renderHops p) p) : Gives hops (s.render ++ renderHops p) (s :: p) := by
  cases hb : s.isBracketed with
  | true =>
    have hbrackets := gives_bracketed hb (hs hb) h
    rw [Segment.render_bracketed hb] at hbrackets ⊢
    exact gives_hops_brackets hbrackets
  | false =>
    obtain ⟨c, cs, hc, -, hother⟩ := Segment.starts_render hb
    refine gives_hops_hop (startsHop_segment s _) ?_
      (fun t ht => Span.reads_render hb (endsHop_hops p) ht) h
    intro more heq
    rw [hc] at heq
    obtain rfl := (List.cons.inj heq).1
    exact hother (by simp)

theorem gives_following_hops {p : Path} (h : BracketsRead p) :
    Gives following (renderHops p) p := by
  induction p with
  | nil => exact gives_following_nil
  | cons s p ih =>
    have hrest := ih h.tail
    rw [renderHops]
    cases hb : s.isBracketed with
    | true =>
      have hbrackets := gives_bracketed hb (h.head hb) hrest
      rw [if_pos rfl]
      rw [Segment.render_bracketed hb] at hbrackets ⊢
      exact gives_following_brackets hbrackets
    | false =>
      rw [if_neg (by simp)]
      exact gives_following_slash (gives_hops_cons h.head hrest)

/-- A path reads back when its brackets do. -/
theorem gives_path_render {p : Path} (h : BracketsRead p) : Gives path (renderPath p) p := by
  cases p with
  | nil => exact gives_path_nil
  | cons s p =>
    by_cases hs : s = .tag .root
    · subst hs
      refine gives_path_root ?_
      cases p with
      | nil => exact gives_hops_nil
      | cons t p => exact gives_hops_cons h.tail.head (gives_following_hops h.tail.tail)
    · rw [renderPath_cons hs]
      exact gives_path (startsHop_segment s _)
        (gives_hops_cons h.head (gives_following_hops h.tail))

/-- A member of a tuple stands for itself, also where a path would not show it by its name. -/
theorem gives_path_member {s : Segment} (h : s.isBracketed = true → InnerReads s) :
    Gives path s.render [s] := by
  have hhops := gives_hops_cons (p := []) h gives_following_nil
  have hstart := startsHop_segment s []
  simp only [renderHops, List.append_nil] at hhops hstart
  exact gives_path hstart hhops

/-- A text denotes at most one thing. -/
theorem Parser.Gives.unique {α : Type} {parse : Span → Except Fault α} {text : List Char} {a b : α}
    (ha : Gives parse text a) (hb : Gives parse text b) : a = b := by
  have h := (ha ⟨0, text⟩ rfl).symm.trans (hb ⟨0, text⟩ rfl)
  exact Except.ok.inj h

theorem renderPath_ne_sign (p : Path) (rest : List Char) : renderPath p ≠ '@' :: rest := by
  cases p with
  | nil => simp [renderPath]
  | cons s p =>
    by_cases hs : s = .tag .root
    · subst hs
      simp [renderPath]
    · rw [renderPath_cons hs]
      cases hb : s.isBracketed with
      | true =>
        rw [Segment.render_bracketed hb]
        simp
      | false =>
        obtain ⟨c, cs, hc, -, hother⟩ := Segment.starts_render hb
        intro heq
        rw [hc] at heq
        obtain rfl := (List.cons.inj heq).1
        exact hother (by simp)

/-- The current marker by its name, the way it is shown as the key of an entry. -/
theorem gives_path_current : Gives path ('$' :: Tag.current.name.toList) [.tag .current] := by
  have hhops : Gives hops ('$' :: Tag.current.name.toList) [.tag .current] := by
    refine gives_hops_hop ⟨_, _, rfl, by decide, by decide⟩ (by simp) (fun s hs => ?_)
      gives_following_nil
    refine Span.token_eq (by simp) isTokenChar_of_mem_name (.inl rfl)
      (fun start => Token.classify_tag start .current) ?_
    rw [hs, List.append_nil]
  exact gives_path ⟨_, _, rfl, by decide, by decide⟩ hhops

/-- The key of an entry reads back. A lone point, which is the empty path there, is never shown for
another path. -/
theorem gives_queryKey_render {p : Path} (h : BracketsRead p) :
    Solid (queryKey p (renderPath p)) ∧ Gives Parser.queryKey (queryKey p (renderPath p)) p := by
  by_cases hnil : p = []
  · subst hnil
    exact ⟨solid_dots 0 (by decide), gives_queryKey_self⟩
  by_cases hcur : p = [.tag .current]
  · subst hcur
    have htext : queryKey [.tag .current] (renderPath [.tag .current]) =
        '$' :: Tag.current.name.toList := rfl
    rw [htext]
    exact ⟨.ofTokenChars (by simp) isTokenChar_of_mem_name,
      gives_queryKey (by simp) (by decide) (by simp) gives_path_current⟩
  have htext : queryKey p (renderPath p) = renderPath p := by
    unfold queryKey
    split
    · exact absurd rfl hnil
    · exact absurd rfl hcur
    · rfl
  have hpoint : renderPath p ≠ ['.'] := by
    intro hpoint
    have hread := gives_path_render h
    have hcurrent : Gives path ['.'] [.tag .current] :=
      gives_path_member (s := .tag .current) (by simp [Segment.isBracketed])
    rw [hpoint] at hread
    exact hcur (hread.unique hcurrent)
  have hsolid := solid_path hnil h
  rw [htext]
  exact ⟨hsolid,
    gives_queryKey hsolid.edged.ne_nil hpoint (renderPath_ne_sign p) (gives_path_render h)⟩

section Recursion

theorem innerReads_slice {s : Slice} (h : s.step ≠ some 0) : InnerReads (.slice s) :=
  ⟨(balanced_slice s).1, (balanced_slice s).2, gives_selector_slice h⟩

theorem innerReads_predicate {q : Query} (h : ∀ e ∈ q, ReadsEntry (entryText e) e) :
    InnerReads (.predicate q) := by
  have hbalanced := balanced_entries h
  have hgives := gives_selector_braces (trimmed_entries h) hbalanced (gives_braces_query h)
  rw [← renderEntries_eq] at hbalanced hgives
  exact ⟨.enclosed (by decide) (by decide) _, .bracketed (by decide) (by decide) hbalanced, hgives⟩

/-- A list of texts that read back may stand in any pair of brackets. -/
theorem commas_enclosed {ws : List (List Char)} (h : ∀ w ∈ ws, Solid w) :
    Trimmed (commas ws) ∧ Balanced (fun _ => True) (commas ws) :=
  ⟨trimmed_commas fun w hw => (h w hw).edged,
    balanced_commas trivial trivial fun w hw => (h w hw).balanced.any⟩

theorem innerReads_union {ps : List Path} {named : Bool} (hnamed : named = true → ps ≠ [])
    (h : ∀ p ∈ ps, p ≠ [] ∧ BracketsRead p) : InnerReads (.union ps named) := by
  have hitems : ∀ p ∈ ps, Solid (renderPath p) ∧ Gives path (renderPath p) (id p) := fun p hp =>
    ⟨solid_path (h p hp).1 (h p hp).2, gives_path_render (h p hp).2⟩
  have hsolid : ∀ w ∈ ps.map renderPath, Solid w := by
    intro w hw
    obtain ⟨p, hp, rfl⟩ := List.mem_map.mp hw
    exact (hitems p hp).1
  obtain ⟨htrim, hbalanced⟩ := commas_enclosed hsolid
  cases named with
  | true =>
    have hgives := gives_selector_braces htrim hbalanced (gives_braces_union (hnamed rfl) hitems)
    rw [← renderPaths_eq, List.map_id] at hgives
    rw [← renderPaths_eq] at hbalanced
    exact ⟨.enclosed (by decide) (by decide) _, .bracketed (by decide) (by decide) hbalanced,
      hgives⟩
  | false =>
    have hgives := gives_selector_union htrim hbalanced (gives_members hitems)
    rw [← renderPaths_eq, List.map_id] at hgives
    rw [← renderPaths_eq] at hbalanced
    exact ⟨.enclosed (by decide) (by decide) _, .bracketed (by decide) (by decide) hbalanced,
      hgives⟩

theorem innerReads_tuple {members : List Segment} (h : BracketsRead members) :
    InnerReads (.tuple members) := by
  have hitems : ∀ s ∈ members, Solid s.render ∧ Gives path s.render [s] := fun s hs =>
    ⟨solid_segment (h s hs), gives_path_member (h s hs)⟩
  have hsolid : ∀ w ∈ members.map Segment.render, Solid w := by
    intro w hw
    obtain ⟨s, hs, rfl⟩ := List.mem_map.mp hw
    exact (hitems s hs).1
  have hflat : (members.map fun s => [s]).flatten = members := by
    rw [← List.flatMap_def, List.flatMap_singleton']
  obtain ⟨htrim, hbalanced⟩ := commas_enclosed hsolid
  have hgives := gives_selector_tuple htrim hbalanced (gives_members hitems)
  rw [← renderMembers_eq, hflat] at hgives
  rw [← renderMembers_eq] at hbalanced
  exact ⟨.enclosed (by decide) (by decide) _, .bracketed (by decide) (by decide) hbalanced, hgives⟩

theorem reads_value {v : Json} (hf : v.FloatFree) (hw : v.WellFormed) (hn : v.nesting < 128) :
    Solid v.renderExpected ∧ Gives expected v.renderExpected (.value v) := by
  have hread := Json.read?_render hf hw hn
  have hsolid := v.solid_render hf
  by_cases hobj : ∃ fields, v = .obj fields
  · obtain ⟨fields, rfl⟩ := hobj
    have hmark : Solid ['='] :=
      ⟨.single (by decide), .bare (by decide) ⟨by decide, by decide⟩ .nil⟩
    exact ⟨hmark.append hsolid, gives_expected_marked hsolid.edged hread⟩
  · have htext : v.renderExpected = v.render := by
      unfold Json.renderExpected
      split
      · exact absurd ⟨_, rfl⟩ hobj
      · rfl
    obtain ⟨c, rest, hc, hstart⟩ := Json.starts_render hf fun fields hv => hobj ⟨fields, hv⟩
    rw [htext]
    refine ⟨hsolid, ?_⟩
    rw [hc] at hread ⊢
    exact gives_expected_bare hstart hread

theorem reads_nested {q : Query} (h : ∀ e ∈ q, ReadsEntry (entryText e) e) :
    Solid (Expected.query q).render ∧ Gives expected (Expected.query q).render (.query q) := by
  have hbalanced := balanced_entries h
  have hgives := gives_expected_query (trimmed_entries h) hbalanced (gives_query h)
  rw [← renderEntries_eq] at hbalanced hgives
  have hmark : Solid ['?'] :=
    ⟨.single (by decide), .bare (by decide) ⟨by decide, by decide⟩ .nil⟩
  exact ⟨hmark.append (.bracketed (by decide) (by decide) hbalanced), hgives⟩

mutual

theorem innerReads_of_printable (s : Segment) (h : s.Printable) :
    s.isBracketed = true → InnerReads s := by
  intro hb
  match s with
  | .slice s => exact innerReads_slice h
  | .predicate q => exact innerReads_predicate (readsEntry_of_printable q h)
  | .union ps named => exact innerReads_union h.1 (bracketsRead_alternatives ps h.2)
  | .tuple members => exact innerReads_tuple (bracketsRead_of_printable members h)
  | .key _ => simp [Segment.isBracketed] at hb
  | .index _ => simp [Segment.isBracketed] at hb
  | .tag _ => simp [Segment.isBracketed] at hb

theorem bracketsRead_of_printable (p : List Segment) (h : PathPrintable p) : BracketsRead p := by
  match p with
  | [] => simp [BracketsRead]
  | s :: rest =>
    have hs := innerReads_of_printable s h.1
    have hrest := bracketsRead_of_printable rest h.2
    exact List.forall_mem_cons.mpr ⟨hs, hrest⟩

theorem bracketsRead_alternatives (ps : List (List Segment)) (h : AlternativesPrintable ps) :
    ∀ p ∈ ps, p ≠ [] ∧ BracketsRead p := by
  match ps with
  | [] => simp
  | p :: rest =>
    have hp := bracketsRead_of_printable p h.2.1
    have hrest := bracketsRead_alternatives rest h.2.2
    exact List.forall_mem_cons.mpr ⟨⟨h.1, hp⟩, hrest⟩

theorem readsEntry_of_printable (q : List (List Segment × Expected)) (h : QueryPrintable q) :
    ∀ e ∈ q, ReadsEntry (entryText e) e := by
  match q with
  | [] => simp
  | (p, e) :: rest =>
    obtain ⟨hkey, hreadKey⟩ := gives_queryKey_render (bracketsRead_of_printable p h.1)
    obtain ⟨hvalue, hreadValue⟩ := reads_of_printable e h.2.1
    have hrest := readsEntry_of_printable rest h.2.2
    exact List.forall_mem_cons.mpr ⟨⟨_, _, rfl, hkey, hvalue, hreadKey, hreadValue⟩, hrest⟩

theorem reads_of_printable (e : Expected) (h : e.Printable) :
    Solid e.render ∧ Gives expected e.render e := by
  match e with
  | .value v => exact reads_value h.1 h.2.1 h.2.2
  | .query q => exact reads_nested (readsEntry_of_printable q h)

end

end Recursion

theorem Path.parse_toText {p : Path} (h : PathPrintable p) : Path.parse p.toText = .ok p := by
  have hread := gives_path_render (bracketsRead_of_printable p h)
  rw [Path.parse, Path.read, hread (Span.ofText p.toText) String.toList_ofList]
  rfl

theorem Query.parse_toText {q : Query} (h : QueryPrintable q) : Query.parse q.toText = .ok q := by
  have hpath : PathPrintable [.predicate q] := ⟨h, trivial⟩
  have htext : "[" ++ q.toText ++ "]" = Path.toText [.predicate q] := by
    apply String.toList_injective
    simp [Query.toText, Path.toText, renderQuery, renderPath, Segment.render, renderHops]
  rw [Query.parse, htext, Path.parse_toText hpath]
  rfl

/-- Printing loses nothing: paths and queries that are printable are what their texts denote. -/
theorem parse_printed :
    (∀ p : Path, PathPrintable p → Path.parse p.toText = .ok p) ∧
      ∀ q : Query, QueryPrintable q → Query.parse q.toText = .ok q :=
  ⟨fun _ h => Path.parse_toText h, fun _ h => Query.parse_toText h⟩

theorem parse_printed_nested :
    let q : Query :=
      [([.key "it's", .index (-1)],
          .query [([], .value (.str "\n")), ([.tag .current], .value .null)]),
        ([.tag .parent], .value (.obj [("k", .arr [.num (.int ⟨-7, by decide, by decide⟩)])]))]
    let p : Path :=
      [.tag .root, .predicate q, .key "12", .slice ⟨none, some (-2), some 3⟩,
        .union [[.tag .current, .key "a b"], [.tuple [.tag .root, .predicate []]]] true]
    Path.parse p.toText = .ok p ∧ Query.parse q.toText = .ok q := by
  intro q p
  have hobj : (Json.obj [("k", .arr [.num (.int ⟨-7, by decide, by decide⟩)])]).WellFormed :=
    ⟨Fields.ascending_single _ _, ⟨trivial, trivial⟩, trivial⟩
  have hq : QueryPrintable q := by
    refine ⟨⟨trivial, trivial, trivial⟩, ⟨trivial, ⟨trivial, trivial, by decide⟩, ?_⟩, ?_⟩
    · exact ⟨⟨trivial, trivial⟩, ⟨trivial, trivial, by decide⟩, trivial⟩
    · exact ⟨⟨trivial, trivial⟩, ⟨⟨⟨trivial, trivial⟩, trivial⟩, hobj, by decide⟩, trivial⟩
  have hp : PathPrintable p := by
    refine ⟨trivial, hq, trivial, by simp [Segment.Printable], ⟨by simp, ?_⟩, trivial⟩
    exact ⟨by simp, ⟨trivial, trivial, trivial⟩, by simp, ⟨⟨trivial, trivial, trivial⟩, trivial⟩,
      trivial⟩
  exact ⟨parse_printed.1 p hp, parse_printed.2 q hq⟩

end TreePath

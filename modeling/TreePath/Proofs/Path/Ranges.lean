import TreePath.Proofs.Path.Literals
import TreePath.Proofs.Path.Scan

namespace TreePath

/-- The text that stands between two positions. -/
structure Between (cs : List Char) (start stop : Nat) (text : List Char) : Prop where
  parts : ∃ before after, cs = before ++ (text ++ after) ∧ before.length = start
  stop_eq : start + text.length = stop

namespace Between

variable {cs text a b rest : List Char} {start stop i : Nat} {c : Char}

theorem start_le (h : Between cs start stop text) : start ≤ stop := by
  have := h.stop_eq
  omega

theorem stop_le (h : Between cs start stop text) : stop ≤ cs.length := by
  obtain ⟨before, after, rfl, rfl⟩ := h.parts
  have := h.stop_eq
  simp only [List.length_append]
  omega

theorem range_eq (h : Between cs start stop text) : Span.range cs start stop = ⟨start, text⟩ := by
  obtain ⟨before, after, rfl, rfl⟩ := h.parts
  have hstop := h.stop_eq
  subst hstop
  simp [Span.range, List.take_append, List.take_of_length_le]

/-- Between two positions stands one text. -/
theorem unique (ha : Between cs start stop a) (hb : Between cs start stop b) : a = b :=
  congrArg Span.chars (ha.range_eq.symm.trans hb.range_eq)

theorem left (h : Between cs start stop (a ++ b)) : Between cs start (start + a.length) a := by
  obtain ⟨before, after, hcs, hbefore⟩ := h.parts
  exact ⟨⟨before, b ++ after, by simp [hcs], hbefore⟩, rfl⟩

theorem right (h : Between cs start stop (a ++ b)) : Between cs (start + a.length) stop b := by
  obtain ⟨before, after, hcs, hbefore⟩ := h.parts
  have hstop := h.stop_eq
  rw [List.length_append] at hstop
  exact ⟨⟨before ++ a, after, by simp [hcs], by simp [hbefore]⟩, by omega⟩

theorem append (ha : Between cs start i a) (hb : Between cs i stop b) :
    Between cs start stop (a ++ b) := by
  obtain ⟨before, after, hcs, rfl⟩ := ha.parts
  obtain ⟨before', after', hcs', hlength⟩ := hb.parts
  have hi := ha.stop_eq
  have hstop := hb.stop_eq
  have hfront : before' = before ++ a := by
    have hwhole : before' ++ (b ++ after') = before ++ a ++ after := by
      rw [← hcs', hcs, List.append_assoc]
    refine List.append_inj_left' hwhole ?_
    have := congrArg List.length hwhole
    simp only [List.length_append] at this ⊢
    omega
  refine ⟨⟨before, after', ?_, rfl⟩, by rw [List.length_append]; omega⟩
  rw [hcs', hfront]
  simp

theorem tail (h : Between cs i stop (c :: rest)) : Between cs (i + 1) stop rest :=
  h.right (a := [c])

theorem lt (h : Between cs i stop (c :: rest)) : i < stop := by
  have := h.stop_eq
  rw [List.length_cons] at this
  omega

theorem not_lt (h : Between cs i stop []) : ¬i < stop := by
  have := h.stop_eq
  rw [List.length_nil] at this
  omega

theorem getElem?_eq (h : Between cs i stop (c :: rest)) : cs[i]? = some c := by
  obtain ⟨before, after, rfl, rfl⟩ := h.parts
  simp

/-- Every range of positions has a text. -/
theorem ofRange (hstart : start ≤ stop) (hstop : stop ≤ cs.length) :
    Between cs start stop (Span.range cs start stop).chars := by
  refine ⟨⟨cs.take start, cs.drop stop, ?_, by simp; omega⟩, ?_⟩
  · have htake : cs.take start = (cs.take stop).take start := by
      rw [List.take_take, Nat.min_eq_left hstart]
    rw [Span.range, htake, ← List.append_assoc, List.take_append_drop, List.take_append_drop]
  · simp only [Span.range, List.length_drop, List.length_take]
    omega

theorem whole (cs : List Char) : Between cs 0 cs.length cs :=
  ⟨⟨[], [], by simp⟩, Nat.zero_add _⟩

end Between

namespace Span

/-- The span is a stretch of the text. -/
def In (s : Span) (cs : List Char) : Prop := Between cs s.start s.stop s.chars

theorem In.stop_le {s : Span} {cs : List Char} (h : s.In cs) : s.stop ≤ cs.length :=
  Between.stop_le h

theorem in_iff {s : Span} {cs : List Char} : s.In cs ↔ Between cs s.start s.stop s.chars := .rfl

/-- The positions between which the span stands. -/
def ends (s : Span) : Nat × Nat := (s.start, s.stop)

/-- `t` is a stretch of `s`. -/
def Sub (t s : Span) : Prop :=
  ∃ front back, s.chars = front ++ (t.chars ++ back) ∧ t.start = s.start + front.length

/-- `t` is what `s` ends with. -/
def EndOf (t s : Span) : Prop :=
  ∃ front, s.chars = front ++ t.chars ∧ t.start = s.start + front.length

theorem In.sub {s t : Span} {cs : List Char} (hs : s.In cs) (ht : t.Sub s) : t.In cs := by
  obtain ⟨front, back, hchars, hstart⟩ := ht
  have hright : Between cs t.start s.stop (t.chars ++ back) := by
    rw [hstart]
    exact Between.right (hchars ▸ hs)
  exact hright.left

theorem EndOf.sub {s t : Span} (h : t.EndOf s) : t.Sub s := by
  obtain ⟨front, hchars, hstart⟩ := h
  exact ⟨front, [], by simp [hchars], hstart⟩

theorem EndOf.stop_eq {s t : Span} (h : t.EndOf s) : t.stop = s.stop := by
  obtain ⟨front, hchars, hstart⟩ := h
  simp only [stop, length, hchars, hstart, List.length_append]
  omega

theorem EndOf.refl (s : Span) : s.EndOf s := ⟨[], rfl, rfl⟩

theorem EndOf.trans {s t u : Span} (htu : u.EndOf t) (hst : t.EndOf s) : u.EndOf s := by
  obtain ⟨front, hchars, hstart⟩ := hst
  obtain ⟨front', hchars', hstart'⟩ := htu
  exact ⟨front ++ front', by simp [hchars, hchars'], by rw [hstart', hstart]; simp; omega⟩

theorem endOf_dropWhile (s : Span) (p : Char → Bool) : (s.dropWhile p).EndOf s :=
  ⟨s.chars.takeWhile p, List.takeWhile_append_dropWhile.symm, rfl⟩

theorem endOf_tail {s : Span} {c : Char} {rest : List Char} (h : s.chars = c :: rest) :
    (⟨s.start + 1, rest⟩ : Span).EndOf s :=
  ⟨[c], h, rfl⟩

theorem drop_one {s : Span} {c : Char} {rest : List Char} (h : s.chars = c :: rest) :
    s.drop 1 = ⟨s.start + 1, rest⟩ := by
  simp [drop, h]

theorem dropEndBlanks_blank (front : List Char) {c : Char} (h : Text.isBlank c = true) :
    dropEndBlanks (front ++ [c]) = dropEndBlanks front := by
  induction front with
  | nil => simp [dropEndBlanks, h]
  | cons d front ih => rw [List.cons_append, dropEndBlanks, ih, dropEndBlanks]

theorem exists_dropEndBlanks (cs : List Char) : ∃ back, cs = dropEndBlanks cs ++ back := by
  induction cs with
  | nil => exact ⟨[], rfl⟩
  | cons c rest ih =>
    obtain ⟨back, hback⟩ := ih
    rw [dropEndBlanks]
    split
    · next hnil =>
      rw [hnil] at hback
      split
      · exact ⟨c :: rest, rfl⟩
      · exact ⟨rest, rfl⟩
    · exact ⟨back, congrArg (c :: ·) hback⟩

theorem sub_trim (s : Span) : s.trim.Sub s := by
  obtain ⟨front, hchars, hstart⟩ := s.endOf_dropWhile Text.isBlank
  obtain ⟨back, hback⟩ := exists_dropEndBlanks s.skipBlanks.chars
  exact ⟨front, back, hchars.trans (congrArg (front ++ ·) hback), hstart⟩

theorem Sub.trans {s t u : Span} (htu : u.Sub t) (hst : t.Sub s) : u.Sub s := by
  obtain ⟨front, back, hchars, hstart⟩ := hst
  obtain ⟨front', back', hchars', hstart'⟩ := htu
  exact ⟨front ++ front', back' ++ back, by simp [hchars, hchars'],
    by rw [hstart', hstart]; simp; omega⟩

theorem Sub.refl (s : Span) : s.Sub s := (EndOf.refl s).sub

section Parts

variable {s : Span} {α : Type}

/-- A group, from what the scan for its end finds. -/
theorem group_map {c : Char} {rest : List Char} (hs : s.chars = c :: rest) (f : Span → Span → α) :
    (s.group.map fun g => f g.inside g.rest) =
      ((Nesting.plain [⟨c, s.start⟩]).closing (s.start + 1) rest).map fun found =>
        f ⟨s.start + 1, found.1⟩ found.2 := by
  unfold group
  split
  · next heq => simp [hs] at heq
  · next heq =>
    obtain ⟨rfl, rfl⟩ := List.cons.inj (hs.symm.trans heq)
    split
    · next hclosing => simp [hclosing, Except.map]
    · next hclosing => simp [hclosing, Except.map]

theorem group_eq_ok {g : Group s} (hg : s.group = .ok g) :
    ∃ c rest, s.chars = c :: rest ∧ g.inside.start = s.start + 1 ∧
      (Nesting.plain [⟨c, s.start⟩]).closing (s.start + 1) rest = .ok (g.inside.chars, g.rest) := by
  cases hs : s.chars with
  | nil =>
    unfold group at hg
    split at hg
    · cases hg
    · next heq => simp [hs] at heq
  | cons c rest =>
    have hmap := group_map hs Prod.mk
    rw [hg] at hmap
    obtain ⟨found, hclosing, heq⟩ := Fault.map_eq_ok hmap.symm
    obtain ⟨hinside, hrest⟩ := Prod.mk.inj heq
    refine ⟨c, rest, rfl, by rw [← hinside], ?_⟩
    rw [hclosing, ← hinside, ← hrest]

/-- A group stands between its brackets, and what follows it behind them. -/
theorem group_sub {g : Group s} (hg : s.group = .ok g) :
    g.inside.Sub s ∧ g.rest.EndOf s ∧ g.inside.start = s.start + 1 ∧
      g.inside.stop + 1 = g.rest.start := by
  obtain ⟨c, rest, hs, hstart, hclosing⟩ := group_eq_ok hg
  obtain ⟨d, hrest, hbehind⟩ := Nesting.closing_eq_ok hclosing
  have hlast : g.inside.stop + 1 = g.rest.start := by
    rw [hbehind, stop, hstart, length]
  refine ⟨⟨[c], d :: g.rest.chars, by simp [hs, hrest], hstart⟩,
    ⟨c :: (g.inside.chars ++ [d]), by simp [hs, hrest], ?_⟩, hstart, hlast⟩
  rw [hbehind]
  simp
  omega

theorem split_map (separator : Char) (f : Span → List Span → α) :
    ((s.split separator).map fun p => f p.head p.tail) =
      ((Nesting.plain []).split separator s.start s.chars).map fun found => f found.1 found.2 := by
  unfold split
  split
  · next hsplit => simp [hsplit, Except.map]
  · next hsplit => simp [hsplit, Except.map]

theorem split_eq_ok {separator : Char} {p : Parts s} (h : s.split separator = .ok p) :
    (Nesting.plain []).split separator s.start s.chars = .ok (p.head, p.tail) := by
  have hmap := split_map (s := s) separator Prod.mk
  rw [h] at hmap
  obtain ⟨found, hsplit, heq⟩ := Fault.map_eq_ok hmap.symm
  rw [hsplit]
  exact congrArg Except.ok heq

theorem sub_of_parted {separator : Char} {i : Nat} {text : List Char} {head : Span}
    {tail : List Span} (h : Nesting.Parted separator i text head tail) :
    ∀ t ∈ head :: tail, t.Sub ⟨i, text⟩ := by
  induction h with
  | last =>
    intro t ht
    obtain rfl := List.mem_singleton.mp ht
    exact .refl _
  | @more i part rest head tail _ _ ih =>
    intro t ht
    rcases List.mem_cons.mp ht with rfl | ht
    · exact ⟨[], separator :: rest, rfl, rfl⟩
    · have hrest : (⟨i + part.length + 1, rest⟩ : Span).EndOf ⟨i, part ++ separator :: rest⟩ :=
        ⟨part ++ [separator], by simp, by simp; omega⟩
      exact (ih t ht).trans hrest.sub

theorem split_sub {separator : Char} {p : Parts s} (h : s.split separator = .ok p) :
    ∀ t ∈ p.toList, t.Sub s :=
  sub_of_parted (Nesting.parted_of_split (split_eq_ok h))

/-- A span that is cut has a text in front of the separator, and one behind it. -/
theorem cut_sub {separator : Char} {c : Cut s} (h : s.cut separator = .ok (some c)) :
    c.before.Sub s ∧ c.after.EndOf s ∧ c.before.start = s.start ∧
      c.before.stop + 1 = c.after.start := by
  unfold cut at h
  split at h
  · cases h
  · cases h
  · next head second tail hext hsplit =>
    obtain rfl := Option.some.inj (Except.ok.inj h)
    have hparts := split_eq_ok hsplit
    have hstart : head.start = s.start := Nesting.start_split hparts
    have hlt : head.length + 1 ≤ s.length := by
      simp only [extent] at hext
      omega
    refine ⟨split_sub hsplit head List.mem_cons_self, ⟨s.chars.take (head.length + 1), ?_, ?_⟩,
      hstart, ?_⟩
    · exact (List.take_append_drop _ _).symm
    · exact congrArg (s.start + ·) (List.length_take_of_le hlt).symm
    · simp only [stop, drop, hstart]
      omega

/-- Where the first part ends, if a separator stands behind it. -/
def Parts.firstStop? (p : Parts s) : Option Nat :=
  match p.tail with
  | [] => none
  | _ :: _ => some p.head.stop

theorem cut_map (separator : Char) :
    ((s.cut separator).map fun found => found.map fun c => c.before.stop) =
      (s.split separator).map Parts.firstStop? := by
  unfold cut
  split
  · next hsplit => simp [hsplit, Except.map]
  · next hsplit => simp [hsplit, Except.map, Parts.firstStop?]
  · next hsplit => simp [hsplit, Except.map, Parts.firstStop?]

end Parts

section Hops

variable {s : Span} {α : Type}

theorem endOf_read {quote : Char} {rest text : List Char} {after : Span}
    (hs : s.chars = quote :: rest) (hquote : Nesting.isQuote quote = true)
    (h : Literal.read s = .ok (text, after)) : after.EndOf s := by
  rw [Literal.read, hs] at h
  obtain ⟨body, -, rfl, hstart⟩ := Literal.quotable_of_readBody hquote h
  refine ⟨quote :: (body ++ [quote]), by simp [hs], ?_⟩
  rw [hstart]
  simp
  omega

theorem endOf_take {i : Nat} {cs text : List Char} {after : Span}
    (h : Token.take i cs = .ok (text, after)) : after.EndOf ⟨i, cs⟩ ∧ cs = text ++ after.chars := by
  induction cs generalizing i text with
  | nil =>
    obtain ⟨rfl, rfl⟩ := Prod.mk.inj (Except.ok.inj h)
    exact ⟨.refl _, rfl⟩
  | cons c rest ih =>
    unfold Token.take at h
    split at h
    · obtain ⟨rfl, rfl⟩ := Prod.mk.inj (Except.ok.inj h)
      exact ⟨.refl _, rfl⟩
    · split at h
      · cases h
      · obtain ⟨found, hfound, heq⟩ := Fault.map_eq_ok h
        obtain ⟨rfl, rfl⟩ := Prod.mk.inj heq
        obtain ⟨hend, hrest⟩ := ih hfound
        exact ⟨hend.trans (endOf_tail rfl), by rw [hrest]; rfl⟩

theorem quotedKey_map (f : Segment → Span → α) :
    (s.quotedKey.map fun h => f h.segment h.rest) =
      (Literal.read s).map fun r => f (.key (String.ofList r.1)) r.2 := by
  unfold quotedKey
  split
  · next hread => simp [hread, Except.map]
  · next hread => simp [hread, Except.map]

theorem token_map {c : Char} {rest : List Char} (hs : s.chars = c :: rest)
    (f : Segment → Span → α) :
    (s.token.map fun h => f h.segment h.rest) =
      if Token.isReserved c then .error ⟨.unexpected c, s.start⟩
      else do
        let r ← Token.take (s.start + 1) rest
        let segment ← Token.classify s.start (c :: r.1)
        return f segment r.2 := by
  unfold token
  split
  · next heq => simp [hs] at heq
  · next heq =>
    obtain ⟨rfl, rfl⟩ := List.cons.inj (hs.symm.trans heq)
    split
    · rfl
    · split
      · next htake =>
        rw [htake]
        rfl
      · next htake =>
        split
        · next hclass =>
          simp only [htake, bind, Except.bind, hclass]
          rfl
        · next hclass =>
          simp only [htake, bind, Except.bind, hclass]
          rfl

theorem dots_map {c : Char} {rest : List Char} (hs : s.chars = c :: rest)
    (f : Segment → Span → α) :
    (s.dots.map fun h => f h.segment h.rest) =
      let after := (⟨s.start + 1, rest⟩ : Span).dropWhile (· = '.')
      match Token.dots? (s.length - after.length) with
      | none => .error ⟨.tooManyDots, s.start⟩
      | some t =>
        if Token.endsDots after.chars then .ok (f (.tag t) after)
        else .error ⟨.dotsNotAlone, s.start⟩ := by
  unfold dots
  split
  · next heq => simp [hs] at heq
  · next heq =>
    obtain ⟨rfl, rfl⟩ := List.cons.inj (hs.symm.trans heq)
    simp only
    generalize Token.dots? _ = found
    cases found with
    | none => rfl
    | some t =>
      simp only
      split <;> rfl

theorem hop_quote {c : Char} {rest : List Char} (hs : s.chars = c :: rest)
    (hc : Nesting.isQuote c = true) : s.hop = s.quotedKey := by
  simp only [Nesting.isQuote, Bool.or_eq_true, decide_eq_true_eq] at hc
  unfold hop
  rcases hc with rfl | rfl <;> rw [hs] <;> rfl

theorem hop_dot {rest : List Char} (hs : s.chars = '.' :: rest) : s.hop = s.dots := by
  unfold hop
  rw [hs]
  rfl

theorem hop_token {c : Char} {rest : List Char} (hs : s.chars = c :: rest)
    (hc : Nesting.isQuote c = false) (hdot : c ≠ '.') : s.hop = s.token := by
  simp only [Nesting.isQuote, Bool.or_eq_false_iff, decide_eq_false_iff_not] at hc
  unfold hop
  split
  · next heq => exact absurd (List.cons.inj (hs.symm.trans heq)).1 hc.1
  · next heq => exact absurd (List.cons.inj (hs.symm.trans heq)).1 hc.2
  · next heq => exact absurd (List.cons.inj (hs.symm.trans heq)).1 hdot
  · rfl

theorem hop_ne_nil (hop : Hop s) : s.chars ≠ [] := by
  have := hop.shorter
  intro hnil
  simp [length, hnil] at this

/-- What is left behind a hop is what the span ends with. -/
theorem endOf_hop {hop : Hop s} (h : s.hop = .ok hop) : hop.rest.EndOf s := by
  obtain ⟨c, rest, hs⟩ := List.exists_cons_of_ne_nil (hop_ne_nil hop)
  cases hq : Nesting.isQuote c with
  | true =>
    have hmap := quotedKey_map (s := s) fun _ rest => rest
    rw [← hop_quote hs hq, h] at hmap
    obtain ⟨⟨text, after⟩, hread, rfl⟩ := Fault.map_eq_ok hmap.symm
    exact endOf_read hs hq hread
  | false =>
    by_cases hdot : c = '.'
    · subst hdot
      have hmap := dots_map hs fun _ rest => rest
      rw [← hop_dot hs, h] at hmap
      simp only at hmap
      split at hmap
      · cases hmap
      · split at hmap
        · obtain heq := Except.ok.inj hmap
          change hop.rest = _ at heq
          rw [heq]
          exact (endOf_dropWhile _ _).trans (endOf_tail hs)
        · cases hmap
    · have hmap := token_map hs fun _ rest => rest
      rw [← hop_token hs hq hdot, h] at hmap
      split at hmap
      · cases hmap
      · obtain ⟨⟨text, after⟩, htake, hclass⟩ := Fault.bind_eq_ok hmap.symm
        obtain ⟨segment, -, heq⟩ := Fault.bind_eq_ok hclass
        have hafter : after = hop.rest := Fault.pure_eq_ok heq
        rw [← hafter]
        exact (endOf_take htake).1.trans (endOf_tail hs)

end Hops

end Span

end TreePath

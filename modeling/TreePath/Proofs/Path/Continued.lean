import TreePath.Proofs.Path.Hops
import TreePath.Proofs.Path.Ranges

namespace TreePath

open Text (isBlank unescape? isHighSurrogate isLowSurrogate ofSurrogates)
open Nesting (isQuote isOpener isOrdinary)

namespace Literal

theorem readBody_pair (opened i : Nat) (rest : List Char) {code low : Nat}
    {quote h₁ h₂ h₃ h₄ l₁ l₂ l₃ l₄ : Char} (hquote : '\\' ≠ quote)
    (hcode : readCode? [h₁, h₂, h₃, h₄] = some code) (hhigh : isHighSurrogate code = true)
    (hcode' : readCode? [l₁, l₂, l₃, l₄] = some low) (hlow : isLowSurrogate low = true) :
    readBody opened quote i
        ('\\' :: 'u' :: h₁ :: h₂ :: h₃ :: h₄ :: '\\' :: 'u' :: l₁ :: l₂ :: l₃ :: l₄ :: rest) =
      (readBody opened quote (i + 12) rest).map fun found =>
        (ofSurrogates code low :: found.1, found.2) := by
  have hu : (if 'u' = '\'' then some 'u' else unescape? 'u') = none := by decide
  have hfirst : isLowSurrogate code = false := by
    simp only [isHighSurrogate, isLowSurrogate, Bool.and_eq_true, decide_eq_true_eq,
      Bool.and_eq_false_iff, decide_eq_false_iff_not] at hhigh ⊢
    omega
  rw [readBody.eq_def]
  simp only [hquote, hu, hcode, hfirst, hhigh, hcode', hlow, if_false, if_true,
    Bool.false_eq_true]

/-- A literal that is read is read in front of more text, and elsewhere. -/
theorem readBody_append {opened i : Nat} {quote : Char} {cs text : List Char} {after : Span}
    (h : readBody opened quote i cs = .ok (text, after)) (opened' i' : Nat) (more : List Char) :
    ∃ after' : Span, readBody opened' quote i' (cs ++ more) = .ok (text, after') ∧
      after'.chars = after.chars ++ more := by
  -- An escape in front of the rest is read as the same character.
  have hfront : ∀ (front : List Char) {rest : List Char} {i' j : Nat} {c : Char} {text' : List Char},
      (∀ rest, readBody opened' quote i' (front ++ rest) =
        (readBody opened' quote j rest).map fun found => (c :: found.1, found.2)) →
      (∃ after' : Span, readBody opened' quote j (rest ++ more) = .ok (text', after') ∧
        after'.chars = after.chars ++ more) →
      ∃ after' : Span, readBody opened' quote i' (front ++ rest ++ more) = .ok (c :: text', after') ∧
        after'.chars = after.chars ++ more := by
    rintro front rest i' j c text' hread ⟨after', hrest, hchars⟩
    exact ⟨after', by rw [List.append_assoc, hread, hrest]; rfl, hchars⟩
  fun_induction readBody opened quote i cs generalizing text i' with
  | case2 i rest =>
    obtain ⟨rfl, rfl⟩ := Prod.mk.inj (Except.ok.inj h)
    exact ⟨_, readBody_close, rfl⟩
  | case4 i letter rest c hletter hquote ih =>
    obtain ⟨found, hfound, heq⟩ := Fault.map_eq_ok h
    obtain ⟨rfl, rfl⟩ := Prod.mk.inj heq
    exact hfront ['\\', letter] (fun _ => readBody_letter hquote hletter)
      (ih hfound _)
  | case8 i h₁ h₂ h₃ h₄ code hcode _ hhigh l₁ l₂ l₃ l₄ rest low hcode' hlow hquote _ ih =>
    obtain ⟨found, hfound, heq⟩ := Fault.map_eq_ok h
    obtain ⟨rfl, rfl⟩ := Prod.mk.inj heq
    exact hfront ['\\', 'u', h₁, h₂, h₃, h₄, '\\', 'u', l₁, l₂, l₃, l₄]
      (fun _ => readBody_pair _ _ _ hquote hcode hhigh hcode' hlow) (ih hfound _)
  | case12 i h₁ h₂ h₃ h₄ rest code hcode hlow hhigh hquote _ ih =>
    obtain ⟨found, hfound, heq⟩ := Fault.map_eq_ok h
    obtain ⟨rfl, rfl⟩ := Prod.mk.inj heq
    exact hfront ['\\', 'u', h₁, h₂, h₃, h₄]
      (fun _ => readBody_code _ _ _ hquote hcode (by simpa using hlow) (by simpa using hhigh))
      (ih hfound _)
  | case15 i c rest hne hslash ih =>
    obtain ⟨found, hfound, heq⟩ := Fault.map_eq_ok h
    obtain ⟨rfl, rfl⟩ := Prod.mk.inj heq
    exact hfront [c] (fun _ => readBody_plain hne hslash) (ih hfound _)
  | _ => cases h

theorem read_append {s t : Span} {text more : List Char} {after : Span}
    (h : read s = .ok (text, after)) (ht : t.chars = s.chars ++ more) :
    ∃ after' : Span, read t = .ok (text, after') ∧ after'.chars = after.chars ++ more := by
  unfold read at h
  split at h
  · cases h
  · next hs =>
    rw [hs, List.cons_append] at ht
    rw [read, ht]
    exact readBody_append h _ _ more

end Literal

namespace Token

theorem take_append {i : Nat} {cs text : List Char} {after : Span}
    (h : take i cs = .ok (text, after)) (j : Nat) {more : List Char} (hmore : EndsHop more) :
    ∃ after' : Span, take j (cs ++ more) = .ok (text, after') ∧
      after'.chars = after.chars ++ more := by
  induction cs generalizing i j text with
  | nil =>
    obtain ⟨rfl, rfl⟩ := Prod.mk.inj (Except.ok.inj h)
    have hnone := take_eq [] (by simp) hmore j
    exact ⟨_, hnone, rfl⟩
  | cons c rest ih =>
    unfold take at h
    rw [List.cons_append, take]
    split at h
    · next hend =>
      obtain ⟨rfl, rfl⟩ := Prod.mk.inj (Except.ok.inj h)
      exact ⟨_, if_pos hend, rfl⟩
    · next hend =>
      split at h
      · cases h
      · next hreserved =>
        obtain ⟨found, hfound, heq⟩ := Fault.map_eq_ok h
        obtain ⟨rfl, rfl⟩ := Prod.mk.inj heq
        obtain ⟨after', htake, hchars⟩ := ih hfound (j + 1)
        rw [if_neg hend, if_neg hreserved, htake]
        exact ⟨after', rfl, hchars⟩

/-- What a token means does not depend on where it starts. -/
theorem classify_shift {i : Nat} {text : List Char} {segment : Segment}
    (h : classify i text = .ok segment) (j : Nat) : classify j text = .ok segment := by
  unfold classify at h ⊢
  split at h
  · next hint =>
    rw [if_pos hint]
    split at h
    · exact h
    · cases h
  · next hint =>
    rw [if_neg hint]
    exact h

end Token

namespace Span

variable {s t : Span} {more : List Char}

section Hops

theorem dropWhile_dots_append (rest : List Char) (hmore : EndsHop more) :
    (rest ++ more).dropWhile (fun c => decide (c = '.')) =
      rest.dropWhile (fun c => decide (c = '.')) ++ more := by
  rw [List.dropWhile_append]
  split
  · next hnil =>
    rw [List.isEmpty_iff.mp hnil]
    rcases hmore with rfl | ⟨_, rfl⟩ | ⟨_, rfl⟩ <;> rfl
  · rfl

theorem endsDots_append {rest : List Char} (h : Token.endsDots rest = true)
    (hmore : EndsHop more) : Token.endsDots (rest ++ more) = true := by
  cases rest with
  | nil => rcases hmore with rfl | ⟨_, rfl⟩ | ⟨_, rfl⟩ <;> rfl
  | cons c rest => exact h

/-- A hop that is read is read in front of a slash or a bracket as well, and elsewhere. -/
theorem reads_append {hop : Hop s} (h : s.hop = .ok hop) (hmore : EndsHop more)
    (ht : t.chars = s.chars ++ more) : t.Reads hop.segment (hop.rest.chars ++ more) := by
  -- What is found at the head of the other span is the hop that is read there.
  have hreads : ∀ {x : Except Fault (Hop t)} {rest : Span}, t.hop = x →
      (x.map fun h => (h.segment, h.rest)) = .ok (hop.segment, rest) →
      rest.chars = hop.rest.chars ++ more → t.Reads hop.segment (hop.rest.chars ++ more) := by
    rintro _ rest rfl hmap hrest
    obtain ⟨hop', hhop, heq⟩ := Fault.map_eq_ok hmap
    obtain ⟨hsegment, hafter⟩ := Prod.mk.inj heq
    exact ⟨hop', hhop, hsegment, (congrArg chars hafter).trans hrest⟩
  obtain ⟨c, rest, hs⟩ := List.exists_cons_of_ne_nil (hop_ne_nil hop)
  have ht' : t.chars = c :: (rest ++ more) := by rw [ht, hs, List.cons_append]
  cases hq : isQuote c with
  | true =>
    have hmap := quotedKey_map (s := s) Prod.mk
    rw [← hop_quote hs hq, h] at hmap
    obtain ⟨⟨text, after⟩, hread, heq⟩ := Fault.map_eq_ok hmap.symm
    obtain ⟨hsegment, hrest⟩ := Prod.mk.inj heq
    obtain ⟨after', hread', hchars⟩ := Literal.read_append hread ht
    refine hreads (hop_quote ht' hq) ?_ (hchars.trans (congrArg (·.chars ++ more) hrest))
    rw [quotedKey_map Prod.mk, hread', ← hsegment]
    rfl
  | false =>
    by_cases hdot : c = '.'
    · subst hdot
      have hmap := dots_map hs Prod.mk
      rw [← hop_dot hs, h] at hmap
      simp only at hmap
      split at hmap
      · cases hmap
      · next tag htag =>
        split at hmap
        · next hends =>
          obtain ⟨hsegment, hrest⟩ := Prod.mk.inj (Except.ok.inj hmap)
          change hop.segment = _ at hsegment
          change hop.rest = _ at hrest
          have hafter := dropWhile_dots_append rest hmore
          have hlength : t.length - ((⟨t.start + 1, rest ++ more⟩ : Span).dropWhile
              fun c => decide (c = '.')).length =
              s.length - ((⟨s.start + 1, rest⟩ : Span).dropWhile
                fun c => decide (c = '.')).length := by
            simp only [length, dropWhile, hafter, ht', hs, List.length_cons, List.length_append]
            omega
          have hread : (t.dots.map fun h => (h.segment, h.rest)) = .ok (hop.segment,
              (⟨t.start + 1, rest ++ more⟩ : Span).dropWhile fun c => decide (c = '.')) := by
            rw [dots_map ht' Prod.mk, hsegment]
            simp only [hlength, htag]
            rw [if_pos]
            simpa only [dropWhile, hafter] using endsDots_append hends hmore
          refine hreads (hop_dot ht') hread ?_
          rw [hrest]
          exact hafter
        · cases hmap
    · have hmap := token_map hs Prod.mk
      rw [← hop_token hs hq hdot, h] at hmap
      split at hmap
      · cases hmap
      · next hreserved =>
        obtain ⟨⟨text, after⟩, htake, hclass⟩ := Fault.bind_eq_ok hmap.symm
        obtain ⟨segment, hsegment, heq⟩ := Fault.bind_eq_ok hclass
        obtain ⟨heq, hrest⟩ := Prod.mk.inj (Fault.pure_eq_ok heq)
        obtain ⟨after', htake', hchars⟩ := Token.take_append htake (t.start + 1) hmore
        refine hreads (hop_token ht' hq hdot) ?_ (hchars.trans (congrArg (·.chars ++ more) hrest))
        have hclass' := Token.classify_shift hsegment t.start
        simp only [token_map ht' Prod.mk, if_neg hreserved, htake', bind, Except.bind, hclass']
        exact congrArg (fun segment => Except.ok (segment, after')) heq

end Hops

section Groups

/-- A group at the head of a span is there in front of more text as well, and elsewhere. -/
theorem group_append {g : Group s} {c : Char} {rest : List Char} (hs : s.chars = c :: rest)
    (ho : isOpener c = true) (h : s.group = .ok g) (ht : t.chars = s.chars ++ more) :
    ∃ g' : Group t, t.group = .ok g' ∧ g'.inside.chars = g.inside.chars ∧
      g'.rest.chars = g.rest.chars ++ more := by
  obtain ⟨c', rest', hs', -, hclosing⟩ := group_eq_ok h
  obtain ⟨rfl, rfl⟩ := List.cons.inj (hs.symm.trans hs')
  have hfirst : isOpener (Opener.mk c s.start).char = true := ho
  obtain ⟨hinside, hrest, -⟩ := (Nesting.closing_eq_ok_iff hfirst).mp hclosing
  exact group_eq ho hinside (by rw [ht, hs, hrest]; simp)

theorem group_shift {g : Group s} {c : Char} {rest : List Char} (hs : s.chars = c :: rest)
    (ho : isOpener c = true) (h : s.group = .ok g) (ht : t.chars = s.chars) :
    ∃ g' : Group t, t.group = .ok g' ∧ g'.inside.chars = g.inside.chars ∧
      g'.rest.chars = g.rest.chars := by
  have hnil : t.chars = s.chars ++ [] := by rw [ht, List.append_nil]
  obtain ⟨g', hg, hinside, hrest⟩ := group_append hs ho h hnil
  exact ⟨g', hg, hinside, by rw [hrest, List.append_nil]⟩

theorem enclosed_shift {c : Char} {rest : List Char} (hs : s.chars = c :: rest)
    (ho : isOpener c = true) {found : Option { u : Span // u.length + 2 = s.length }}
    (h : s.enclosed = .ok found) (ht : t.chars = s.chars) :
    ∃ found' : Option { u : Span // u.length + 2 = t.length }, t.enclosed = .ok found' ∧
      (found'.map fun u => u.1.chars) = found.map fun u => u.1.chars := by
  unfold enclosed at h
  split at h
  · cases h
  · next g hg =>
    obtain ⟨g', hg', hinside, hrest⟩ := group_shift hs ho hg ht
    have hlength : g'.rest.length = g.rest.length := congrArg List.length hrest
    unfold enclosed
    rw [hg']
    simp only
    split at h
    · next hzero =>
      obtain rfl := Except.ok.inj h
      rw [dif_pos (hlength.trans hzero)]
      exact ⟨_, rfl, congrArg some hinside⟩
    · next hzero =>
      obtain rfl := Except.ok.inj h
      rw [dif_neg fun h => hzero (hlength.symm.trans h)]
      exact ⟨_, rfl, rfl⟩

end Groups

section Parts

variable {separator : Char}

theorem split_shift (hsep : isOrdinary separator = true) {p : Parts s}
    (h : s.split separator = .ok p) (ht : t.chars = s.chars) :
    ∃ p' : Parts t, t.split separator = .ok p' ∧
      p'.toList.map chars = p.toList.map chars := by
  obtain ⟨head', tail', hparted, hchars⟩ :=
    (Nesting.parted_of_split (split_eq_ok h)).shift t.start
  rw [← ht] at hparted
  obtain ⟨p', hp, rfl, rfl⟩ := split_eq (Nesting.split_of_parted hsep hparted)
  exact ⟨p', hp, hchars⟩

/-- The texts on both sides of the first separator. -/
def Cut.texts (c : Cut s) : List Char × List Char := (c.before.chars, c.after.chars)

theorem cut_shift (hsep : isOrdinary separator = true) {found : Option (Cut s)}
    (h : s.cut separator = .ok found) (ht : t.chars = s.chars) :
    ∃ found' : Option (Cut t), t.cut separator = .ok found' ∧
      found'.map Cut.texts = found.map Cut.texts := by
  unfold cut at h
  split at h
  · cases h
  · next hsplit =>
    obtain rfl := Except.ok.inj h
    obtain ⟨⟨head', tail', hext⟩, hsplit', hchars⟩ := split_shift hsep hsplit ht
    obtain ⟨-, htail⟩ := List.cons.inj hchars
    obtain rfl := List.map_eq_nil_iff.mp htail
    unfold cut
    rw [hsplit']
    exact ⟨_, rfl, rfl⟩
  · next head second tail hext hsplit =>
    obtain rfl := Except.ok.inj h
    obtain ⟨⟨head', tail', hext'⟩, hsplit', hchars⟩ := split_shift hsep hsplit ht
    obtain ⟨hhead, htail⟩ := List.cons.inj hchars
    obtain ⟨second', rest', rfl, -⟩ := List.map_eq_cons_iff.mp htail
    change head'.chars = head.chars at hhead
    have hlength : head'.length = head.length := congrArg List.length hhead
    unfold cut
    rw [hsplit']
    refine ⟨_, rfl, ?_⟩
    simp only [Option.map_some, Cut.texts, drop, ht, hhead, hlength]

theorem hasCut_shift (hsep : isOrdinary separator = true) (ht : t.chars = s.chars) :
    t.hasCut separator = s.hasCut separator := by
  have hcut : ∀ {s t : Span}, t.chars = s.chars → s.hasCut separator = true →
      t.hasCut separator = true := by
    intro s t ht h
    unfold hasCut at h
    split at h
    · next cut hfound =>
      obtain ⟨found', hfound', htexts⟩ := cut_shift hsep hfound ht
      obtain ⟨cut', rfl⟩ : ∃ cut', found' = some cut' := by
        cases found' with
        | none => cases htexts
        | some cut' => exact ⟨cut', rfl⟩
      rw [hasCut, hfound']
    · cases h
  exact Bool.eq_iff_iff.mpr ⟨hcut ht.symm, hcut ht⟩

theorem anyCut_shift (hsep : isOrdinary separator = true) {parts parts' : List Span}
    (h : parts'.map chars = parts.map chars) :
    parts'.any (·.hasCut separator) = parts.any (·.hasCut separator) := by
  induction parts generalizing parts' with
  | nil => rw [List.map_eq_nil_iff.mp h]
  | cons part parts ih =>
    obtain ⟨part', parts', rfl, hpart, hrest⟩ := List.map_eq_cons_iff.mp h
    rw [List.any_cons, List.any_cons, hasCut_shift hsep hpart, ih hrest]

theorem trim_shift (ht : t.chars = s.chars) : t.trim.chars = s.trim.chars := by
  simp only [trim, skipBlanks, dropWhile, ht]

end Parts

end Span

namespace Slice

variable {s t : Span}

theorem readBound_shift {bound : Option Int64} (h : readBound s = .ok bound)
    (ht : t.chars = s.chars) : readBound t = .ok bound := by
  rw [readBound] at h ⊢
  simp only [Span.trim_shift ht] at h ⊢
  split at h
  · next hnil => rwa [if_pos hnil]
  · next hnil =>
    rw [if_neg hnil]
    split at h
    · cases h
    · next hint =>
      rw [if_neg hint]
      split at h
      · exact h
      · cases h

theorem readBounds_shift {parts parts' : List Span} {bounds : List (Option Int64)}
    (h : parts.mapM readBound = .ok bounds)
    (hparts : parts'.map Span.chars = parts.map Span.chars) :
    parts'.mapM readBound = .ok bounds := by
  induction parts generalizing parts' bounds with
  | nil => rwa [List.map_eq_nil_iff.mp hparts]
  | cons part parts ih =>
    obtain ⟨part', rest', rfl, hpart, hrest⟩ := List.map_eq_cons_iff.mp hparts
    rw [List.mapM_cons] at h ⊢
    obtain ⟨bound, hbound, h⟩ := Fault.bind_eq_ok h
    obtain ⟨bounds, hbounds, h⟩ := Fault.bind_eq_ok h
    rw [readBound_shift hbound hpart, ih hbounds hrest]
    exact h

theorem read_shift {slice : Slice} (h : read s = .ok slice) (ht : t.chars = s.chars) :
    read t = .ok slice := by
  rw [read] at h ⊢
  obtain ⟨p, hp, h⟩ := Fault.bind_eq_ok h
  obtain ⟨p', hp', hchars⟩ := Span.split_shift rfl hp ht
  have hlength : p'.toList.length = p.toList.length := by
    simpa only [List.length_map] using congrArg List.length hchars
  rw [hp']
  change (if 3 < p'.toList.length then _ else _) = _
  change (if 3 < p.toList.length then _ else _) = _ at h
  rw [hlength]
  split at h
  · cases h
  · next hthree =>
    rw [if_neg hthree]
    obtain ⟨bounds, hbounds, h⟩ := Fault.bind_eq_ok h
    have := readBounds_shift hbounds hchars
    simp only [this]
    simp only [bind, Except.bind] at h ⊢
    split at h
    · cases h
    · next hzero => rwa [if_neg hzero]

end Slice

namespace Expected

variable {s t : Span}

theorem readMarked_shift {e : Expected} (h : readMarked s = .ok e) (ht : t.chars = s.chars) :
    readMarked t = .ok e := by
  rw [readMarked] at h ⊢
  rw [Span.trim_shift ht]
  split at h
  · exact h
  · cases h

theorem readQuoted_shift {e : Expected} (h : readQuoted s = .ok e) (ht : t.chars = s.chars) :
    readQuoted t = .ok e := by
  rw [readQuoted] at h ⊢
  obtain ⟨⟨text, after⟩, hread, h⟩ := Fault.bind_eq_ok h
  have hnil : t.chars = s.chars ++ [] := by rw [ht, List.append_nil]
  obtain ⟨after', hread', hchars⟩ := Literal.read_append hread hnil
  rw [List.append_nil] at hchars
  rw [hread']
  change (if after.chars.isEmpty then _ else _) = _ at h
  change (if after'.chars.isEmpty then _ else _) = _
  rw [hchars]
  split at h
  · next hnil => rwa [if_pos hnil]
  · cases h

end Expected

end TreePath

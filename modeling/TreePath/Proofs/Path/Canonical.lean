import TreePath.Proofs.Path.Folding
import TreePath.Proofs.Path.Image

namespace TreePath

open Decimal

section Hops

/-- Behind a hop, the next one starts with its mark. -/
theorem renderHops_cons_append (t : Segment) (rest : Path) (s : List Char) :
    ∃ c more, renderHops (t :: rest) ++ s = c :: more ∧ c ∈ ['/', '['] := by
  cases hb : t.isBracketed with
  | true =>
    have hrender := Segment.render_bracketed hb
    exact ⟨'[', t.inner ++ ']' :: (renderHops rest ++ s), by simp [renderHops, hb, hrender],
      by decide⟩
  | false => exact ⟨'/', t.render ++ (renderHops rest ++ s), by simp [renderHops, hb], by decide⟩

theorem endsWord_renderHops (p : Path) {s : List Char} (hs : EndsItem s) :
    EndsWord (renderHops p ++ s) := by
  cases p with
  | nil => exact hs.endsWord
  | cons t rest =>
    obtain ⟨c, more, hc, hmem⟩ := renderHops_cons_append t rest s
    have hall : ∀ d ∈ ['/', '['], ¬IsWordChar d := forall_mem_of_all (by decide)
    rw [hc]
    exact .cons (hall c hmem) more

theorem renderHops_append_ne (t : Segment) (rest : Path) (s : List Char) {r : List Char}
    (hr : EndsItem r) : renderHops (t :: rest) ++ s ≠ r := by
  obtain ⟨c, more, hc, hmem⟩ := renderHops_cons_append t rest s
  have hall : ∀ d ∈ ['/', '['], d ∉ [',', ':', ')', ']', '}'] := forall_mem_of_all (by decide)
  rw [hc]
  rintro rfl
  exact hall c hmem (hr c rfl)

theorem renderPath_append_ne (t : Segment) (rest : Path) (s : List Char) {r : List Char}
    (hr : EndsItem r) : renderPath (t :: rest) ++ s ≠ r := by
  by_cases ht : t = .tag .root
  · subst ht
    rintro rfl
    exact absurd (hr '/' rfl) (by decide)
  · rw [renderPath_cons ht, List.append_assoc]
    exact Segment.render_append_ne_endsItem hr

/-- A word at the head of a path is the whole path. -/
theorem word_append_path {w : List Char} (hne : w ≠ []) (hword : ∀ c ∈ w, IsWordChar c) {p : Path}
    {r s : List Char} (hr : EndsItem r) (hs : EndsItem s) (h : w ++ r = renderPath p ++ s) :
    (∃ t, p = [t] ∧ t.isBracketed = false ∧ t.render = w) ∧ r = s := by
  obtain ⟨c, cs, hcons⟩ := List.exists_cons_of_ne_nil hne
  have hc : IsWordChar c := hword c (by simp [hcons])
  have hhead {d : Char} {ds : List Char} (hd : ¬IsWordChar d) : w ++ r ≠ d :: ds := by
    rw [hcons]
    intro heq
    exact hd ((List.cons.inj heq).1 ▸ hc)
  match p with
  | [] =>
    obtain rfl : w ++ r = s := h
    exact absurd hc (hs.endsWord c (by simp [hcons]))
  | t :: rest =>
    by_cases hroot : t = .tag .root
    · subst hroot
      exact absurd h (hhead (by decide))
    rw [renderPath_cons hroot, List.append_assoc] at h
    cases hb : t.isBracketed with
    | true =>
      rw [Segment.render_bracketed hb] at h
      exact absurd h (hhead (by decide))
    | false =>
      rcases Segment.render_cases hb with ⟨name, -, hquote⟩ | ⟨-, htword⟩
      · rw [hquote] at h
        exact absurd h (hhead (by decide))
      · obtain ⟨htext, hrest⟩ :=
          append_inj_of_stops hword htword hr.endsWord (endsWord_renderHops rest hs) h
        cases rest with
        | nil => exact ⟨⟨t, rfl, hb, htext.symm⟩, hrest⟩
        | cons u rest => exact absurd hrest.symm (renderHops_append_ne u rest s hr)

abbrev ShowsSegment : Segment → Prop :=
  Shows Segment.FloatFree EndsWord Segment.render Segment.folded

abbrev ShowsPath : Path → Prop := Shows PathFloatFree EndsItem renderPath foldedPath

theorem renderHops_append_inj {as bs : Path} (has : ∀ a ∈ as, ShowsSegment a)
    (hbs : PathFloatFree bs) {r s : List Char} (hr : EndsItem r) (hs : EndsItem s)
    (h : renderHops as ++ r = renderHops bs ++ s) : foldedPath as = foldedPath bs ∧ r = s := by
  induction as generalizing bs with
  | nil =>
    cases bs with
    | nil => exact ⟨rfl, h⟩
    | cons b bs => exact absurd h.symm (renderHops_append_ne b bs s hr)
  | cons a as ih =>
    cases bs with
    | nil => exact absurd h (renderHops_append_ne a as r hs)
    | cons b bs =>
      have hhop : a.render ++ (renderHops as ++ r) = b.render ++ (renderHops bs ++ s) := by
        cases ha : a.isBracketed <;> cases hb : b.isBracketed <;>
          simp only [renderHops, ha, hb, Bool.false_eq_true, if_false, if_true] at h
        · simpa using h
        · simp [Segment.render_bracketed hb] at h
        · simp [Segment.render_bracketed ha] at h
        · simpa using h
      obtain ⟨hform, hrest⟩ := has a (by simp) b hbs.1 _ _ (endsWord_renderHops as hr)
        (endsWord_renderHops bs hs) hhop
      obtain ⟨hforms, hrest⟩ := ih (fun x hx => has x (List.mem_cons_of_mem _ hx)) hbs.2 hrest
      exact ⟨by rw [foldedPath, foldedPath, hform, hforms], hrest⟩

theorem renderRelative_append_inj {as bs : Path} (has : ∀ a ∈ as, ShowsSegment a)
    (hbs : PathFloatFree bs) {r s : List Char} (hr : EndsItem r) (hs : EndsItem s)
    (h : renderRelative as ++ r = renderRelative bs ++ s) :
    foldedPath as = foldedPath bs ∧ r = s := by
  match as, bs with
  | [], [] => exact ⟨rfl, h⟩
  | [], b :: bs =>
    simp only [renderRelative, List.nil_append, List.append_assoc] at h
    exact absurd h.symm (Segment.render_append_ne_endsItem hr)
  | a :: as, [] =>
    simp only [renderRelative, List.nil_append, List.append_assoc] at h
    exact absurd h (Segment.render_append_ne_endsItem hs)
  | a :: as, b :: bs =>
    simp only [renderRelative, List.append_assoc] at h
    obtain ⟨hform, hrest⟩ := has a (by simp) b hbs.1 _ _ (endsWord_renderHops as hr)
      (endsWord_renderHops bs hs) h
    obtain ⟨hforms, hrest⟩ := renderHops_append_inj (fun x hx => has x (List.mem_cons_of_mem _ hx))
      hbs.2 hr hs hrest
    exact ⟨by rw [foldedPath, foldedPath, hform, hforms], hrest⟩

theorem render_append_ne_slash (t : Segment) (r s : List Char) : t.render ++ r ≠ '/' :: s := by
  obtain ⟨c, rest, hc, hnot, -⟩ := t.exists_head
  rw [hc]
  intro h
  obtain rfl := (List.cons.inj h).1
  exact hnot (by simp)

/-- A path shows itself if its segments do. -/
theorem shows_path {p : Path} (hp : ∀ a ∈ p, ShowsSegment a) : ShowsPath p := by
  intro q hq r s hr hs h
  match p, q with
  | [], [] => exact ⟨rfl, h⟩
  | [], b :: bs => exact absurd h.symm (renderPath_append_ne b bs s hr)
  | a :: as, [] => exact absurd h (renderPath_append_ne a as r hs)
  | a :: as, b :: bs =>
    by_cases ha : a = .tag .root <;> by_cases hb : b = .tag .root
    · subst ha hb
      simp only [renderPath, List.cons_append, List.cons.injEq, true_and] at h
      obtain ⟨hforms, hrest⟩ := renderRelative_append_inj
        (fun x hx => hp x (List.mem_cons_of_mem _ hx)) hq.2 hr hs h
      exact ⟨by rw [foldedPath, foldedPath, hforms], hrest⟩
    · subst ha
      rw [renderPath_cons hb, List.append_assoc] at h
      exact absurd h.symm (render_append_ne_slash b _ _)
    · subst hb
      rw [renderPath_cons ha, List.append_assoc] at h
      exact absurd h (render_append_ne_slash a _ _)
    · rw [renderPath_cons ha, renderPath_cons hb] at h
      exact renderRelative_append_inj hp hq hr hs h

end Hops

section Slices

open TreePath.Parser

theorem renderBound_append_inj {a b : Option Int64} {r s : List Char} (hr : EndsWord r)
    (hs : EndsWord s) (h : Slice.renderBound a ++ r = Slice.renderBound b ++ s) :
    a = b ∧ r = s := by
  have hword : ∀ a, ∀ c ∈ Slice.renderBound a, IsWordChar c := by
    intro a c hc
    cases a with
    | none => simp [Slice.renderBound] at hc
    | some n => exact .inl (isTokenChar_of_isNumeral (isNumeral_of_mem_intText hc))
  obtain ⟨htext, hrest⟩ := append_inj_of_stops (hword a) (hword b) hr hs h
  refine ⟨?_, hrest⟩
  cases a <;> cases b <;> simp only [Slice.renderBound] at htext
  · rfl
  · exact absurd htext.symm (intText_ne_nil _)
  · exact absurd htext (intText_ne_nil _)
  · next m n =>
    have hm := positionOf?_intText m
    rw [htext, positionOf?_intText] at hm
    exact hm.symm

theorem renderStep_append_inj {a b : Option Int64} {r s : List Char}
    (h : renderStep a ++ ']' :: r = renderStep b ++ ']' :: s) : a = b ∧ r = s := by
  cases a <;> cases b <;>
    simp only [renderStep, List.nil_append, List.cons_append, List.cons.injEq] at h
  · exact ⟨rfl, h.2⟩
  · exact absurd h.1 (by decide)
  · exact absurd h.1 (by decide)
  · obtain ⟨hstep, hrest⟩ :=
      renderBound_append_inj (.cons (by decide) r) (.cons (by decide) s) h.2
    exact ⟨hstep, (List.cons.inj hrest).2⟩

theorem endsWord_renderStep (a : Option Int64) (r : List Char) :
    EndsWord (renderStep a ++ ']' :: r) := by
  cases a with
  | none => exact .cons (by decide) r
  | some n => exact .cons (by decide) _

/-- The text of a slice starts with a star, a colon or a character of a number. -/
theorem render_slice_append_ne {a : Slice} {c : Char} (hc : c ∈ ['{', '[', '(']) (r s : List Char) :
    a.render ++ r ≠ c :: s := by
  obtain ⟨d, ds, hd⟩ := List.exists_cons_of_ne_nil (balanced_slice a).1.ne_nil
  have hnot : ∀ x ∈ ['{', '[', '('], x ≠ '*' ∧ ¬(isNumeral x = true ∨ x = ':') :=
    forall_mem_of_all (by decide)
  rw [hd]
  intro h
  obtain rfl : d = c := (List.cons.inj h).1
  cases hfull : a.isFull with
  | true =>
    simp only [Slice.render, hfull, if_true, List.cons.injEq] at hd
    exact (hnot d hc).1 hd.1.symm
  | false => exact (hnot d hc).2 (mem_render_slice hfull (by simp [hd]))

theorem render_slice_append_inj {a b : Slice} {r s : List Char}
    (h : a.render ++ ']' :: r = b.render ++ ']' :: s) : a = b ∧ r = s := by
  have hmixed {a b : Slice} {r s : List Char} (ha : a.isFull = true) (hb : b.isFull = false) :
      a.render ++ r ≠ b.render ++ s := by
    obtain ⟨c, cs, hc⟩ := List.exists_cons_of_ne_nil (balanced_slice b).1.ne_nil
    have hstar : ¬(isNumeral '*' = true ∨ '*' = ':') := by decide
    rw [hc, Slice.render, if_pos ha]
    intro h
    obtain rfl : '*' = c := (List.cons.inj h).1
    exact hstar (mem_render_slice hb (by simp [hc]))
  cases ha : a.isFull <;> cases hb : b.isFull
  · rw [render_slice ha, render_slice hb] at h
    simp only [List.append_assoc, List.cons_append] at h
    obtain ⟨hstart, h⟩ := renderBound_append_inj (.cons (by decide) _) (.cons (by decide) _) h
    obtain ⟨hstop, h⟩ := renderBound_append_inj (endsWord_renderStep _ r)
      (endsWord_renderStep _ s) (List.cons.inj h).2
    obtain ⟨hstep, hrest⟩ := renderStep_append_inj h
    exact ⟨by cases a; cases b; simp_all, hrest⟩
  · exact absurd h.symm (hmixed hb ha)
  · exact absurd h (hmixed ha hb)
  · simp only [Slice.isFull, Bool.and_eq_true, Option.isNone_iff_eq_none] at ha hb
    have hab : a = b := by cases a; cases b; simp_all
    subst hab
    exact ⟨rfl, (List.cons.inj (List.append_cancel_left h)).2⟩

end Slices

section Queries

/-- The text of a tag's name is the text of no other hop. -/
theorem tag_of_render_eq_name {t : Segment} (hb : t.isBracketed = false) {tag : Tag}
    (h : t.render = '$' :: tag.name.toList) : t = .tag tag := by
  have hread : Span.Reads ⟨0, t.render⟩ (.tag tag) [] :=
    Span.token_eq (by simp) isTokenChar_of_mem_name (.inl rfl)
      (fun start => Token.classify_tag start tag) (by simp [h])
  exact Segment.reads_inj (Span.reads_render hb (.inl rfl) (by simp)) hread

/-- A point, or the name of the current marker, as the key of an entry is no path's text, other than
that of the two paths with keys of their own. -/
theorem sign_append_ne {w : List Char} (hw : w = ['.'] ∨ w = '$' :: Tag.current.name.toList)
    {p : Path} (hp : p ≠ [.tag .current]) {r s : List Char} (hr : EndsItem r) (hs : EndsItem s) :
    w ++ r ≠ renderPath p ++ s := by
  have hword : w ≠ [] ∧ ∀ c ∈ w, IsWordChar c := by
    rcases hw with rfl | rfl
    · exact ⟨by decide, forall_mem_of_all (by decide)⟩
    · exact ⟨by decide, forall_mem_of_all (by decide)⟩
  intro h
  obtain ⟨⟨t, rfl, hb, ht⟩, -⟩ := word_append_path hword.1 hword.2 hr hs h
  rcases hw with rfl | rfl
  · have hcurrent : t.render = (Segment.tag .current).render := ht
    exact hp (by rw [Segment.render_inj hb rfl hcurrent])
  · exact hp (by rw [tag_of_render_eq_name hb ht])

theorem queryKey_cases (p : Path) :
    (p = [] ∧ queryKey p (renderPath p) = ['.']) ∨
      (p = [.tag .current] ∧ queryKey p (renderPath p) = '$' :: Tag.current.name.toList) ∨
      (p ≠ [] ∧ p ≠ [.tag .current] ∧ queryKey p (renderPath p) = renderPath p) := by
  by_cases hp : p = []
  · subst hp
    exact .inl ⟨rfl, rfl⟩
  by_cases hcurrent : p = [.tag .current]
  · subst hcurrent
    exact .inr (.inl ⟨rfl, rfl⟩)
  · exact .inr (.inr ⟨hp, hcurrent, queryKey_eq_text hp hcurrent _⟩)

theorem queryKey_append_inj {p q : Path} (hp : ShowsPath p) (hq : PathFloatFree q)
    {r s : List Char} (hr : EndsItem r) (hs : EndsItem s)
    (h : queryKey p (renderPath p) ++ r = queryKey q (renderPath q) ++ s) :
    foldedPath p = foldedPath q ∧ r = s := by
  rcases queryKey_cases p with ⟨rfl, hkp⟩ | ⟨rfl, hkp⟩ | ⟨-, hpc, hkp⟩ <;>
    rcases queryKey_cases q with ⟨rfl, hkq⟩ | ⟨rfl, hkq⟩ | ⟨-, hqc, hkq⟩ <;>
    simp only [hkp, hkq] at h
  · exact ⟨rfl, List.append_cancel_left h⟩
  · exact absurd (List.cons.inj h).1 (by decide)
  · exact absurd h (sign_append_ne (.inl rfl) hqc hr hs)
  · exact absurd (List.cons.inj h).1 (by decide)
  · exact ⟨rfl, List.append_cancel_left h⟩
  · exact absurd h (sign_append_ne (.inr rfl) hqc hr hs)
  · exact absurd h.symm (sign_append_ne (.inl rfl) hpc hs hr)
  · exact absurd h.symm (sign_append_ne (.inr rfl) hpc hs hr)
  · exact hp q hq r s hr hs h

theorem shows_entry {p : Path} {e : Expected} (hp : ShowsPath p)
    (he : Shows Expected.FloatFree EndsItem Expected.render Expected.folded e) :
    Shows (fun entry : Path × Expected => PathFloatFree entry.1 ∧ entry.2.FloatFree) EndsItem
      entryText (fun entry => (foldedPath entry.1, entry.2.folded)) (p, e) := by
  intro other hother r s hr hs h
  have hkeys : queryKey p (renderPath p) ++ ':' :: ' ' :: (e.render ++ r) =
      queryKey other.1 (renderPath other.1) ++ ':' :: ' ' :: (other.2.render ++ s) := by
    simpa [entryText] using h
  obtain ⟨hpath, hvalues⟩ := queryKey_append_inj hp hother.1 (.cons (by decide) _)
    (.cons (by decide) _) hkeys
  obtain ⟨hexpected, hrest⟩ := he other.2 hother.2 r s hr hs (by simpa using hvalues)
  exact ⟨Prod.ext hpath hexpected, hrest⟩

theorem floatFree_of_mem_query {q : Query} (h : QueryFloatFree q) :
    ∀ entry ∈ q, PathFloatFree entry.1 ∧ entry.2.FloatFree := by
  induction q with
  | nil => simp
  | cons entry q ih => exact List.forall_mem_cons.mpr ⟨⟨h.1, h.2.1⟩, ih h.2.2⟩

theorem queryKey_append_ne (p : Path) (s : List Char) {r : List Char} (hr : EndsItem r) :
    queryKey p (renderPath p) ++ s ≠ r := by
  rcases queryKey_cases p with ⟨-, hkey⟩ | ⟨-, hkey⟩ | ⟨hne, -, hkey⟩ <;> rw [hkey]
  · rintro rfl
    exact absurd (hr '.' rfl) (by decide)
  · rintro rfl
    exact absurd (hr '$' rfl) (by decide)
  · obtain ⟨t, rest, rfl⟩ := List.exists_cons_of_ne_nil hne
    exact renderPath_append_ne t rest s hr

theorem renderEntries_cons_append (entry : Path × Expected) (q : Query) (t : List Char) :
    ∃ more, renderEntries (entry :: q) ++ t =
      queryKey entry.1 (renderPath entry.1) ++ ':' :: more := by
  obtain ⟨p, e⟩ := entry
  cases q with
  | nil => exact ⟨' ' :: (e.render ++ t), by simp [renderEntries]⟩
  | cons next rest =>
    exact ⟨' ' :: (e.render ++ ',' :: ' ' :: (renderEntries (next :: rest) ++ t)),
      by simp [renderEntries]⟩

theorem renderPaths_cons_append (p : Path) (ps : List Path) (t : List Char) :
    ∃ c more, renderPaths (p :: ps) ++ '}' :: t = renderPath p ++ c :: more ∧ c ∈ [',', '}'] := by
  cases ps with
  | nil => exact ⟨'}', t, by simp [renderPaths], by decide⟩
  | cons next rest =>
    exact ⟨',', ' ' :: (renderPaths (next :: rest) ++ '}' :: t), by simp [renderPaths], by decide⟩

/-- The key of an entry at the head of a path leaves what the path leaves. -/
theorem queryKey_append_path {p q : Path}
    (hmeet : ∀ r s, EndsItem r → EndsItem s → renderPath p ++ r = renderPath q ++ s → r = s)
    {r s : List Char} (hr : EndsItem r) (hs : EndsItem s)
    (h : queryKey p (renderPath p) ++ r = renderPath q ++ s) : r = s := by
  rcases queryKey_cases p with ⟨-, hkey⟩ | ⟨-, hkey⟩ | ⟨-, -, hkey⟩ <;> rw [hkey] at h
  · exact (word_append_path (by decide) (forall_mem_of_all (by decide)) hr hs h).2
  · exact (word_append_path (by decide) (forall_mem_of_all (by decide)) hr hs h).2
  · exact hmeet r s hr hs h

/-- Between braces there is either a query or a list of alternatives, if there is anything. -/
theorem entries_append_paths {q : Query} {ps : List Path}
    (hmeet : ∀ entry ∈ q, ∀ p ∈ ps, ∀ r s, EndsItem r → EndsItem s →
      renderPath entry.1 ++ r = renderPath p ++ s → r = s)
    {r s : List Char} (h : renderEntries q ++ '}' :: r = renderPaths ps ++ '}' :: s) :
    q = [] ∧ isBlankList ps = true ∧ r = s := by
  have hbrace (t : List Char) : EndsItem ('}' :: t) := .cons (by decide) t
  match q, ps with
  | [], [] | [], [[]] => exact ⟨rfl, rfl, by simpa [renderEntries, renderPaths, renderPath] using h⟩
  | [], [] :: p :: ps => simp [renderEntries, renderPaths, renderPath] at h
  | [], (t :: rest) :: ps =>
    obtain ⟨c, more, hpaths, -⟩ := renderPaths_cons_append (t :: rest) ps s
    rw [hpaths] at h
    exact absurd h.symm (renderPath_append_ne t rest _ (hbrace r))
  | entry :: q, [] =>
    obtain ⟨more, hentries⟩ := renderEntries_cons_append entry q ('}' :: r)
    rw [hentries] at h
    exact absurd h (queryKey_append_ne entry.1 _ (hbrace s))
  | entry :: q, p :: ps =>
    obtain ⟨more, hentries⟩ := renderEntries_cons_append entry q ('}' :: r)
    obtain ⟨c, others, hpaths, hc⟩ := renderPaths_cons_append p ps s
    rw [hentries, hpaths] at h
    have hmark : ∀ d ∈ [',', '}'], EndsItem (d :: others) ∧ d ≠ ':' := by
      simp [EndsItem]
    have hrest := queryKey_append_path (hmeet entry (by simp) p (by simp))
      (.cons (by decide) more) (hmark c hc).1 h
    exact absurd (List.cons.inj hrest).1.symm (hmark c hc).2

end Queries

section Lists

theorem floatFree_of_mem_alternatives {ps : List Path} (h : AlternativesFloatFree ps) :
    ∀ p ∈ ps, PathFloatFree p := by
  induction ps with
  | nil => simp
  | cons p ps ih => exact List.forall_mem_cons.mpr ⟨h.1, ih h.2⟩

theorem floatFree_of_mem_members {p : Path} (h : PathFloatFree p) : ∀ s ∈ p, s.FloatFree := by
  induction p with
  | nil => simp
  | cons s p ih => exact List.forall_mem_cons.mpr ⟨h.1, ih h.2⟩

theorem shows_path_nil : ShowsPath [] := shows_path (by simp)

/-- Two lists of alternatives with one text are one list, or both of them are blank. -/
theorem renderPaths_append_inj {ps qs : List Path} (hps : ∀ p ∈ ps, ShowsPath p)
    (hqs : ∀ q ∈ qs, PathFloatFree q) {c : Char} (hc : c ∈ [']', '}']) (named : Bool)
    {r s : List Char} (h : renderPaths ps ++ c :: r = renderPaths qs ++ c :: s) :
    (Segment.union ps named).folded = (Segment.union qs named).folded ∧ r = s := by
  have hend : ∀ d ∈ [']', '}'], ∀ t, EndsItem (d :: t) ∧ (d :: t).head? ≠ some ',' := by
    simp [EndsItem]
  have hfilled {p q : Path} {ps qs : List Path} (hps : ∀ x ∈ p :: ps, ShowsPath x)
      (hqs : ∀ y ∈ q :: qs, PathFloatFree y)
      (h : renderPaths (p :: ps) ++ c :: r = renderPaths (q :: qs) ++ c :: s) :
      (Segment.union (p :: ps) named).folded = (Segment.union (q :: qs) named).folded ∧ r = s := by
    obtain ⟨hforms, hrest⟩ := Shows.separated [' '] renderPaths
      (fun _ => rfl) (by simp [renderPaths]) hps hqs (hend c hc r).1 (hend c hc s).1
      (hend c hc r).2 (hend c hc s).2 h
    rw [← foldedPaths_eq, ← foldedPaths_eq] at hforms
    exact ⟨union_folded_congr hforms named, (List.cons.inj hrest).2⟩
  -- no alternatives are written as the empty path alone is
  have hblank : (Segment.union [] named).folded = (Segment.union [[]] named).folded := rfl
  match ps, qs with
  | [], [] => exact ⟨rfl, (List.cons.inj h).2⟩
  | [], q :: qs =>
    rw [hblank]
    exact hfilled (by simpa using shows_path_nil) hqs h
  | p :: ps, [] =>
    rw [hblank]
    exact hfilled hps (by simp [PathFloatFree]) h
  | p :: ps, q :: qs => exact hfilled hps hqs h

theorem renderMembers_append_inj {as bs : Path} (has : ∀ a ∈ as, ShowsSegment a)
    (hbs : PathFloatFree bs) {r s : List Char}
    (h : renderMembers as ++ ')' :: r = renderMembers bs ++ ')' :: s) :
    foldedPath as = foldedPath bs ∧ r = s := by
  have hend (t : List Char) : EndsItem (')' :: t) := .cons (by decide) t
  have hfirst (t : Segment) (rest : Path) (r : List Char) {s : List Char} (hs : EndsItem s) :
      renderMembers (t :: rest) ++ r ≠ s := by
    cases rest with
    | nil => exact Segment.render_append_ne_endsItem hs
    | cons u rest =>
      rw [renderMembers, List.append_assoc]
      exact Segment.render_append_ne_endsItem hs
  match as, bs with
  | [], [] => exact ⟨rfl, (List.cons.inj h).2⟩
  | [], b :: bs => exact absurd h.symm (hfirst b bs _ (hend r))
  | a :: as, [] => exact absurd h (hfirst a as _ (hend s))
  | a :: as, b :: bs =>
    obtain ⟨hforms, hrest⟩ := Shows.separated [' '] renderMembers
      (fun _ => rfl) (by simp [renderMembers])
      (fun x hx y hy r s hr hs => has x hx y hy r s hr.endsWord hs.endsWord)
      (floatFree_of_mem_members hbs) (hend r) (hend s) (by simp) (by simp) h
    rw [← foldedPath_eq, ← foldedPath_eq] at hforms
    exact ⟨hforms, (List.cons.inj hrest).2⟩

theorem renderEntries_append_inj {q t : Query}
    (hq : ∀ entry ∈ q, ShowsPath entry.1 ∧
      Shows Expected.FloatFree EndsItem Expected.render Expected.folded entry.2)
    (ht : QueryFloatFree t) {r s : List Char}
    (h : renderEntries q ++ '}' :: r = renderEntries t ++ '}' :: s) :
    foldedQuery q = foldedQuery t ∧ r = s := by
  have hend (t : List Char) : EndsItem ('}' :: t) := .cons (by decide) t
  have hfirst (entry : Path × Expected) (rest : Query) (r : List Char) {s : List Char}
      (hs : EndsItem s) : renderEntries (entry :: rest) ++ r ≠ s := by
    obtain ⟨more, hentries⟩ := renderEntries_cons_append entry rest r
    rw [hentries]
    exact queryKey_append_ne entry.1 _ hs
  match q, t with
  | [], [] => exact ⟨rfl, (List.cons.inj h).2⟩
  | [], f :: t => exact absurd h.symm (hfirst f t _ (hend r))
  | e :: q, [] => exact absurd h (hfirst e q _ (hend s))
  | e :: q, f :: t =>
    obtain ⟨hforms, hrest⟩ := Shows.separated [' '] renderEntries
      (fun _ => rfl) (by simp [renderEntries])
      (fun x hx => shows_entry (hq x hx).1 (hq x hx).2)
      (floatFree_of_mem_query ht) (hend r) (hend s) (by simp) (by simp) h
    rw [← foldedQuery_eq, ← foldedQuery_eq] at hforms
    exact ⟨hforms, (List.cons.inj hrest).2⟩

end Lists

section Segments

namespace Segment

theorem shows_word {a : Segment} (ha : a.isBracketed = false) : ShowsSegment a := by
  intro b _ r s hr hs h
  have hb : b.isBracketed = false := by rw [← isBracketed_eq_of_append h, ha]
  obtain ⟨rfl, hrest⟩ := word_append_inj ha hb hr hs h
  exact ⟨rfl, hrest⟩

theorem shows_slice (a : Slice) : ShowsSegment (.slice a) := by
  intro b _ r s _ _ h
  have hb : b.isBracketed = true := (isBracketed_eq_of_append h).symm
  have hne (c : Char) (hc : c ∈ ['{', '[', '(']) (t : List Char) :
      a.render ++ ']' :: r ≠ c :: t := render_slice_append_ne hc _ _
  cases b with
  | slice b =>
    obtain ⟨rfl, hrest⟩ := render_slice_append_inj (a := a) (b := b) (by simpa [render] using h)
    exact ⟨rfl, hrest⟩
  | predicate q => exact absurd (by simpa [render] using h) (hne '{' (by decide) _)
  | union ps named =>
    cases named with
    | true => exact absurd (by simpa [render] using h) (hne '{' (by decide) _)
    | false => exact absurd (by simpa [render] using h) (hne '[' (by decide) _)
  | tuple members => exact absurd (by simpa [render] using h) (hne '(' (by decide) _)
  | key | index | tag => simp [isBracketed] at hb

theorem shows_predicate {q : Query} (hq : ∀ entry ∈ q, ShowsPath entry.1 ∧
    Shows Expected.FloatFree EndsItem Expected.render Expected.folded entry.2) :
    ShowsSegment (.predicate q) := by
  intro b hfree r s _ _ h
  have hb : b.isBracketed = true := (isBracketed_eq_of_append h).symm
  cases b with
  | slice b =>
    exact absurd (by simpa [render] using h.symm)
      (render_slice_append_ne (a := b) (c := '{') (by decide) (']' :: s) _)
  | predicate t =>
    obtain ⟨hforms, hrest⟩ := renderEntries_append_inj (r := ']' :: r) (s := ']' :: s) hq hfree
      (by simpa [render] using h)
    exact ⟨by rw [folded, folded, hforms], (List.cons.inj hrest).2⟩
  | union ps named =>
    cases named with
    | false => simp [render] at h
    | true =>
      have hmeet : ∀ entry ∈ q, ∀ p ∈ ps, ∀ r s, EndsItem r → EndsItem s →
          renderPath entry.1 ++ r = renderPath p ++ s → r = s := by
        intro entry hentry p hp r s hr hs hpaths
        have hp : PathFloatFree p := floatFree_of_mem_alternatives hfree p hp
        exact ((hq entry hentry).1 p hp r s hr hs hpaths).2
      obtain ⟨rfl, hblank, hrest⟩ := entries_append_paths (r := ']' :: r) (s := ']' :: s) hmeet
        (by simpa [render] using h)
      exact ⟨by rw [folded, folded, hblank]; rfl, (List.cons.inj hrest).2⟩
  | tuple members => simp [render] at h
  | key | index | tag => simp [isBracketed] at hb

theorem shows_union {ps : List Path} (hps : ∀ p ∈ ps, ShowsPath p) (named : Bool) :
    ShowsSegment (.union ps named) := by
  intro b hfree r s _ _ h
  have hb : b.isBracketed = true := by
    rw [← isBracketed_eq_of_append h]
    rfl
  cases b with
  | slice b =>
    cases named with
    | true =>
      exact absurd (by simpa [render] using h.symm)
        (render_slice_append_ne (a := b) (c := '{') (by decide) (']' :: s) _)
    | false =>
      exact absurd (by simpa [render] using h.symm)
        (render_slice_append_ne (a := b) (c := '[') (by decide) (']' :: s) _)
  | predicate t =>
    cases named with
    | false => simp [render] at h
    | true =>
      have hmeet : ∀ entry ∈ t, ∀ p ∈ ps, ∀ r s, EndsItem r → EndsItem s →
          renderPath entry.1 ++ r = renderPath p ++ s → r = s := by
        intro entry hentry p hp r s hr hs hpaths
        have hkey : PathFloatFree entry.1 := (floatFree_of_mem_query hfree entry hentry).1
        exact (hps p hp entry.1 hkey s r hs hr hpaths.symm).2.symm
      obtain ⟨rfl, hblank, hrest⟩ := entries_append_paths (r := ']' :: s) (s := ']' :: r) hmeet
        (by simpa [render] using h.symm)
      exact ⟨by rw [folded, folded, hblank]; rfl, (List.cons.inj hrest).2.symm⟩
  | union qs other =>
    have hqs := floatFree_of_mem_alternatives hfree
    cases named <;> cases other
    · obtain ⟨hforms, hrest⟩ := renderPaths_append_inj (r := ']' :: r) (s := ']' :: s) hps hqs
        (c := ']') (by decide) false (by simpa [render] using h)
      exact ⟨hforms, (List.cons.inj hrest).2⟩
    · simp [render] at h
    · simp [render] at h
    · obtain ⟨hforms, hrest⟩ := renderPaths_append_inj (r := ']' :: r) (s := ']' :: s) hps hqs
        (c := '}') (by decide) true (by simpa [render] using h)
      exact ⟨hforms, (List.cons.inj hrest).2⟩
  | tuple members => cases named <;> simp [render] at h
  | key | index | tag => simp [isBracketed] at hb

theorem shows_tuple {members : Path} (hmembers : ∀ a ∈ members, ShowsSegment a) :
    ShowsSegment (.tuple members) := by
  intro b hfree r s _ _ h
  have hb : b.isBracketed = true := (isBracketed_eq_of_append h).symm
  cases b with
  | slice b =>
    exact absurd (by simpa [render] using h.symm)
      (render_slice_append_ne (a := b) (c := '(') (by decide) (']' :: s) _)
  | predicate t => simp [render] at h
  | union qs other => cases other <;> simp [render] at h
  | tuple others =>
    obtain ⟨hforms, hrest⟩ := renderMembers_append_inj (r := ']' :: r) (s := ']' :: s) hmembers
      hfree (by simpa [render] using h)
    exact ⟨by rw [folded, folded, hforms], (List.cons.inj hrest).2⟩
  | key | index | tag => simp [isBracketed] at hb

end Segment

/-- An object has a mark in front; another value starts with neither that mark nor the one of
queries. -/
theorem Json.renderExpected_cases {v : Json} (hv : v.FloatFree) :
    v.renderExpected = '=' :: v.render ∨
      (v.renderExpected = v.render ∧ ∃ c rest, v.render = c :: rest ∧ c ≠ '=' ∧ c ≠ '?') := by
  by_cases hobj : ∃ fields, v = .obj fields
  · obtain ⟨fields, rfl⟩ := hobj
    exact .inl rfl
  · have hne : ∀ fields, v ≠ .obj fields := fun fields hv => hobj ⟨fields, hv⟩
    obtain ⟨c, rest, hc, hmarks⟩ := Json.starts_render hv hne
    refine .inr ⟨?_, c, rest, hc, ?_, ?_⟩
    · unfold Json.renderExpected
      split
      · next fields => exact absurd rfl (hne fields)
      · rfl
    · rintro rfl
      exact hmarks (by simp)
    · rintro rfl
      exact hmarks (by simp)

theorem Json.renderExpected_append_ne {v : Json} (hv : v.FloatFree) (r s : List Char) :
    v.renderExpected ++ r ≠ '?' :: s := by
  rcases renderExpected_cases hv with hrender | ⟨hrender, c, rest, hc, -, hquery⟩ <;> rw [hrender]
  · simp
  · rw [hc]
    intro h
    exact hquery (List.cons.inj h).1

namespace Expected

abbrev ShowsExpected : Expected → Prop :=
  Shows Expected.FloatFree EndsItem Expected.render Expected.folded

theorem shows_value {v : Json} (hv : v.FloatFree) : ShowsExpected (.value v) := by
  intro f hf r s hr hs h
  cases f with
  | query t => exact absurd (by simpa [render] using h) (Json.renderExpected_append_ne hv r _)
  | value w =>
    have hw : w.FloatFree := hf
    have htext : v.render ++ r = w.render ++ s := by
      simp only [render] at h
      rcases Json.renderExpected_cases hv with hrv | ⟨hrv, c, _, hc, hcmark, -⟩ <;>
        rcases Json.renderExpected_cases hw with hrw | ⟨hrw, d, _, hd, hdmark, -⟩ <;>
        rw [hrv, hrw] at h
      · exact (List.cons.inj h).2
      · rw [hd] at h
        exact absurd (List.cons.inj h).1.symm hdmark
      · rw [hc] at h
        exact absurd (List.cons.inj h).1 hcmark
      · exact h
    obtain ⟨hvalue, hrest⟩ := Json.shows_render v hv w hw r s hr hs htext
    exact ⟨congrArg Expected.value hvalue, hrest⟩

theorem shows_query {q : Query}
    (hq : ∀ entry ∈ q, ShowsPath entry.1 ∧ ShowsExpected entry.2) : ShowsExpected (.query q) := by
  intro f hf r s _ _ h
  cases f with
  | value w =>
    have hw : w.FloatFree := hf
    exact absurd (by simpa [render] using h.symm) (Json.renderExpected_append_ne hw s _)
  | query t =>
    obtain ⟨hforms, hrest⟩ := renderEntries_append_inj hq hf (by simpa [render] using h)
    exact ⟨by rw [folded, folded, hforms], hrest⟩

end Expected

mutual

theorem Segment.shows (s : Segment) (hs : s.FloatFree) : ShowsSegment s := by
  match s with
  | .key _ | .index _ | .tag _ => exact Segment.shows_word rfl
  | .slice a => exact Segment.shows_slice a
  | .predicate q => exact Segment.shows_predicate (shows_entries q hs)
  | .union ps named => exact Segment.shows_union (shows_alternatives ps hs) named
  | .tuple members => exact Segment.shows_tuple (shows_members members hs)

theorem shows_members (p : List Segment) (hp : PathFloatFree p) : ∀ s ∈ p, ShowsSegment s := by
  match p with
  | [] => simp
  | s :: rest => exact List.forall_mem_cons.mpr ⟨s.shows hp.1, shows_members rest hp.2⟩

theorem shows_alternatives (ps : List (List Segment)) (hps : AlternativesFloatFree ps) :
    ∀ p ∈ ps, ShowsPath p := by
  match ps with
  | [] => simp
  | p :: rest =>
    exact List.forall_mem_cons.mpr
      ⟨shows_path (shows_members p hps.1), shows_alternatives rest hps.2⟩

theorem shows_entries (q : List (List Segment × Expected)) (hq : QueryFloatFree q) :
    ∀ entry ∈ q, ShowsPath entry.1 ∧
      Shows Expected.FloatFree EndsItem Expected.render Expected.folded entry.2 := by
  match q with
  | [] => simp
  | (p, e) :: rest =>
    exact List.forall_mem_cons.mpr
      ⟨⟨shows_path (shows_members p hq.1), e.shows hq.2.1⟩, shows_entries rest hq.2.2⟩

theorem Expected.shows (e : Expected) (he : e.FloatFree) :
    Shows Expected.FloatFree EndsItem Expected.render Expected.folded e := by
  match e with
  | .value v => exact Expected.shows_value he
  | .query q => exact Expected.shows_query (shows_entries q he)

end

end Segments

/-- Paths without doubles have one text exactly when they are one path up to lists of alternatives
that have no text; where such lists are not, one path is behind one text. -/
theorem Path.toText_eq_iff {p q : Path} (hp : PathFloatFree p) (hq : PathFloatFree q) :
    (p.toText = q.toText ↔ foldedPath p = foldedPath q) ∧
      (foldedPath p = p → foldedPath q = q → p.toText = q.toText → p = q) := by
  have hiff : p.toText = q.toText ↔ foldedPath p = foldedPath q := by
    constructor
    · intro htext
      have hchars : renderPath p = renderPath q := String.ofList_injective htext
      have hends : EndsItem [] := by simp [EndsItem]
      exact (shows_path (shows_members p hp) q hq [] [] hends hends (by rw [hchars])).1
    · intro hforms
      have hp := renderPath_folded (renderMembers_folded p)
      have hq := renderPath_folded (renderMembers_folded q)
      rw [Path.toText, Path.toText, ← hp, ← hq, hforms]
  refine ⟨hiff, fun hpf hqf htext => ?_⟩
  rw [← hpf, ← hqf]
  exact hiff.mp htext

theorem Path.toText_eq_iff_blank :
    (PathFloatFree [.key "a", .union [[]] true] ∧ PathFloatFree [.key "a", .predicate []]) ∧
      Path.toText [.key "a", .union [[]] true] = Path.toText [.key "a", .predicate []] := by
  have hp : PathFloatFree [.key "a", .union [[]] true] :=
    ⟨trivial, ⟨trivial, trivial⟩, trivial⟩
  have hq : PathFloatFree [.key "a", .predicate []] := ⟨trivial, trivial, trivial⟩
  exact ⟨⟨hp, hq⟩, (Path.toText_eq_iff hp hq).1.mpr rfl⟩

/-- A named union without alternatives has the text of the query without entries. -/
theorem Path.toText_union_eq_toText_predicate :
    Path.toText [.union [] true] = Path.toText [.predicate []] ∧
      ([.union [] true] : Path) ≠ [.predicate []] :=
  ⟨rfl, by simp⟩

end TreePath

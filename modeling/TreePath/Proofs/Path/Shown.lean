import TreePath.Proofs.Path.RoundTrip

namespace TreePath

open Text Decimal

/-- What may follow a path, a value or an item of a list: the end of the text or a mark of what
stands around it. -/
def EndsItem (rest : List Char) : Prop := ∀ c ∈ rest.head?, c ∈ [',', ':', ')', ']', '}']

/-- The characters of texts that stand without quotes and brackets. -/
def IsWordChar (c : Char) : Prop := IsTokenChar c ∨ c = '.'

instance : DecidablePred IsWordChar := fun _ => inferInstanceAs (Decidable (_ ∨ _))

/-- What may follow a word: anything that does not make it longer. -/
def EndsWord (rest : List Char) : Prop := ∀ c ∈ rest.head?, ¬IsWordChar c

theorem EndsItem.cons {c : Char} (h : c ∈ [',', ':', ')', ']', '}']) (rest : List Char) :
    EndsItem (c :: rest) := by
  intro d hd
  simp only [List.head?_cons, Option.mem_some_iff] at hd
  exact hd ▸ h

theorem EndsWord.cons {c : Char} (h : ¬IsWordChar c) (rest : List Char) : EndsWord (c :: rest) := by
  intro d hd
  simp only [List.head?_cons, Option.mem_some_iff] at hd
  exact hd ▸ h

theorem EndsItem.endsWord {rest : List Char} (h : EndsItem rest) : EndsWord rest := by
  have hall : ∀ d ∈ [',', ':', ')', ']', '}'], ¬IsWordChar d := forall_mem_of_all (by decide)
  exact fun c hc => hall c (h c hc)

/-- Two texts of one kind of characters end together where other characters follow. -/
theorem append_inj_of_stops {P : Char → Prop} [DecidablePred P] {a b r s : List Char}
    (ha : ∀ c ∈ a, P c) (hb : ∀ c ∈ b, P c) (hr : ∀ c ∈ r.head?, ¬P c) (hs : ∀ c ∈ s.head?, ¬P c)
    (h : a ++ r = b ++ s) : a = b ∧ r = s := by
  have hstop : ∀ {w t : List Char}, (∀ c ∈ w, P c) → (∀ c ∈ t.head?, ¬P c) →
      (w ++ t).takeWhile (fun c => decide (P c)) = w := by
    intro w t hw ht
    rw [List.takeWhile_append_of_pos (by simpa using hw)]
    cases t with
    | nil => simp
    | cons c t => rw [List.takeWhile_cons_of_neg (by simpa using ht c rfl), List.append_nil]
  have hwords : a = b := by rw [← hstop ha hr, h, hstop hb hs]
  subst hwords
  exact ⟨rfl, List.append_cancel_left h⟩

variable {α β : Type}

/-- The text of `a` shows its form: whatever else has that text at the head of another one has that
form, and leaves the same rest. -/
def Shows (ok : α → Prop) (ends : List Char → Prop) (text : α → List Char) (form : α → β) (a : α) :
    Prop :=
  ∀ b, ok b → ∀ r s, ends r → ends s → text a ++ r = text b ++ s → form a = form b ∧ r = s

/-- A list shows the forms of its items, if these show theirs and commas are between them. -/
theorem Shows.separated {ok : α → Prop} {text : α → List Char} {form : α → β} (gap : List Char)
    (joined : List α → List Char) (hone : ∀ a, joined [a] = text a)
    (hmore : ∀ a b rest, joined (a :: b :: rest) = text a ++ (',' :: gap ++ joined (b :: rest)))
    {a b : α} {as bs : List α} (ha : ∀ x ∈ a :: as, Shows ok EndsItem text form x)
    (hb : ∀ y ∈ b :: bs, ok y) {r s : List Char} (hr : EndsItem r) (hs : EndsItem s)
    (hrc : r.head? ≠ some ',') (hsc : s.head? ≠ some ',')
    (h : joined (a :: as) ++ r = joined (b :: bs) ++ s) :
    (a :: as).map form = (b :: bs).map form ∧ r = s := by
  induction as generalizing a b bs with
  | nil =>
    cases bs with
    | nil =>
      rw [hone, hone] at h
      obtain ⟨hform, hrest⟩ := ha a (by simp) b (hb b (by simp)) r s hr hs h
      exact ⟨by simp [hform], hrest⟩
    | cons b' bs =>
      rw [hone, hmore, List.append_assoc] at h
      obtain ⟨-, hrest⟩ := ha a (by simp) b (hb b (by simp)) r _ hr (.cons (by decide) _) h
      exact absurd (by rw [hrest]; rfl) hrc
  | cons a' as ih =>
    cases bs with
    | nil =>
      rw [hone, hmore, List.append_assoc] at h
      obtain ⟨-, hrest⟩ := ha a (by simp) b (hb b (by simp)) _ s (.cons (by decide) _) hs h
      exact absurd (by rw [← hrest]; rfl) hsc
    | cons b' bs =>
      simp only [hmore, List.append_assoc, List.cons_append] at h
      obtain ⟨hform, hrest⟩ := ha a (by simp) b (hb b (by simp)) _ _ (.cons (by decide) _)
        (.cons (by decide) _) h
      have htail : joined (a' :: as) ++ r = joined (b' :: bs) ++ s := by simpa using hrest
      obtain ⟨hforms, hrest⟩ := ih (fun x hx => ha x (List.mem_cons_of_mem _ hx))
        (fun y hy => hb y (List.mem_cons_of_mem _ hy)) htail
      exact ⟨by rw [List.map_cons, hform, hforms, ← List.map_cons], hrest⟩

theorem intText_append_inj {m n : Int} {r s : List Char} (hr : EndsWord r) (hs : EndsWord s)
    (h : intText m ++ r = intText n ++ s) : m = n ∧ r = s := by
  have hword : ∀ n : Int, ∀ c ∈ intText n, IsWordChar c := fun n c hc =>
    .inl (isTokenChar_of_isNumeral (isNumeral_of_mem_intText hc))
  obtain ⟨htext, hrest⟩ := append_inj_of_stops (hword m) (hword n) hr hs h
  exact ⟨by rw [← integerOf_intText m, htext, integerOf_intText], hrest⟩

namespace Json

/-- The text of one field. -/
def fieldText (field : String × Json) : List Char :=
  renderString field.1 ++ ':' :: field.2.render

theorem renderString_append_inj {a b : String} {r s : List Char}
    (h : renderString a ++ r = renderString b ++ s) : a = b ∧ r = s := by
  have hread := congrArg readString h
  rw [readString_render, readString_render] at hread
  simpa using hread

/-- The first character of the text, where any character of a number stands for all of them. -/
def mark : Json → Char
  | .null => 'n'
  | .bool b => if b then 't' else 'f'
  | .num _ => '0'
  | .str _ => '"'
  | .arr _ => '['
  | .obj _ => '{'

theorem exists_mark {v : Json} (hv : v.FloatFree) :
    ∃ c rest, v.render = c :: rest ∧ (if isNumeral c then '0' else c) = v.mark := by
  cases v with
  | num n =>
    cases n with
    | int n =>
      obtain ⟨c, rest, hc⟩ := List.exists_cons_of_ne_nil (intText_ne_nil n.value)
      have hnum : isNumeral c = true := isNumeral_of_mem_intText (n := n.value) (by simp [hc])
      exact ⟨c, rest, hc, by simp [hnum, mark]⟩
    | double d => exact absurd hv id
  | bool b => cases b <;> exact ⟨_, _, rfl, rfl⟩
  | null | str | arr | obj => exact ⟨_, _, rfl, rfl⟩

theorem mark_eq {v w : Json} (hv : v.FloatFree) (hw : w.FloatFree) {r s : List Char}
    (h : v.render ++ r = w.render ++ s) : v.mark = w.mark := by
  obtain ⟨c, _, hc, hv⟩ := exists_mark hv
  obtain ⟨d, _, hd, hw⟩ := exists_mark hw
  rw [hc, hd, List.cons_append, List.cons_append] at h
  rw [← hv, ← hw, (List.cons.inj h).1]

theorem renderItems_ne_closer {v : Json} (hv : v.FloatFree) (items : List Json)
    (r s : List Char) : renderItems (v :: items) ++ r ≠ ']' :: s := by
  obtain ⟨c, rest, hc, -, hclose, -⟩ := (opens_renderItems hv items).head
  rw [hc]
  intro h
  exact hclose (List.cons.inj h).1

theorem renderFields_ne_closer (field : String × Json) (fields : List (String × Json))
    (r s : List Char) : renderFields (field :: fields) ++ r ≠ '}' :: s := by
  obtain ⟨tail, htail⟩ := renderFields_cons field.1 field.2 fields
  rw [htail]
  simp

theorem floatFree_of_mem_fields : ∀ {fields : List (String × Json)}, FloatFreeFields fields →
    ∀ field ∈ fields, field.2.FloatFree
  | [], _, _, h => absurd h (by simp)
  | (_, _) :: _, hf, field, h => by
    rcases List.mem_cons.mp h with rfl | h
    · exact hf.1
    · exact floatFree_of_mem_fields hf.2 field h

theorem renderItems_append_inj {as bs : List Json} (has : FloatFreeItems as)
    (hbs : FloatFreeItems bs) (hshows : ∀ v ∈ as, Shows FloatFree EndsItem render id v) {r s : List Char}
    (h : renderItems as ++ ']' :: r = renderItems bs ++ ']' :: s) : as = bs ∧ r = s := by
  match as, bs with
  | [], [] => exact ⟨rfl, by simpa [renderItems] using h⟩
  | [], b :: bs => exact absurd h.symm (renderItems_ne_closer hbs.1 bs _ _)
  | a :: as, [] => exact absurd h (renderItems_ne_closer has.1 as _ _)
  | a :: as, b :: bs =>
    have hitems := Shows.separated [] renderItems (fun _ => rfl)
      (by simp [renderItems]) hshows (floatFree_of_mem hbs)
      (.cons (by decide) r) (.cons (by decide) s) (by simp) (by simp) h
    simpa using hitems

theorem renderFields_append_inj {as bs : List (String × Json)} (hbs : FloatFreeFields bs)
    (hshows : ∀ field ∈ as, Shows (fun field => field.2.FloatFree) EndsItem fieldText id field)
    {r s : List Char}
    (h : renderFields as ++ '}' :: r = renderFields bs ++ '}' :: s) : as = bs ∧ r = s := by
  match as, bs with
  | [], [] => exact ⟨rfl, by simpa [renderFields] using h⟩
  | [], b :: bs => exact absurd h.symm (renderFields_ne_closer b bs _ _)
  | a :: as, [] => exact absurd h (renderFields_ne_closer a as _ _)
  | a :: as, b :: bs =>
    have hfields := Shows.separated [] renderFields (fun _ => rfl)
      (by simp [renderFields]) hshows (floatFree_of_mem_fields hbs)
      (.cons (by decide) r) (.cons (by decide) s) (by simp) (by simp) h
    simpa using hfields

mutual

theorem shows_render (v : Json) (hv : v.FloatFree) : Shows FloatFree EndsItem render id v := by
  intro w hw r s hr hs h
  have hmark := mark_eq hv hw h
  match v with
  | .null =>
    obtain rfl : w = .null := by cases w <;> grind [mark]
    exact ⟨rfl, by simpa [render] using h⟩
  | .bool a =>
    obtain rfl : w = .bool a := by cases w <;> grind [mark]
    exact ⟨rfl, List.append_cancel_left h⟩
  | .num (.int m) =>
    obtain ⟨n, rfl⟩ : ∃ n, w = .num n := by cases w <;> grind [mark]
    cases n with
    | double n => exact absurd hw id
    | int n =>
      obtain ⟨hvalue, hrest⟩ := intText_append_inj hr.endsWord hs.endsWord h
      obtain rfl : m = n := by cases m; cases n; simpa using hvalue
      exact ⟨rfl, hrest⟩
  | .str a =>
    obtain ⟨b, rfl⟩ : ∃ b, w = .str b := by cases w <;> grind [mark]
    obtain ⟨rfl, hrest⟩ := renderString_append_inj h
    exact ⟨rfl, hrest⟩
  | .arr as =>
    obtain ⟨bs, rfl⟩ : ∃ bs, w = .arr bs := by cases w <;> grind [mark]
    simp only [render, List.cons_append, List.append_assoc, List.cons.injEq, true_and] at h
    obtain ⟨rfl, hrest⟩ := renderItems_append_inj hv hw (shows_items as hv) h
    exact ⟨rfl, hrest⟩
  | .obj as =>
    obtain ⟨bs, rfl⟩ : ∃ bs, w = .obj bs := by cases w <;> grind [mark]
    simp only [render, List.cons_append, List.append_assoc, List.cons.injEq, true_and] at h
    obtain ⟨rfl, hrest⟩ := renderFields_append_inj hw (shows_fields as hv) h
    exact ⟨rfl, hrest⟩

theorem shows_items (as : List Json) (has : FloatFreeItems as) :
    ∀ v ∈ as, Shows FloatFree EndsItem render id v := by
  match as with
  | [] => simp
  | a :: as => exact List.forall_mem_cons.mpr ⟨shows_render a has.1, shows_items as has.2⟩

theorem shows_fields (as : List (String × Json)) (has : FloatFreeFields as) :
    ∀ field ∈ as, Shows (fun field => field.2.FloatFree) EndsItem fieldText id field := by
  match as with
  | [] => simp
  | (name, v) :: as =>
    refine List.forall_mem_cons.mpr ⟨?_, shows_fields as has.2⟩
    intro other hother r s hr hs h
    obtain ⟨hname, htail⟩ := renderString_append_inj (by simpa [fieldText] using h)
    obtain ⟨hvalue, hrest⟩ := shows_render v has.1 other.2 hother r s hr hs (by simpa using htail)
    exact ⟨Prod.ext hname hvalue, hrest⟩

end

end Json

section Words

theorem Key.quote_append_inj {a b r s : List Char} (h : quote a ++ r = quote b ++ s) :
    a = b ∧ r = s := by
  have ha := read_quote 0 a r
  rw [h, read_quote 0 b s] at ha
  simp only [Except.ok.injEq, Prod.mk.injEq, Span.mk.injEq] at ha
  exact ⟨ha.1.symm, ha.2.2.symm⟩

namespace Segment

/-- Outside of brackets a segment is a quoted key or a word. -/
theorem render_cases {s : Segment} (h : s.isBracketed = false) :
    (∃ name, s = .key name ∧ s.render = Key.quote name.toList) ∨
      (s.render ≠ [] ∧ ∀ c ∈ s.render, IsWordChar c) := by
  cases s with
  | key name =>
    cases hq : Key.needsQuotes name.toList with
    | true => exact .inl ⟨name, rfl, by simp [render, Key.render, hq]⟩
    | false =>
      obtain ⟨hne, -, hbare⟩ := needsQuotes_eq_false hq
      have hrender : (Segment.key name).render = name.toList := by simp [render, Key.render, hq]
      rw [hrender]
      exact .inr ⟨hne, fun c hc => .inl (isTokenChar_of_isBareChar (hbare c hc))⟩
  | index i =>
    exact .inr ⟨intText_ne_nil _,
      fun c hc => .inl (isTokenChar_of_isNumeral (isNumeral_of_mem_intText hc))⟩
  | tag t => cases t <;> exact .inr ⟨by decide, forall_mem_of_all (by decide)⟩
  | slice | predicate | union | tuple => simp [isBracketed] at h

theorem reads_inj {a b : Segment} {span : Span} {rest : List Char} (ha : span.Reads a rest)
    (hb : span.Reads b rest) : a = b := by
  obtain ⟨h, hhop, rfl, -⟩ := ha
  obtain ⟨h', hhop', rfl, -⟩ := hb
  rw [hhop] at hhop'
  rw [Except.ok.inj hhop']

theorem render_inj {a b : Segment} (ha : a.isBracketed = false) (hb : b.isBracketed = false)
    (h : a.render = b.render) : a = b := by
  have hreads := Span.reads_render ha (s := ⟨0, a.render⟩) (.inl rfl) (by simp)
  exact reads_inj hreads (Span.reads_render hb (.inl rfl) (by simp [h]))

theorem word_append_inj {a b : Segment} (ha : a.isBracketed = false) (hb : b.isBracketed = false)
    {r s : List Char} (hr : EndsWord r) (hs : EndsWord s) (h : a.render ++ r = b.render ++ s) :
    a = b ∧ r = s := by
  have hquote : ¬IsWordChar '\'' := by decide
  have hmixed {key : List Char} {c : Segment} {t u : List Char} (hne : c.render ≠ [])
      (hword : ∀ d ∈ c.render, IsWordChar d) : Key.quote key ++ t ≠ c.render ++ u := by
    obtain ⟨d, ds, hd⟩ := List.exists_cons_of_ne_nil hne
    intro h
    rw [hd] at h
    have hd' : '\'' = d := (List.cons.inj h).1
    exact hquote (hd' ▸ hword d (by simp [hd]))
  rcases render_cases ha with ⟨m, rfl, hm⟩ | ⟨hane, haword⟩ <;>
    rcases render_cases hb with ⟨n, rfl, hn⟩ | ⟨hbne, hbword⟩
  · rw [hm, hn] at h
    obtain ⟨hname, hrest⟩ := Key.quote_append_inj h
    exact ⟨by rw [String.toList_inj.mp hname], hrest⟩
  · rw [hm] at h
    exact absurd h (hmixed hbne hbword)
  · rw [hn] at h
    exact absurd h.symm (hmixed hane haword)
  · obtain ⟨htext, hrest⟩ := append_inj_of_stops haword hbword hr hs h
    exact ⟨render_inj ha hb htext, hrest⟩

/-- How the text of a segment starts: with a bracket if it is in brackets, and otherwise with
neither a bracket nor a mark of what is around a path or between its hops. -/
theorem exists_head (s : Segment) : ∃ c rest, s.render = c :: rest ∧
    c ∉ ['/', ',', ':', ')', ']', '}'] ∧ (c = '[' ↔ s.isBracketed = true) := by
  cases h : s.isBracketed with
  | true => exact ⟨'[', _, render_bracketed h, by decide, by simp⟩
  | false =>
    rcases render_cases h with ⟨name, -, hrender⟩ | ⟨hne, hword⟩
    · exact ⟨'\'', _, hrender, by decide, by simp⟩
    · obtain ⟨c, rest, hc⟩ := List.exists_cons_of_ne_nil hne
      have hall : ∀ d ∈ ['/', ',', ':', ')', ']', '}', '['], ¬IsWordChar d :=
        forall_mem_of_all (by decide)
      have hmem : c ∉ ['/', ',', ':', ')', ']', '}', '['] := fun hmem =>
        hall c hmem (hword c (by simp [hc]))
      simp only [List.mem_cons, List.not_mem_nil, not_or] at hmem
      exact ⟨c, rest, hc, by simp [hmem], by simp [hmem]⟩

theorem isBracketed_eq_of_append {a b : Segment} {r s : List Char}
    (h : a.render ++ r = b.render ++ s) : a.isBracketed = b.isBracketed := by
  obtain ⟨c, _, hc, -, ha⟩ := a.exists_head
  obtain ⟨d, _, hd, -, hb⟩ := b.exists_head
  rw [hc, hd, List.cons_append, List.cons_append] at h
  rw [Bool.eq_iff_iff, ← ha, ← hb, (List.cons.inj h).1]

theorem render_append_ne_endsItem {s : Segment} {r t : List Char} (ht : EndsItem t) :
    s.render ++ r ≠ t := by
  obtain ⟨c, rest, hc, hnot, -⟩ := s.exists_head
  rintro rfl
  rw [hc] at ht
  have hmem := ht c rfl
  simp only [List.mem_cons, List.not_mem_nil, not_or] at hnot hmem
  grind

end Segment

end Words

theorem queryKey_eq_text {p : Path} (hp : p ≠ []) (hcurrent : p ≠ [.tag .current])
    (text : List Char) : queryKey p text = text := by
  unfold queryKey
  split
  · exact absurd rfl hp
  · exact absurd rfl hcurrent
  · rfl

end TreePath

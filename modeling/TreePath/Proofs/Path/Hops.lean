import TreePath.Path.Printer
import TreePath.Path.Token
import TreePath.Proofs.Path.Edges
import TreePath.Proofs.Path.Quoting
import TreePath.Proofs.Text.Digits

namespace TreePath

open Text Decimal

/-- Characters that separate nothing: neither a comma nor a colon. -/
def IsInner (c : Char) : Prop := c ≠ ',' ∧ c ≠ ':'

/-- Characters that mean something to the scanner, other than letters and the signs of tags. -/
def specials : List Char :=
  ['/', '.', '[', ']', '{', '}', '(', ')', ',', ':', '\'', '"', '\\', '@', '?', '=']

/-- The characters of bare tokens. -/
def IsTokenChar (c : Char) : Prop := c ∉ specials ∧ isBlank c = false

theorem IsTokenChar.ordinary {c : Char} (h : IsTokenChar c) :
    Nesting.isOrdinary c = true ∧ IsInner c := by
  have hne := h.1
  simp only [specials, List.mem_cons, List.not_mem_nil, not_or] at hne
  simp [Nesting.isOrdinary, Nesting.isQuote, Nesting.isOpener, Nesting.isCloser, IsInner, hne]

theorem IsTokenChar.inside {c : Char} (h : IsTokenChar c) :
    Token.isEnd c = false ∧ Token.isReserved c = false := by
  have hne := h.1
  simp only [specials, List.mem_cons, List.not_mem_nil, not_or] at hne
  simp [Token.isEnd, Token.isReserved, hne, h.2]

theorem isTokenChar_of_isBareChar {c : Char} (h : Key.isBareChar c = true) : IsTokenChar c := by
  refine ⟨fun hmem => ?_, ?_⟩
  · have hall : ∀ d ∈ specials, Key.isBareChar d = false := forall_mem_of_all (by decide)
    simp [hall c hmem] at h
  · cases hb : isBlank c with
    | false => rfl
    | true =>
      have hother : ∀ d ∈ ['_', '-', '#', '~', '+'], isBlank d = false :=
        forall_mem_of_all (by decide)
      simp only [Key.isBareChar, isAlphanumeric_of_isBlank hb, Bool.false_or, Bool.or_eq_true,
        decide_eq_true_eq] at h
      rw [← hb]
      exact hother c (by simpa [or_assoc] using h)

theorem isBareChar_of_isDigit {c : Char} (h : c.isDigit = true) : Key.isBareChar c = true := by
  have hlow : c.toNat < 0x80 := by
    simp only [Char.isDigit, Bool.and_eq_true, decide_eq_true_eq] at h
    have := UInt32.le_iff_toNat_le.mp h.2
    simp only [Char.toNat] at this ⊢
    exact Nat.lt_of_le_of_lt this (by decide)
  simp [Key.isBareChar, isAlphanumeric, hlow, Char.isAlphanum, h]

theorem isTokenChar_of_isNumeral {c : Char} (h : isNumeral c = true) : IsTokenChar c := by
  simp only [isNumeral, Bool.or_eq_true, beq_iff_eq] at h
  rcases h with h | rfl
  · exact isTokenChar_of_isBareChar (isBareChar_of_isDigit h)
  · exact isTokenChar_of_isBareChar (by decide)

instance : DecidablePred IsTokenChar := fun _ => inferInstanceAs (Decidable (_ ∧ _))

/-- A balanced text without blanks at its ends in which no comma and no colon stands bare. -/
structure Solid (text : List Char) : Prop where
  edged : Edged text
  balanced : Balanced IsInner text

namespace Solid

theorem append {a b : List Char} (ha : Solid a) (hb : Solid b) : Solid (a ++ b) :=
  ⟨ha.edged.append hb.edged, ha.balanced.append hb.balanced⟩

theorem ofTokenChars {text : List Char} (hne : text ≠ []) (h : ∀ c ∈ text, IsTokenChar c) :
    Solid text :=
  ⟨.ofVisible hne fun c hc => (h c hc).2, .ofOrdinary fun c hc => (h c hc).ordinary⟩

/-- Balanced text in brackets, where commas and colons may stand bare. -/
theorem bracketed {opener closer : Char} {inside : List Char}
    (hopener : Nesting.isOpener opener = true) (hcloser : Nesting.counterpart opener = closer)
    (h : Balanced (fun _ => True) inside) : Solid (opener :: (inside ++ [closer])) := by
  refine ⟨.enclosed ?_ ?_ inside, .bracketed hopener hcloser h⟩
  · simp only [Nesting.isOpener, Bool.or_eq_true, decide_eq_true_eq] at hopener
    rcases hopener with (rfl | rfl) | rfl <;> decide
  · subst hcloser
    simp only [Nesting.isOpener, Bool.or_eq_true, decide_eq_true_eq] at hopener
    rcases hopener with (rfl | rfl) | rfl <;> decide

end Solid

/-- What may follow a hop in a rendered path. -/
def EndsHop (rest : List Char) : Prop :=
  rest = [] ∨ (∃ more, rest = '/' :: more) ∨ ∃ more, rest = '[' :: more

namespace Token

theorem take_eq (text : List Char) {rest : List Char} (htext : ∀ c ∈ text, IsTokenChar c)
    (hrest : EndsHop rest)
    (i : Nat) : take i (text ++ rest) = .ok (text, ⟨i + text.length, rest⟩) := by
  induction text generalizing i with
  | nil =>
    rcases hrest with rfl | ⟨more, rfl⟩ | ⟨more, rfl⟩
    · rfl
    · simp [take, isEnd]
    · simp [take, isEnd]
  | cons c text ih =>
    obtain ⟨hend, hreserved⟩ := (htext c (by simp)).inside
    rw [List.cons_append, take]
    simp only [hend, hreserved, Bool.false_eq_true, if_false]
    rw [ih (fun d hd => htext d (List.mem_cons_of_mem _ hd))]
    simp [Except.map]
    omega

end Token

namespace Span

/-- The hop at the head of a span is `segment`, and `rest` is left. -/
def Reads (s : Span) (segment : Segment) (rest : List Char) : Prop :=
  ∃ h : Hop s, s.hop = .ok h ∧ h.segment = segment ∧ h.rest.chars = rest

theorem token_eq {s : Span} {text rest : List Char} {segment : Segment} (hne : text ≠ [])
    (htext : ∀ c ∈ text, IsTokenChar c) (hrest : EndsHop rest)
    (hclass : ∀ start, Token.classify start text = .ok segment)
    (hs : s.chars = text ++ rest) : s.Reads segment rest := by
  obtain ⟨c, cs, rfl⟩ := List.exists_cons_of_ne_nil hne
  rw [List.cons_append] at hs
  have hc := htext c (by simp)
  have htake := Token.take_eq cs (fun d hd => htext d (List.mem_cons_of_mem _ hd)) hrest
    (s.start + 1)
  have htoken : ∃ h : Hop s, s.token = .ok h ∧ h.segment = segment ∧ h.rest.chars = rest := by
    unfold token
    split
    · next heq => simp [hs] at heq
    · next d ds heq =>
      rw [hs] at heq
      obtain ⟨rfl, rfl⟩ := List.cons.inj heq
      rw [if_neg (by simp [hc.inside.2])]
      split
      · next hbad => rw [htake] at hbad; simp at hbad
      · next hok =>
        rw [htake] at hok
        simp only [Except.ok.injEq, Prod.mk.injEq] at hok
        obtain ⟨htext', hafter⟩ := hok
        split
        · next hbad => rw [← htext', hclass] at hbad; simp at hbad
        · next hseg =>
          rw [← htext', hclass] at hseg
          exact ⟨_, rfl, (Except.ok.inj hseg).symm, (congrArg Span.chars hafter).symm⟩
  have hspecial := hc.1
  simp only [specials, List.mem_cons, List.not_mem_nil, not_or] at hspecial
  unfold Reads hop
  split
  · next heq => simp [hs] at heq; exact absurd heq.1 hspecial.2.2.2.2.2.2.2.2.2.2.1
  · next heq => simp [hs] at heq; exact absurd heq.1 hspecial.2.2.2.2.2.2.2.2.2.2.2.1
  · next heq => simp [hs] at heq; exact absurd heq.1 hspecial.2.1
  · exact htoken

theorem quotedKey_eq {s : Span} {key rest : List Char} (hs : s.chars = Key.quote key ++ rest) :
    s.Reads (.key (String.ofList key)) rest := by
  have hread := Key.read_quote s.start key rest
  rw [← hs] at hread
  have hhop : s.hop = s.quotedKey := by
    unfold hop
    rw [hs]
    rfl
  unfold Reads
  rw [hhop]
  unfold quotedKey
  split
  · next hbad => rw [hread] at hbad; simp at hbad
  · next hok =>
    rw [hread] at hok
    simp only [Except.ok.injEq, Prod.mk.injEq] at hok
    exact ⟨_, rfl, by rw [hok.1], (congrArg Span.chars hok.2).symm⟩

theorem dropWhile_dots (n : Nat) {rest : List Char} (hrest : EndsHop rest) :
    (List.replicate n '.' ++ rest).dropWhile (fun c => decide (c = '.')) = rest := by
  induction n with
  | zero => rcases hrest with rfl | ⟨more, rfl⟩ | ⟨more, rfl⟩ <;> rfl
  | succ n ih =>
    rw [List.replicate_succ, List.cons_append, List.dropWhile_cons_of_pos (by decide), ih]

/-- A run of dots, which ends where a hop ends. -/
theorem dots_eq {s : Span} {n : Nat} {t : Tag} {rest : List Char}
    (ht : Token.dots? (n + 1) = some t) (hrest : EndsHop rest)
    (hs : s.chars = List.replicate (n + 1) '.' ++ rest) : s.Reads (.tag t) rest := by
  rw [List.replicate_succ, List.cons_append] at hs
  have hhop : s.hop = s.dots := by
    unfold hop
    rw [hs]
    rfl
  have hends : Token.endsDots rest = true := by
    rcases hrest with rfl | ⟨more, rfl⟩ | ⟨more, rfl⟩ <;> rfl
  unfold Reads
  rw [hhop]
  unfold dots
  split
  · next heq => simp [hs] at heq
  · next d ds heq =>
    rw [hs] at heq
    obtain ⟨rfl, rfl⟩ := List.cons.inj heq
    have hafter := dropWhile_dots n hrest
    have hlength : s.length - ((⟨s.start + 1, List.replicate n '.' ++ rest⟩ : Span).dropWhile
        fun c => decide (c = '.')).length = n + 1 := by
      change s.chars.length - ((List.replicate n '.' ++ rest).dropWhile _).length = n + 1
      rw [hafter, hs]
      simp
      omega
    simp only [hlength, ht]
    split
    · exact ⟨_, rfl, rfl, hafter⟩
    · next hbad =>
      refine absurd ?_ hbad
      change Token.endsDots ((List.replicate n '.' ++ rest).dropWhile _) = true
      rw [hafter]
      exact hends

end Span

theorem Token.classify_index (start : Nat) (i : Int64) :
    Token.classify start (intText i.toInt) = .ok (.index i) := by
  simp [Token.classify, isInteger_intText, positionOf?_intText]

theorem Token.classify_tag (start : Nat) (t : Tag) :
    Token.classify start ('$' :: t.name.toList) = .ok (.tag t) := by
  have hint : Key.isInteger ('$' :: t.name.toList) = false := by
    rw [isInteger_digits (by decide), List.all_cons]
    rfl
  simp [Token.classify, hint, Tag.ofName?_name]

theorem Token.classify_key (start : Nat) {text : List Char} (hint : Key.isInteger text = false)
    (h : ∀ c ∈ text, Key.isBareChar c = true) :
    Token.classify start text = .ok (.key (String.ofList text)) := by
  have hstar : '*' ∉ text := fun hmem => absurd (h _ hmem) (by decide)
  have hsign : '$' ∉ text := fun hmem => absurd (h _ hmem) (by decide)
  unfold Token.classify
  rw [hint]
  split
  · next heq => exact absurd heq (by decide)
  · split
    · next => simp at hstar
    · next => simp at hstar
    · next => simp at hsign
    · rfl

theorem isTokenChar_of_mem_name {t : Tag} : ∀ c ∈ '$' :: t.name.toList, IsTokenChar c := by
  cases t <;> exact forall_mem_of_all (by decide)

theorem needsQuotes_eq_false {key : List Char} (h : Key.needsQuotes key = false) :
    key ≠ [] ∧ Key.isInteger key = false ∧ ∀ c ∈ key, Key.isBareChar c = true := by
  simp only [Key.needsQuotes, Bool.or_eq_false_iff, Bool.not_eq_false', List.all_eq_true] at h
  exact ⟨by simpa using h.1.1, h.1.2, h.2⟩

/-- A hop that is not in brackets reads back, whatever may follow it in a path. -/
theorem Span.reads_render {segment : Segment} (hb : segment.isBracketed = false) {s : Span}
    {rest : List Char} (hrest : EndsHop rest) (hs : s.chars = segment.render ++ rest) :
    s.Reads segment rest := by
  cases segment with
  | key name =>
    rw [Segment.render, Key.render] at hs
    cases hq : Key.needsQuotes name.toList with
    | true =>
      rw [hq] at hs
      have h := Span.quotedKey_eq hs
      rwa [String.ofList_toList] at h
    | false =>
      rw [hq] at hs
      obtain ⟨hne, hint, hbare⟩ := needsQuotes_eq_false hq
      have hclass := fun start => Token.classify_key start hint hbare
      rw [String.ofList_toList] at hclass
      exact Span.token_eq hne (fun c hc => isTokenChar_of_isBareChar (hbare c hc)) hrest hclass hs
  | index i =>
    exact Span.token_eq (intText_ne_nil _)
      (fun c hc => isTokenChar_of_isNumeral (isNumeral_of_mem_intText hc)) hrest
      (fun start => Token.classify_index start i) hs
  | tag t =>
    rw [Segment.render] at hs
    cases t
    case children =>
      exact Span.token_eq (by decide) (forall_mem_of_all (by decide)) hrest (fun _ => rfl) hs
    case descendants =>
      exact Span.token_eq (by decide) (forall_mem_of_all (by decide)) hrest (fun _ => rfl) hs
    case current => exact Span.dots_eq (n := 0) rfl hrest hs
    case parent => exact Span.dots_eq (n := 1) rfl hrest hs
    case ancestors => exact Span.dots_eq (n := 2) rfl hrest hs
    all_goals
      exact Span.token_eq (by simp) isTokenChar_of_mem_name hrest
        (fun start => Token.classify_tag start _) hs
  | slice | predicate | union | tuple => simp [Segment.isBracketed] at hb

theorem solid_quote (key : List Char) : Solid (Key.quote key) :=
  ⟨.enclosed (by decide) (by decide) _, Key.balanced_quote key⟩

theorem solid_dots : ∀ n < 3, Solid (List.replicate (n + 1) '.') := by
  intro n _
  refine ⟨.ofVisible (by simp) ?_, .ofOrdinary ?_⟩
  · intro c hc
    rw [List.eq_of_mem_replicate hc]
    decide
  · intro c hc
    rw [List.eq_of_mem_replicate hc]
    exact ⟨by decide, by simp [IsInner]⟩

theorem solid_intText (n : Int) : Solid (intText n) :=
  .ofTokenChars (intText_ne_nil _) fun _ hc =>
    isTokenChar_of_isNumeral (isNumeral_of_mem_intText hc)

theorem solid_key (name : String) : Solid (Key.render name) := by
  unfold Key.render
  cases hq : Key.needsQuotes name.toList with
  | true => exact solid_quote _
  | false =>
    obtain ⟨hne, -, hbare⟩ := needsQuotes_eq_false hq
    exact .ofTokenChars hne fun c hc => isTokenChar_of_isBareChar (hbare c hc)

theorem solid_tag (t : Tag) : Solid t.render := by
  cases t
  case current => exact solid_dots 0 (by decide)
  case parent => exact solid_dots 1 (by decide)
  case ancestors => exact solid_dots 2 (by decide)
  all_goals exact .ofTokenChars (by decide) (forall_mem_of_all (by decide))

end TreePath

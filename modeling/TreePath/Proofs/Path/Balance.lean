import TreePath.Path.Nesting

namespace TreePath

/-- What can be checked of each of some characters holds of all of them. -/
theorem forall_mem_of_all {P : Char → Prop} [DecidablePred P] {cs : List Char}
    (h : cs.all (fun c => P c) = true) : ∀ c ∈ cs, P c := by
  simpa using h

/-- What may stand between two quotes: the quote itself only behind a backslash. -/
inductive Quotable (quote : Char) : List Char → Prop where
  | nil : Quotable quote []
  | plain {c : Char} {rest : List Char} (hslash : c ≠ '\\') (hquote : c ≠ quote)
      (hrest : Quotable quote rest) : Quotable quote (c :: rest)
  | escaped (c : Char) {rest : List Char} (hrest : Quotable quote rest) :
      Quotable quote ('\\' :: c :: rest)

/-- A character that neither opens nor closes anything. -/
def Nesting.isOrdinary (c : Char) : Bool :=
  !isQuote c && !isOpener c && !isCloser c

/-- Brackets match in the text once quoted texts are skipped, and the characters outside of both
satisfy `bare`. -/
inductive Balanced : (bare : Char → Prop) → List Char → Prop where
  | nil {bare : Char → Prop} : Balanced bare []
  | bare {bare : Char → Prop} {c : Char} {rest : List Char} (hc : Nesting.isOrdinary c = true)
      (hbare : bare c) (hrest : Balanced bare rest) : Balanced bare (c :: rest)
  | quoted {bare : Char → Prop} {quote : Char} {body rest : List Char}
      (hquote : Nesting.isQuote quote = true) (hbody : Quotable quote body)
      (hrest : Balanced bare rest) : Balanced bare (quote :: (body ++ quote :: rest))
  | group {bare : Char → Prop} {opener : Char} {inside rest : List Char}
      (hopener : Nesting.isOpener opener = true) (hinside : Balanced (fun _ => True) inside)
      (hrest : Balanced bare rest) :
      Balanced bare (opener :: (inside ++ Nesting.counterpart opener :: rest))

theorem Quotable.append {quote : Char} {a b : List Char} (ha : Quotable quote a)
    (hb : Quotable quote b) : Quotable quote (a ++ b) := by
  induction ha with
  | nil => exact hb
  | plain hslash hquote _ ih => exact .plain hslash hquote ih
  | escaped c _ ih => exact .escaped c ih

namespace Balanced

variable {bare : Char → Prop}

theorem append {a b : List Char} (ha : Balanced bare a) (hb : Balanced bare b) :
    Balanced bare (a ++ b) := by
  induction ha with
  | nil => exact hb
  | bare hc hbare _ ih => exact .bare hc hbare (ih hb)
  | quoted hquote hbody _ ih =>
    simp only [List.cons_append, List.append_assoc]
    exact .quoted hquote hbody (ih hb)
  | group hopener hinside _ _ ih =>
    simp only [List.cons_append, List.append_assoc]
    exact .group hopener hinside (ih hb)

theorem mono {other : Char → Prop} {a : List Char} (h : ∀ c, bare c → other c)
    (ha : Balanced bare a) : Balanced other a := by
  induction ha with
  | nil => exact .nil
  | bare hc hbare _ ih => exact .bare hc (h _ hbare) (ih h)
  | quoted hquote hbody _ ih => exact .quoted hquote hbody (ih h)
  | group hopener hinside _ _ ih => exact .group hopener hinside (ih h)

theorem any {a : List Char} (ha : Balanced bare a) : Balanced (fun _ => True) a :=
  ha.mono fun _ _ => trivial

theorem ofOrdinary {a : List Char} (h : ∀ c ∈ a, Nesting.isOrdinary c = true ∧ bare c) :
    Balanced bare a := by
  induction a with
  | nil => exact .nil
  | cons c rest ih =>
    have hc := h c (by simp)
    exact .bare hc.1 hc.2 (ih fun d hd => h d (List.mem_cons_of_mem _ hd))

/-- A quoted text alone. -/
theorem literal {quote : Char} {body : List Char} (hquote : Nesting.isQuote quote = true)
    (hbody : Quotable quote body) : Balanced bare (quote :: (body ++ [quote])) :=
  .quoted hquote hbody .nil

/-- A group alone. -/
theorem bracketed {opener closer : Char} {inside : List Char}
    (hopener : Nesting.isOpener opener = true) (hcloser : Nesting.counterpart opener = closer)
    (hinside : Balanced (fun _ => True) inside) :
    Balanced bare (opener :: (inside ++ [closer])) := by
  subst hcloser
  exact .group hopener hinside .nil

end Balanced

namespace Nesting

theorem isQuote_of_isOpener {c : Char} (h : isOpener c = true) : isQuote c = false := by
  simp only [isOpener, Bool.or_eq_true, decide_eq_true_eq] at h
  rcases h with (rfl | rfl) | rfl <;> decide

theorem counterpart_facts {c : Char} (h : isOpener c = true) :
    isQuote (counterpart c) = false ∧ isOpener (counterpart c) = false ∧
      isCloser (counterpart c) = true := by
  simp only [isOpener, Bool.or_eq_true, decide_eq_true_eq] at h
  rcases h with (rfl | rfl) | rfl <;> decide

theorem step_ordinary {openers : List Opener} {i : Nat} {c : Char} (h : isOrdinary c = true) :
    (plain openers).step i c = .ok (plain openers) := by
  simp only [isOrdinary, Bool.and_eq_true, Bool.not_eq_true'] at h
  simp [step, h.1.1, h.1.2, h.2]

theorem step_quote {openers : List Opener} {i : Nat} {c : Char} (h : isQuote c = true) :
    (plain openers).step i c = .ok (quoted openers c i false) := by
  simp [step, h]

theorem step_endQuote {openers : List Opener} {i j : Nat} {c : Char} (h : isQuote c = true) :
    (quoted openers c j false).step i c = .ok (plain openers) := by
  have hslash : c ≠ '\\' := by
    intro hsame
    obtain rfl := hsame
    exact absurd h (by decide)
  simp [step, hslash]

theorem step_opener {openers : List Opener} {i : Nat} {c : Char} (h : isOpener c = true) :
    (plain openers).step i c = .ok (plain (⟨c, i⟩ :: openers)) := by
  simp [step, h, isQuote_of_isOpener h]

theorem step_counterpart {openers : List Opener} {i j : Nat} {c : Char} (h : isOpener c = true) :
    (plain (⟨c, j⟩ :: openers)).step i (counterpart c) = .ok (plain openers) := by
  obtain ⟨hq, ho, hc⟩ := counterpart_facts h
  simp [step, hq, ho, hc]

/-- A scan that is not over goes on behind the character. -/
theorem closing_cons {n m : Nesting} {i : Nat} {c : Char} {rest : List Char}
    (hstep : n.step i c = .ok m) (hopen : m ≠ plain []) :
    n.closing i (c :: rest) = (m.closing (i + 1) rest).map fun (inside, after) =>
      (c :: inside, after) := by
  rw [closing, hstep]
  split
  · next h => simp at h
  · next h => exact absurd (Except.ok.inj h) hopen
  · next h => rw [Except.ok.inj h]

theorem split_cons {separator : Char} {n m : Nesting} {i : Nat} {c : Char} {rest : List Char}
    (hsep : ¬(n = plain [] ∧ c = separator)) (hstep : n.step i c = .ok m) :
    n.split separator i (c :: rest) = (m.split separator (i + 1) rest).map fun (head, tail) =>
      (⟨i, c :: head.chars⟩, tail) := by
  rw [split, if_neg hsep, hstep]

/-- Text in front of what a scan for the end of a group finds. -/
def ahead (text : List Char) (found : List Char × Span) : List Char × Span :=
  (text ++ found.1, found.2)

/-- Text in front of the first part of a split, which then starts at `i`. -/
def leading (i : Nat) (text : List Char) (parts : Span × List Span) : Span × List Span :=
  (⟨i, text ++ parts.1.chars⟩, parts.2)

/-- The first part of a split starts where the text does. -/
theorem start_split {separator : Char} {n : Nesting} {i : Nat} {cs : List Char} {head : Span}
    {tail : List Span} (h : n.split separator i cs = .ok (head, tail)) : head.start = i := by
  cases cs with
  | nil =>
    unfold split at h
    split at h
    · simp at h
    · simp only [Except.ok.injEq, Prod.mk.injEq] at h
      rw [← h.1]
  | cons c rest =>
    unfold split at h
    split at h
    · cases hs : split separator n (i + 1) rest with
      | error fault => simp [hs, Except.map] at h
      | ok pair =>
        simp only [hs, Except.map, Except.ok.injEq, Prod.mk.injEq] at h
        rw [← h.1]
    · split at h
      · simp at h
      · next m _ =>
        cases hs : split separator m (i + 1) rest with
        | error fault => simp [hs, Except.map] at h
        | ok pair =>
          simp only [hs, Except.map, Except.ok.injEq, Prod.mk.injEq] at h
          rw [← h.1]

theorem map_leading_nil (separator : Char) (n : Nesting) (i : Nat) (cs : List Char) :
    (n.split separator i cs).map (leading i []) = n.split separator i cs := by
  cases h : n.split separator i cs with
  | error fault => rfl
  | ok parts =>
    have hstart : parts.1.start = i := start_split h
    obtain ⟨⟨start, chars⟩, tail⟩ := parts
    change start = i at hstart
    simp [Except.map, leading, hstart]

theorem map_ahead_ahead (a b : List Char) (x : Except Fault (List Char × Span)) :
    (x.map (ahead b)).map (ahead a) = x.map (ahead (a ++ b)) := by
  cases x <;> simp [Except.map, ahead]

theorem map_leading_leading (i j : Nat) (a b : List Char) (x : Except Fault (Span × List Span)) :
    (x.map (leading j b)).map (leading i a) = x.map (leading i (a ++ b)) := by
  cases x <;> simp [Except.map, leading]

theorem closing_step {n m : Nesting} {i : Nat} {c : Char} {rest : List Char}
    (hstep : n.step i c = .ok m) (hopen : m ≠ plain []) :
    n.closing i (c :: rest) = (m.closing (i + 1) rest).map (ahead [c]) :=
  closing_cons hstep hopen

theorem split_step {separator : Char} {n m : Nesting} {i : Nat} {c : Char} {rest : List Char}
    (hsep : ¬(n = plain [] ∧ c = separator)) (hstep : n.step i c = .ok m) :
    n.split separator i (c :: rest) = (m.split separator (i + 1) rest).map (leading i [c]) :=
  split_cons hsep hstep

/-- Scanning what stands between two quotes changes nothing. -/
theorem closing_quotable {openers : List Opener} {quote : Char} {p : Nat} {body : List Char}
    (h : Quotable quote body) (i : Nat) (rest : List Char) :
    (quoted openers quote p false).closing i (body ++ rest) =
      ((quoted openers quote p false).closing (i + body.length) rest).map (ahead body) := by
  induction h generalizing i with
  | nil => cases h : closing (quoted openers quote p false) i rest <;> simp [h, Except.map, ahead]
  | @plain c body hslash hquote _ ih =>
    have hstep : (quoted openers quote p false).step i c = .ok (quoted openers quote p false) := by
      simp [step, hslash, hquote]
    rw [List.cons_append, closing_step hstep (by simp), ih, map_ahead_ahead]
    simp [Nat.add_assoc, Nat.add_comm 1]
  | @escaped c body _ ih =>
    have hslash : (quoted openers quote p false).step i '\\' =
        .ok (quoted openers quote p true) := by
      simp [step]
    have hstep : (quoted openers quote p true).step (i + 1) c =
        .ok (quoted openers quote p false) := rfl
    rw [List.cons_append, List.cons_append, closing_step hslash (by simp),
      closing_step hstep (by simp), ih, map_ahead_ahead, map_ahead_ahead]
    simp [Nat.add_assoc, Nat.add_comm 2]

theorem split_quotable {separator : Char} {openers : List Opener} {quote : Char} {p : Nat}
    {body : List Char} (h : Quotable quote body) (i : Nat) (rest : List Char) :
    (quoted openers quote p false).split separator i (body ++ rest) =
      ((quoted openers quote p false).split separator (i + body.length) rest).map
        (leading i body) := by
  induction h generalizing i with
  | nil => exact (map_leading_nil _ _ _ _).symm
  | @plain c body hslash hquote _ ih =>
    have hstep : (quoted openers quote p false).step i c = .ok (quoted openers quote p false) := by
      simp [step, hslash, hquote]
    rw [List.cons_append, split_step (by simp) hstep, ih, map_leading_leading]
    simp [Nat.add_assoc, Nat.add_comm 1]
  | @escaped c body _ ih =>
    have hslash : (quoted openers quote p false).step i '\\' =
        .ok (quoted openers quote p true) := by
      simp [step]
    have hstep : (quoted openers quote p true).step (i + 1) c =
        .ok (quoted openers quote p false) := rfl
    rw [List.cons_append, List.cons_append, split_step (by simp) hslash,
      split_step (by simp) hstep, ih, map_leading_leading, map_leading_leading]
    simp [Nat.add_assoc, Nat.add_comm 2]

variable {bare : Char → Prop}

/-- The scan for the end of a group that is open runs over a balanced text. -/
theorem closing_balanced {w : List Char} (h : Balanced bare w) (o : Opener) (os : List Opener)
    (i : Nat) (rest : List Char) :
    (plain (o :: os)).closing i (w ++ rest) =
      ((plain (o :: os)).closing (i + w.length) rest).map (ahead w) := by
  induction h generalizing o os i rest with
  | nil => cases h : closing (plain (o :: os)) i rest <;> simp [h, Except.map, ahead]
  | bare hc _ _ ih =>
    rw [List.cons_append, closing_step (step_ordinary hc) (by simp), ih, map_ahead_ahead]
    simp [Nat.add_assoc, Nat.add_comm 1]
  | @quoted _ quote body w hquote hbody _ ih =>
    rw [List.cons_append, List.append_assoc, closing_step (step_quote hquote) (by simp),
      closing_quotable hbody, List.cons_append, closing_step (step_endQuote hquote) (by simp), ih]
    simp only [map_ahead_ahead]
    congr 2
    simp only [List.length_append, List.length_cons]
    omega
  | @group _ opener inside w hopener _ _ ihInside ih =>
    rw [List.cons_append, List.append_assoc, closing_step (step_opener hopener) (by simp),
      ihInside, List.cons_append, closing_step (step_counterpart hopener) (by simp), ih]
    simp only [map_ahead_ahead]
    congr 2
    simp only [List.length_append, List.length_cons]
    omega

/-- The scan for separators runs over a balanced text in which none stands bare. -/
theorem split_balanced {separator : Char} (hsep : isOrdinary separator = true) {w : List Char}
    (h : Balanced bare w) (os : List Opener) (hbare : os = [] → ∀ c, bare c → c ≠ separator)
    (i : Nat) (rest : List Char) :
    (plain os).split separator i (w ++ rest) =
      ((plain os).split separator (i + w.length) rest).map (leading i w) := by
  simp only [isOrdinary, Bool.and_eq_true, Bool.not_eq_true'] at hsep
  induction h generalizing os i rest with
  | nil => exact (map_leading_nil _ _ _ _).symm
  | @bare _ c _ hc hb _ ih =>
    have hne : ¬(plain os = plain [] ∧ c = separator) := by
      intro hboth
      obtain ⟨ho, he⟩ := hboth
      exact hbare (by simpa using ho) c hb he
    rw [List.cons_append, split_step hne (step_ordinary hc), ih os hbare, map_leading_leading]
    simp [Nat.add_assoc, Nat.add_comm 1]
  | @quoted _ quote body w hquote hbody _ ih =>
    have hne : ¬(plain os = plain [] ∧ quote = separator) := by
      intro hboth
      obtain ⟨-, rfl⟩ := hboth
      exact absurd (hquote.symm.trans hsep.1.1) (by decide)
    rw [List.cons_append, List.append_assoc, split_step hne (step_quote hquote),
      split_quotable hbody, List.cons_append, split_step (by simp) (step_endQuote hquote),
      ih os hbare]
    simp only [map_leading_leading]
    congr 2
    simp only [List.length_append, List.length_cons]
    omega
  | @group _ opener inside w hopener _ _ ihInside ih =>
    have hne : ¬(plain os = plain [] ∧ opener = separator) := by
      intro hboth
      obtain ⟨-, rfl⟩ := hboth
      exact absurd (hopener.symm.trans hsep.1.2) (by decide)
    rw [List.cons_append, List.append_assoc, split_step hne (step_opener hopener),
      ihInside _ (by simp), List.cons_append, split_step (by simp) (step_counterpart hopener),
      ih os hbare]
    simp only [map_leading_leading]
    congr 2
    simp only [List.length_append, List.length_cons]
    omega

end Nesting

end TreePath

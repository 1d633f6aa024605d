import TreePath.Proofs.Path.Safety

namespace TreePath

open Nesting (isQuote isOpener isCloser isOrdinary counterpart)

/-- A range whose first character is known. -/
theorem Between.ofFirst {cs : List Char} {start stop : Nat} {c : Char} (hlt : start < stop)
    (hstop : stop ≤ cs.length) (hfirst : cs[start]? = some c) :
    ∃ rest, Between cs start stop (c :: rest) := by
  have hone : Between cs start (start + 1) [c] := by
    obtain ⟨hlength, hget⟩ := List.getElem?_eq_some_iff.mp hfirst
    refine ⟨⟨cs.take start, cs.drop (start + 1), ?_, by simp; omega⟩, rfl⟩
    rw [← hget, List.singleton_append, List.cons_getElem_drop_succ, List.take_append_drop]
  exact ⟨_, hone.append (.ofRange hlt hstop)⟩

namespace Scan

theorem ofExcept_eq_pure {α : Type} {y : Except Fault α} {a : α} (h : ofExcept y = pure a) :
    y = .ok a := by
  cases y with
  | ok b =>
    obtain rfl : b = a := Except.ok.inj (Option.some.inj h)
    rfl
  | error fault => cases h

section Literals

variable {cs : List Char} {start stop : Nat} {quote : Char}

theorem readQuoted_eq {rest : List Char} (h : Between cs start stop (quote :: rest)) :
    readQuoted cs start stop =
      ofExcept ((Literal.read ⟨start, quote :: rest⟩).map fun r => (r.1, r.2.start)) := by
  obtain rfl : (⟨start, quote :: rest⟩ : Span).stop = stop := h.stop_eq
  exact (readQuoted_agrees (s := ⟨start, quote :: rest⟩) h (by simp)).eq

theorem closingQuote_of_read {rest text : List Char} {after : Span}
    (h : Between cs start stop (quote :: rest)) (hquote : isQuote quote = true)
    (hread : Literal.read ⟨start, quote :: rest⟩ = .ok (text, after)) :
    closingQuote cs start stop = pure (some (after.start - 1)) := by
  obtain ⟨body, hclosing⟩ := Literal.closing_of_read hquote rfl hread
  rw [closingQuote_eq h, hclosing]
  rfl

end Literals

end Scan

/-- What reads a literal and what skips it agree where it ends, and a literal that was written is
read back wherever it stands. -/
theorem literals_agree :
    (∀ (cs : List Char) (start stop : Nat) (quote : Char),
      start < stop → stop ≤ cs.length → cs[start]? = some quote → isQuote quote = true →
        Scan.readQuoted cs start stop = Scan.ofExcept
          ((Literal.read (Span.range cs start stop)).map fun r => (r.1, r.2.start)) ∧
        (∀ text next, Scan.readQuoted cs start stop = pure (text, next) →
          Scan.closingQuote cs start stop = pure (some (next - 1))) ∧
        (Scan.closingQuote cs start stop = pure none →
          ∃ fault, Scan.readQuoted cs start stop = throw (.fault fault))) ∧
    ∀ (key before after : List Char) (stop : Nat),
      before.length + (Key.quote key).length ≤ stop →
      stop ≤ (before ++ (Key.quote key ++ after)).length →
        Scan.readQuoted (before ++ (Key.quote key ++ after)) before.length stop =
          pure (key, before.length + (Key.quote key).length) := by
  refine ⟨fun cs start stop quote hlt hstop hfirst hquote => ?_, ?_⟩
  · obtain ⟨rest, h⟩ := Between.ofFirst hlt hstop hfirst
    have hread := Scan.readQuoted_eq h
    rw [h.range_eq]
    refine ⟨hread, fun text next hnext => ?_, fun hnone => ?_⟩
    · rw [hread] at hnext
      obtain ⟨found, hfound, heq⟩ := Fault.map_eq_ok (Scan.ofExcept_eq_pure hnext)
      obtain ⟨-, rfl⟩ := Prod.mk.inj heq
      exact Scan.closingQuote_of_read h hquote hfound
    · cases hfound : Literal.read ⟨start, quote :: rest⟩ with
      | ok found =>
        rw [Scan.closingQuote_of_read h hquote hfound] at hnone
        cases hnone
      | error fault =>
        rw [hfound] at hread
        exact ⟨fault, hread⟩
  · intro key before after stop hkey hstop
    have h : Between (before ++ (Key.quote key ++ after)) before.length stop (Key.quote key ++
        after.take (stop - (before.length + (Key.quote key).length))) := by
      refine ⟨⟨before, after.drop (stop - (before.length + (Key.quote key).length)), ?_, rfl⟩, ?_⟩
      · rw [List.append_assoc, List.take_append_drop]
      · simp only [List.length_append, List.length_take] at hstop ⊢
        omega
    have hread := Key.read_quote before.length key
      (after.take (stop - (before.length + (Key.quote key).length)))
    refine (Scan.readQuoted_eq h).trans ?_
    exact congrArg (fun y => Scan.ofExcept (y.map fun r => (r.1, r.2.start))) hread

/-- An escaped quote does not end a literal, and without its last quote a literal has no end. -/
theorem literals_agree_escaped :
    Scan.closingQuote ['k', '\'', 'a', '\\', '\'', 'b', '\'', ']'] 1 8 = pure (some 6) ∧
    (∃ fault, Scan.readQuoted ['\'', 'a', '\\', '\''] 0 4 = throw (.fault fault)) ∧
    Scan.readQuoted ('[' :: (Key.quote ['a', '\''] ++ [']'])) 1 7 = pure (['a', '\''], 6) := by
  obtain ⟨hread, hskip, -⟩ := literals_agree.1 ['k', '\'', 'a', '\\', '\'', 'b', '\'', ']'] 1 8 '\''
    (by decide) (by decide) rfl rfl
  obtain ⟨-, -, hrefused⟩ := literals_agree.1 ['\'', 'a', '\\', '\''] 0 4 '\'' (by decide)
    (by decide) rfl rfl
  have hwhole : Between ['\'', 'a', '\\', '\''] 0 4 ['\'', 'a', '\\', '\''] := .whole _
  exact ⟨hskip ['a', '\'', 'b'] 7 (hread.trans rfl),
    hrefused ((Scan.closingQuote_eq hwhole).trans rfl),
    literals_agree.2 ['a', '\''] ['['] [']'] 7 (by decide) (by decide)⟩

theorem BracketWord.behind {a b : List Char} (hb : BracketWord b)
    (ha : Balanced (fun _ => True) a) : BracketWord (a ++ b) := by
  obtain ⟨hfront, hopener, hinside, hback⟩ := hb
  rw [← List.append_assoc]
  exact .mk (ha.append hfront) hopener hinside hback

theorem BracketWord.ne_nil {w : List Char} (h : BracketWord w) : w ≠ [] := by
  obtain ⟨-, -, -, -⟩ := h
  exact List.append_ne_nil_of_right_ne_nil _ (List.cons_ne_nil _ _)

theorem Nesting.isBracket_of_isQuote {c : Char} (h : isQuote c = true) :
    isOpener c = false ∧ isCloser c = false := by
  simp only [isQuote, Bool.or_eq_true, decide_eq_true_eq] at h
  rcases h with rfl | rfl <;> decide

namespace Scan

section Groups

variable {cs : List Char} {i stop last : Nat} {c : Char}

theorem finish_eq_pure {o : Opener} {x : Scan (Option Nat)} (h : x >>= finish o = pure last) :
    x = pure (some last) := by
  match x with
  | none => cases h
  | some (.error _) => cases h
  | some (.ok none) => cases h
  | some (.ok (some j)) =>
    obtain rfl : j = last := Except.ok.inj (Option.some.inj h)
    rfl

/-- At a bracket, the scan looks for the end of its group. -/
theorem closeFrom_opener {rest : List Char} (h : Between cs i stop (c :: rest))
    (ho : isOpener c = true) :
    closeFrom cs [] i stop = pure (some last) ↔
      ∃ found, (Nesting.plain [⟨c, i⟩]).closing (i + 1) rest = .ok found ∧ lastOf found = last := by
  have hposition : i ≤ cs.length := Nat.le_trans (Nat.le_of_lt h.lt) h.stop_le
  have hagrees := (closeFrom_agrees h.tail [⟨c, i⟩] (by simp) hposition).eq
  rw [closeFrom, if_pos h.lt, charAt_eq h, pure_bind, if_pos ho]
  constructor
  · intro hlast
    change closeFrom cs (awaited [⟨c, i⟩]) (i + 1) stop = _ at hlast
    rw [hlast] at hagrees
    exact Fault.map_eq_ok (ofExcept_eq_pure hagrees.symm)
  · rintro ⟨found, hfound, rfl⟩
    rw [hfound] at hagrees
    exact finish_eq_pure hagrees

/-- Where nothing is open, the scan passes over what is no bracket. -/
theorem closeFrom_ordinary {rest : List Char} (h : Between cs i stop (c :: rest))
    (hc : isOrdinary c = true) : closeFrom cs [] i stop = closeFrom cs [] (i + 1) stop := by
  simp only [isOrdinary, Bool.and_eq_true, Bool.not_eq_true'] at hc
  rw [closeFrom, if_pos h.lt, charAt_eq h, pure_bind]
  simp [hc]

/-- A quoted text is passed over as a whole. -/
theorem closeFrom_quote {rest body : List Char} {after : Span}
    (h : Between cs i stop (c :: rest)) (hquote : isQuote c = true)
    (hclosing : (Nesting.quoted [] c i false).closing (i + 1) rest = .ok (body, after)) :
    closeFrom cs [] i stop = closeFrom cs [] after.start stop := by
  obtain ⟨hinside, hlast, -⟩ := between_of_closing h.tail hclosing
  obtain ⟨hopener, hcloser⟩ := Nesting.isBracket_of_isQuote hquote
  have hforward : i < after.start := hlast ▸ Nat.lt_succ_of_lt hinside.start_le
  rw [closeFrom, if_pos h.lt, charAt_eq h, pure_bind, if_neg (by simp [hopener]),
    if_neg (by simp [hcloser]), if_pos hquote, closingQuote_eq h, hclosing, pure_bind]
  change closeFrom cs [] (onward i (lastOf (body, after) + 1)) stop = _
  rw [hlast, onward_eq hforward]

theorem closeFrom_group {rest inside : List Char} (ho : isOpener c = true)
    (hinside : Balanced (fun _ => True) inside)
    (h : Between cs i stop (c :: (inside ++ counterpart c :: rest))) :
    closeFrom cs [] i stop = pure (some (i + 1 + inside.length)) := by
  have hfirst : isOpener (Opener.mk c i).char = true := ho
  exact (closeFrom_opener h ho).mpr ⟨_, Nesting.closing_group hfirst hinside (i + 1) rest, rfl⟩

/-- Where the brackets are closed for the first time, the text up to there is a bracket word. -/
theorem bracketWord_of_closeFrom {i : Nat} {text : List Char} (h : Between cs i stop text)
    (hlast : closeFrom cs [] i stop = pure (some last)) :
    ∃ w rest, text = w ++ rest ∧ BracketWord w ∧ last + 1 = i + w.length := by
  match text with
  | [] =>
    rw [closeFrom, if_neg h.not_lt] at hlast
    cases hlast
  | c :: rest =>
    cases ho : isOpener c with
    | true =>
      obtain ⟨⟨inside, after⟩, hclosing, rfl⟩ := (closeFrom_opener h ho).mp hlast
      have hfirst : isOpener (Opener.mk c i).char = true := ho
      obtain ⟨hinside, rfl, hstart⟩ := (Nesting.closing_eq_ok_iff hfirst).mp hclosing
      have hfront : Balanced (fun _ => True) [] := .nil
      refine ⟨c :: (inside ++ [counterpart c]), after.chars, by simp,
        .mk hfront ho hinside .nil, ?_⟩
      simp only [lastOf, hstart, List.length_cons, List.length_append, List.length_nil]
      omega
    | false =>
      cases hq : isQuote c with
      | true =>
        cases hbody : (Nesting.quoted [] c i false).closing (i + 1) rest with
        | error fault =>
          obtain ⟨-, hcloser⟩ := Nesting.isBracket_of_isQuote hq
          rw [closeFrom, if_pos h.lt, charAt_eq h, pure_bind, if_neg (by simp [ho]),
            if_neg (by simp [hcloser]), if_pos hq, closingQuote_eq h, hbody] at hlast
          cases hlast
        | ok found =>
          obtain ⟨body, after⟩ := found
          obtain ⟨hquotable, hrest⟩ := Nesting.quotable_of_closing hbody
          obtain ⟨-, hstop, hbehind⟩ := between_of_closing h.tail hbody
          rw [closeFrom_quote h hq hbody] at hlast
          have hlt : after.chars.length < (c :: rest).length := by
            simp only [hrest, List.length_cons, List.length_append]
            omega
          obtain ⟨w, more, hw, hword, hlength⟩ := bracketWord_of_closeFrom hbehind hlast
          refine ⟨(c :: (body ++ [c])) ++ w, more, by simp [hrest, hw],
            hword.behind (.literal hq hquotable), ?_⟩
          obtain ⟨_, -, hstart⟩ := Nesting.closing_eq_ok hbody
          simp only [hlength, hstart, List.length_cons, List.length_append, List.length_nil]
          omega
      | false =>
        cases hc : isCloser c with
        | true =>
          rw [closeFrom, if_pos h.lt, charAt_eq h, pure_bind, if_neg (by simp [ho]), if_pos hc]
            at hlast
          cases hlast
        | false =>
          have hordinary : isOrdinary c = true := by simp [isOrdinary, hq, ho, hc]
          rw [closeFrom_ordinary h hordinary] at hlast
          obtain ⟨w, more, hw, hword, hlength⟩ := bracketWord_of_closeFrom h.tail hlast
          refine ⟨[c] ++ w, more, by simp [hw],
            hword.behind (.bare hordinary trivial .nil), ?_⟩
          simp only [hlength, List.length_append, List.length_singleton]
          omega
termination_by text.length

/-- The scan gets through a balanced text, or ends in it. -/
theorem closeFrom_of_balanced {bare : Char → Prop} {front rest : List Char} {n : Nat}
    (hfront : Balanced bare front)
    (hrest : ∀ j, Between cs j stop rest →
      ∃ last, closeFrom cs [] j stop = pure (some last) ∧ last < j + n)
    (h : Between cs i stop (front ++ rest)) :
    ∃ last, closeFrom cs [] i stop = pure (some last) ∧ last < i + front.length + n := by
  induction hfront generalizing i with
  | nil => exact hrest i h
  | @bare _ c front hc _ _ ih =>
    obtain ⟨last, hlast, hlt⟩ := ih h.tail
    rw [← closeFrom_ordinary h hc] at hlast
    exact ⟨last, hlast, by rw [List.length_cons]; omega⟩
  | @quoted _ quote body front hquote hbody _ ih =>
    have hwhole : quote :: (body ++ quote :: front) ++ rest =
        (quote :: (body ++ [quote])) ++ (front ++ rest) := by simp
    have hbehind : i + (quote :: (body ++ [quote])).length = i + 1 + body.length + 1 := by
      simp only [List.length_cons, List.length_append, List.length_nil]
      omega
    rw [hwhole] at h
    obtain ⟨last, hlast, hlt⟩ := ih h.right
    rw [hbehind] at hlast hlt
    rw [List.cons_append, List.append_assoc, List.singleton_append] at h
    rw [← closeFrom_quote h hquote (Nesting.closing_quote hquote hbody i (i + 1) _)] at hlast
    refine ⟨last, hlast, ?_⟩
    simp only [List.length_cons, List.length_append]
    omega
  | @group _ opener inside front hopener hinside _ _ ih =>
    have hwhole : opener :: (inside ++ counterpart opener :: front) ++ rest =
        opener :: (inside ++ counterpart opener :: (front ++ rest)) := by simp
    rw [hwhole] at h
    refine ⟨_, closeFrom_group hopener hinside h, ?_⟩
    simp only [List.length_cons, List.length_append]
    omega

/-- If the text starts with a bracket word, then the brackets are closed in it. -/
theorem closeFrom_of_bracketWord {w rest : List Char} (hw : BracketWord w)
    (h : Between cs i stop (w ++ rest)) :
    ∃ last, closeFrom cs [] i stop = pure (some last) ∧ last < i + w.length := by
  obtain @⟨front, inside, back, opener, hfront, hopener, hinside, -⟩ := hw
  rw [List.append_assoc] at h
  have hgroup : ∀ j, Between cs j stop (opener :: (inside ++ counterpart opener :: back) ++ rest) →
      ∃ last, closeFrom cs [] j stop = pure (some last) ∧ last < j + (inside.length + 2) := by
    intro j hj
    rw [List.cons_append, List.append_assoc, List.cons_append] at hj
    exact ⟨_, closeFrom_group hopener hinside hj, by omega⟩
  obtain ⟨last, hlast, hlt⟩ := closeFrom_of_balanced hfront hgroup h
  refine ⟨last, hlast, ?_⟩
  simp only [List.length_append, List.length_cons]
  omega

theorem findClose_eq_pure_iff {text : List Char} (h : Between cs i stop text) :
    findClose cs i stop = pure last ↔ closeFrom cs [] i stop = pure (some last) := by
  rw [findClose, checkRange_eq h, pure_bind]
  constructor
  · intro hlast
    rcases hclose : closeFrom cs [] i stop with _ | _ | _ | j <;> rw [hclose] at hlast
    · cases hlast
    · cases hlast
    · change (charAt cs i >>= fun c => fail (.unterminated c) i) = _ at hlast
      rw [charAt] at hlast
      cases hc : cs[i]? <;> rw [hc] at hlast <;> cases hlast
    · obtain rfl : j = last := Except.ok.inj (Option.some.inj hlast)
      rfl
  · intro hlast
    rw [hlast]
    rfl

/-- The end of a group is found exactly where the text in front of it is a bracket word, and no
shorter one is. -/
theorem findClose_iff (hstart : i ≤ stop) (hstop : stop ≤ cs.length) (last : Nat) :
    findClose cs i stop = pure last ↔
      last < stop ∧ BracketWord (Span.range cs i (last + 1)).chars ∧
        ∀ j, i ≤ j → j ≤ last → ¬BracketWord (Span.range cs i j).chars := by
  have h := Between.ofRange hstart hstop
  -- A bracket word that the range starts with has its last bracket in it.
  have hcloses : ∀ j, i ≤ j → j ≤ stop → BracketWord (Span.range cs i j).chars →
      ∃ last, closeFrom cs [] i stop = pure (some last) ∧ last < j := by
    intro j hij hj hword
    have hfront : Between cs i j (Span.range cs i j).chars := .ofRange hij (by omega)
    have hwhole := hfront.append (.ofRange hj hstop)
    obtain ⟨last, hlast, hlt⟩ := closeFrom_of_bracketWord hword hwhole
    exact ⟨last, hlast, hfront.stop_eq ▸ hlt⟩
  have hword : ∀ last, closeFrom cs [] i stop = pure (some last) →
      last < stop ∧ BracketWord (Span.range cs i (last + 1)).chars := by
    intro last hlast
    obtain ⟨w, rest, hw, hword, hlength⟩ := bracketWord_of_closeFrom h hlast
    rw [hw] at h
    have hfront := h.left
    have hrest := h.right.start_le
    rw [← hlength] at hfront hrest
    exact ⟨hrest, hfront.range_eq ▸ hword⟩
  have hunique : ∀ j k, closeFrom cs [] i stop = pure (some j) →
      closeFrom cs [] i stop = pure (some k) → j = k := by
    intro j k hj hk
    exact Option.some.inj (Except.ok.inj (Option.some.inj (hj.symm.trans hk)))
  have hpositive : ∀ j, BracketWord (Span.range cs i j).chars → i < j := by
    intro j hword
    by_contra hij
    have hnil : (Span.range cs i j).chars = [] := by
      refine List.drop_eq_nil_of_le ?_
      rw [List.length_take]
      omega
    rw [hnil] at hword
    exact hword.ne_nil rfl
  rw [findClose_eq_pure_iff h]
  constructor
  · intro hlast
    obtain ⟨hlt, hbracket⟩ := hword last hlast
    refine ⟨hlt, hbracket, fun j hij hj hshort => ?_⟩
    obtain ⟨last', hlast', hlt'⟩ := hcloses j hij (by omega) hshort
    have := hunique last last' hlast hlast'
    omega
  · rintro ⟨hlt, hbracket, hshortest⟩
    have hi := hpositive _ hbracket
    obtain ⟨last', hlast', hlt'⟩ := hcloses (last + 1) (by omega) (by omega) hbracket
    obtain ⟨-, hbracket'⟩ := hword last' hlast'
    have hi' := hpositive _ hbracket'
    by_cases heq : last' = last
    · exact heq ▸ hlast'
    · exact absurd hbracket' (hshortest (last' + 1) (by omega) (by omega))

end Groups

end Scan

/-- The parts stand one behind the other, with a separator between neighbours. -/
inductive Consecutive (cs : List Char) (separator : Char) :
    Nat → Nat → List (Nat × Nat) → Prop where
  | last {start stop : Nat} (hle : start ≤ stop) : Consecutive cs separator start stop [(start, stop)]
  | more {start i stop : Nat} {parts : List (Nat × Nat)} (hle : start ≤ i)
      (hseparator : cs[i]? = some separator) (hrest : Consecutive cs separator (i + 1) stop parts) :
      Consecutive cs separator start stop ((start, i) :: parts)

/-- In front of the position, all brackets and quotes that were opened behind `start` are closed. -/
def TopLevel (cs : List Char) (start i : Nat) : Prop :=
  Shut (fun _ => True) (Span.range cs start i).chars

/-- The parts are what the separators outside of brackets and quotes leave of the range. -/
structure SplitAt (cs : List Char) (separator : Char) (start stop : Nat) (parts : List (Nat × Nat)) :
    Prop where
  consecutive : Consecutive cs separator start stop parts
  /-- A part starts and ends outside of brackets and quotes. -/
  topLevel : ∀ p ∈ parts, TopLevel cs start p.1 ∧ TopLevel cs start p.2
  /-- No separator in a part is outside of brackets and quotes. -/
  inside : ∀ p ∈ parts, ∀ i, p.1 ≤ i → i < p.2 → cs[i]? = some separator → ¬TopLevel cs start i
  /-- Every other separator is a boundary between two parts. -/
  boundary : ∀ i, start ≤ i → i < stop → cs[i]? = some separator → TopLevel cs start i →
    ∃ p ∈ parts, ∃ q ∈ parts, p.2 = i ∧ q.1 = i + 1

namespace Consecutive

variable {cs : List Char} {separator : Char} {start stop : Nat} {parts : List (Nat × Nat)}

theorem bounds (h : Consecutive cs separator start stop parts) :
    ∀ p ∈ parts, start ≤ p.1 ∧ p.1 ≤ p.2 ∧ p.2 ≤ stop := by
  induction h with
  | last hle =>
    intro p hp
    obtain rfl := List.mem_singleton.mp hp
    exact ⟨Nat.le_refl _, hle, Nat.le_refl _⟩
  | @more start i stop parts hle _ hrest ih =>
    have hlast : i + 1 ≤ stop := by
      cases hrest with
      | last hle => exact hle
      | more hle =>
        obtain ⟨-, -, hstop⟩ := ih _ List.mem_cons_self
        exact Nat.le_trans hle hstop
    intro p hp
    rcases List.mem_cons.mp hp with rfl | hp
    · exact ⟨Nat.le_refl _, hle, by omega⟩
    · obtain ⟨hstart, hpart, hstop⟩ := ih p hp
      exact ⟨by omega, hpart, hstop⟩

/-- None of the parts ends in another one. -/
theorem apart (h : Consecutive cs separator start stop parts) :
    ∀ p ∈ parts, ∀ q ∈ parts, q.2 < p.2 → q.2 < p.1 := by
  induction h with
  | last hle =>
    intro p hp q hq hlt
    obtain rfl := List.mem_singleton.mp hp
    obtain rfl := List.mem_singleton.mp hq
    exact absurd hlt (Nat.lt_irrefl _)
  | more hle _ hrest ih =>
    have hbounds := hrest.bounds
    intro p hp q hq hlt
    rcases List.mem_cons.mp hp with rfl | hp
    · rcases List.mem_cons.mp hq with rfl | hq
      · exact absurd hlt (Nat.lt_irrefl _)
      · have := hbounds q hq
        simp only at hlt
        omega
    · rcases List.mem_cons.mp hq with rfl | hq
      · have := hbounds p hp
        simp only
        omega
      · exact ih p hp q hq hlt

theorem exists_first (h : Consecutive cs separator start stop parts) : ∃ p ∈ parts, p.1 = start := by
  cases h <;> exact ⟨_, List.mem_cons_self, rfl⟩

/-- Behind a part that is not the last one, and a separator, the next one starts. -/
theorem exists_next (h : Consecutive cs separator start stop parts) :
    ∀ p ∈ parts, p.2 < stop → ∃ q ∈ parts, q.1 = p.2 + 1 := by
  induction h with
  | last hle =>
    intro p hp hlt
    obtain rfl := List.mem_singleton.mp hp
    exact absurd hlt (Nat.lt_irrefl _)
  | more hle _ hrest ih =>
    intro p hp hlt
    rcases List.mem_cons.mp hp with rfl | hp
    · obtain ⟨q, hq, hfirst⟩ := hrest.exists_first
      exact ⟨q, List.mem_cons_of_mem _ hq, hfirst⟩
    · obtain ⟨q, hq, hnext⟩ := ih p hp hlt
      exact ⟨q, List.mem_cons_of_mem _ hq, hnext⟩

end Consecutive

section Parts

variable {cs : List Char} {separator : Char}

theorem consecutive_of_parted {i stop : Nat} {text : List Char} {head : Span} {tail : List Span}
    (hparted : Nesting.Parted separator i text head tail) (h : Between cs i stop text) :
    Consecutive cs separator i stop ((head :: tail).map Span.ends) := by
  induction hparted with
  | @last i text _ =>
    have hend : (⟨i, text⟩ : Span).ends = (i, stop) := by
      rw [← h.stop_eq]
      rfl
    rw [List.map_singleton, hend]
    exact .last h.start_le
  | more _ _ ih =>
    have hseparator := h.right
    exact .more (Nat.le_add_right _ _) hseparator.getElem?_eq (ih hseparator.tail)

/-- What stands in front of the ends of a part is shut, when what stands in front of the parts
is. -/
theorem topLevel_of_parted (hsep : isOrdinary separator = true) {start i stop : Nat}
    {front text : List Char} {head : Span} {tail : List Span}
    (hparted : Nesting.Parted separator i text head tail) (hfront : Between cs start i front)
    (hshut : Shut (fun _ => True) front) (h : Between cs i stop text) :
    ∀ p ∈ head :: tail, TopLevel cs start p.start ∧ TopLevel cs start p.stop := by
  have htop : ∀ {j : Nat} {text : List Char}, Between cs start j text →
      Shut (fun _ => True) text → TopLevel cs start j := by
    intro j text hbetween htext
    rw [TopLevel, hbetween.range_eq]
    exact htext
  simp only [isOrdinary, Bool.and_eq_true, Bool.not_eq_true'] at hsep
  induction hparted generalizing front with
  | @last i text htext =>
    intro p hp
    obtain rfl := List.mem_singleton.mp hp
    obtain rfl : (⟨i, text⟩ : Span).stop = stop := h.stop_eq
    exact ⟨htop hfront hshut, htop (hfront.append h) (hshut.append htext.any)⟩
  | @more i part rest head tail hpart _ ih =>
    have hseparator := h.right
    have hnext := (hfront.append h.left).append
      (show Between cs (i + part.length) (i + part.length + 1) [separator] from
        Between.left (a := [separator]) hseparator)
    intro p hp
    rcases List.mem_cons.mp hp with rfl | hp
    · exact ⟨htop hfront hshut, htop (hfront.append h.left) (hshut.append hpart.any)⟩
    · exact ih hnext ((hshut.append hpart.any).append
        (.bare hsep.1.1 hsep.1.2 trivial .nil)) hseparator.tail p hp

end Parts

namespace Scan

section Parts

variable {cs : List Char} {separator : Char} {start stop : Nat}

theorem stop_range (hstart : start ≤ stop) (hstop : stop ≤ cs.length) :
    (Span.range cs start stop).stop = stop :=
  (Between.ofRange hstart hstop).stop_eq

theorem in_range (hstart : start ≤ stop) (hstop : stop ≤ cs.length) :
    (Span.range cs start stop).In cs := by
  rw [Span.in_iff, stop_range hstart hstop]
  exact .ofRange hstart hstop

/-- The scan for separators comes to the parts of the span. -/
theorem split_range (hsep : isOrdinary separator = true) (hstart : start ≤ stop)
    (hstop : stop ≤ cs.length) :
    split cs separator start stop = ofExcept
      (((Span.range cs start stop).split separator).map fun p => p.toList.map Span.ends) := by
  have hagrees := split_agrees (in_range hstart hstop) hsep
  rw [stop_range hstart hstop] at hagrees
  exact hagrees.eq

theorem splitAt_of_split (hsep : isOrdinary separator = true) (hstart : start ≤ stop)
    (hstop : stop ≤ cs.length) {parts : List (Nat × Nat)}
    (h : split cs separator start stop = pure parts) : SplitAt cs separator start stop parts := by
  rw [split_range hsep hstart hstop] at h
  obtain ⟨p, hp, rfl⟩ := Fault.map_eq_ok (ofExcept_eq_pure h)
  have hbetween := Between.ofRange hstart hstop
  have hsplit := Span.split_eq_ok hp
  have hparted : Nesting.Parted separator start _ p.head p.tail :=
    Nesting.parted_of_split hsplit
  have hconsecutive := consecutive_of_parted hparted hbetween
  have htop := topLevel_of_parted hsep hparted
    (Between.ofRange (Nat.le_refl start) (by omega)) (by simpa [Span.range] using .nil) hbetween
  have hboundary : ∀ i, start ≤ i → i < stop → cs[i]? = some separator → TopLevel cs start i →
      ∃ p' ∈ p.toList.map Span.ends, p'.2 = i := by
    intro i hi hlt hseparator hshut
    obtain ⟨rest, hrest⟩ := Between.ofFirst hlt hstop hseparator
    have hfront : Between cs start i (Span.range cs start i).chars := .ofRange hi (by omega)
    rw [hbetween.unique (hfront.append hrest)] at hsplit
    obtain ⟨-, t, ht, hend⟩ := Nesting.split_cuts hsep hshut hsplit
    exact ⟨t.ends, List.mem_map_of_mem ht, hend.trans hfront.stop_eq⟩
  refine ⟨hconsecutive, ?_, ?_, ?_⟩
  · intro q hq
    obtain ⟨t, ht, rfl⟩ := List.mem_map.mp hq
    exact htop t ht
  · intro q hq i hi hlt hseparator hshut
    obtain ⟨hstart', -, hstop'⟩ := hconsecutive.bounds q hq
    obtain ⟨r, hr, rfl⟩ := hboundary i (by omega) (by omega) hseparator hshut
    have := hconsecutive.apart q hq r hr hlt
    omega
  · intro i hi hlt hseparator hshut
    obtain ⟨q, hq, rfl⟩ := hboundary i hi hlt hseparator hshut
    obtain ⟨r, hr, hnext⟩ := hconsecutive.exists_next q hq hlt
    exact ⟨q, hq, r, hr, rfl, hnext⟩

end Parts

end Scan

/-- Groups and parts end exactly where their brackets and separators say. The scans by positions
are those of the running parser; the end of a group is the last character of the shortest bracket
word that the range starts with; and a range that is split has a boundary at every separator outside
of brackets and quotes and at no other place. -/
theorem delimiters_exact {cs : List Char} {start stop : Nat} (hstart : start ≤ stop)
    (hstop : stop ≤ cs.length) :
    (∀ last, Scan.findClose cs start stop = pure last ↔
      last < stop ∧ BracketWord (Span.range cs start (last + 1)).chars ∧
        ∀ i, start ≤ i → i ≤ last → ¬BracketWord (Span.range cs start i).chars) ∧
    (∀ c rest, (Span.range cs start stop).chars = c :: rest → isOpener c = true →
      Scan.findClose cs start stop = Scan.ofExcept
        ((Span.range cs start stop).group.map fun g => g.inside.stop)) ∧
    ∀ separator, isOrdinary separator = true →
      Scan.split cs separator start stop = Scan.ofExcept
        (((Span.range cs start stop).split separator).map fun p => p.toList.map Span.ends) ∧
      ∀ parts, Scan.split cs separator start stop = pure parts →
        SplitAt cs separator start stop parts := by
  refine ⟨Scan.findClose_iff hstart hstop, fun c rest hchars hopener => ?_, fun separator hsep =>
    ⟨Scan.split_range hsep hstart hstop, fun parts => Scan.splitAt_of_split hsep hstart hstop⟩⟩
  have hagrees := Scan.group_agrees (Scan.in_range hstart hstop) hchars hopener
  rw [Scan.stop_range hstart hstop] at hagrees
  exact hagrees.eq

/-- Both at once on `[a,']'],b`, whose first group ends behind a quoted bracket. -/
theorem delimiters_exact_quoted :
    (6 < 9 ∧ BracketWord ['[', 'a', ',', '\'', ']', '\'', ']'] ∧
      ∀ i, 0 ≤ i → i ≤ 6 →
        ¬BracketWord (Span.range ['[', 'a', ',', '\'', ']', '\'', ']', ',', 'b'] 0 i).chars) ∧
    SplitAt ['[', 'a', ',', '\'', ']', '\'', ']', ',', 'b'] ',' 0 9 [(0, 7), (8, 9)] := by
  obtain ⟨hclose, hgroup, hsplit⟩ :=
    @delimiters_exact ['[', 'a', ',', '\'', ']', '\'', ']', ',', 'b'] 0 9 (by decide) (by decide)
  obtain ⟨hparts, hexact⟩ := hsplit ',' rfl
  exact ⟨(hclose 6).mp ((hgroup _ _ rfl rfl).trans rfl), hexact _ (hparts.trans rfl)⟩

end TreePath

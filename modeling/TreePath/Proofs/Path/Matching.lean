import TreePath.Proofs.Path.Pieces

namespace TreePath

/-- Whatever opens in the text is closed in it, and the characters outside of brackets and quotes
satisfy `bare`. A closing bracket while nothing is open is a character like any other. -/
inductive Shut (bare : Char → Prop) : List Char → Prop where
  | nil : Shut bare []
  | bare {c : Char} {rest : List Char} (hquote : Nesting.isQuote c = false)
      (hopener : Nesting.isOpener c = false) (hbare : bare c) (hrest : Shut bare rest) :
      Shut bare (c :: rest)
  | quoted {quote : Char} {body rest : List Char} (hquote : Nesting.isQuote quote = true)
      (hbody : Quotable quote body) (hrest : Shut bare rest) :
      Shut bare (quote :: (body ++ quote :: rest))
  | group {opener : Char} {inside rest : List Char} (hopener : Nesting.isOpener opener = true)
      (hinside : Balanced (fun _ => True) inside) (hrest : Shut bare rest) :
      Shut bare (opener :: (inside ++ Nesting.counterpart opener :: rest))

namespace Shut

variable {bare : Char → Prop}

theorem append {a b : List Char} (ha : Shut bare a) (hb : Shut bare b) :
    Shut bare (a ++ b) := by
  induction ha with
  | nil => exact hb
  | bare hquote hopener hbare _ ih => exact .bare hquote hopener hbare ih
  | quoted hquote hbody _ ih =>
    simp only [List.cons_append, List.append_assoc]
    exact .quoted hquote hbody ih
  | group hopener hinside _ ih =>
    simp only [List.cons_append, List.append_assoc]
    exact .group hopener hinside ih

theorem any {a : List Char} (ha : Shut bare a) : Shut (fun _ => True) a := by
  induction ha with
  | nil => exact .nil
  | bare hquote hopener _ _ ih => exact .bare hquote hopener trivial ih
  | quoted hquote hbody _ ih => exact .quoted hquote hbody ih
  | group hopener hinside _ ih => exact .group hopener hinside ih

end Shut

/-- Brackets match in the text once quoted texts are skipped, and there is a pair of them. -/
inductive BracketWord : List Char → Prop where
  | mk {front inside back : List Char} {opener : Char} (hfront : Balanced (fun _ => True) front)
      (hopener : Nesting.isOpener opener = true) (hinside : Balanced (fun _ => True) inside)
      (hback : Balanced (fun _ => True) back) :
      BracketWord (front ++ opener :: (inside ++ Nesting.counterpart opener :: back))

namespace Nesting

/-- The scan stops at a character that is left out of both its results. -/
theorem closing_eq_ok {n : Nesting} {i : Nat} {cs inside : List Char} {after : Span}
    (h : n.closing i cs = .ok (inside, after)) :
    ∃ c, cs = inside ++ c :: after.chars ∧ after.start = i + inside.length + 1 := by
  induction cs generalizing n i inside with
  | nil => simp [closing] at h
  | cons c rest ih =>
    unfold closing at h
    split at h
    · simp at h
    · obtain ⟨rfl, rfl⟩ := Prod.mk.inj (Except.ok.inj h)
      exact ⟨c, rfl, rfl⟩
    · next m _ _ =>
      obtain ⟨⟨text, behind⟩, hmore, heq⟩ := Fault.map_eq_ok h
      obtain ⟨rfl, rfl⟩ := Prod.mk.inj heq
      obtain ⟨d, hd, hstart⟩ := ih hmore
      exact ⟨d, by rw [hd]; rfl, by rw [hstart, List.length_cons]; omega⟩

theorem take_of_closing {n : Nesting} {i : Nat} {cs inside : List Char} {after : Span}
    (h : n.closing i cs = .ok (inside, after)) :
    cs = cs.take (inside.length + 1) ++ after.chars := by
  obtain ⟨c, hcs, -⟩ := closing_eq_ok h
  have hfront : inside.length + 1 = (inside ++ [c]).length := by simp
  rw [hcs, List.append_cons, hfront, List.take_left]

theorem exists_unclosed {n : Nesting} (hn : n ≠ plain []) : ∃ fault, n.unclosed = some fault := by
  cases n with
  | quoted => exact ⟨_, rfl⟩
  | plain openers =>
    cases openers with
    | nil => exact absurd rfl hn
    | cons o os => exact ⟨_, by simp [unclosed, List.getLast?_cons]; rfl⟩

theorem closing_nil (n : Nesting) (i : Nat) :
    n.closing i [] = .error (n.unclosed.getD ⟨.unterminatedQuote, i⟩) := rfl

theorem closing_end {n : Nesting} {i : Nat} {c : Char} {rest : List Char}
    (hstep : n.step i c = .ok (plain [])) : n.closing i (c :: rest) = .ok ([], ⟨i + 1, rest⟩) := by
  rw [closing, hstep]

theorem closing_error {n : Nesting} {i : Nat} {c : Char} {rest : List Char} {fault : Fault}
    (hstep : n.step i c = .error fault) : n.closing i (c :: rest) = .error fault := by
  rw [closing, hstep]

/-- A scan that goes on behind a character, and ends. -/
theorem closing_step_eq_ok {n m : Nesting} {i : Nat} {c : Char} {rest inside : List Char}
    {after : Span} (hstep : n.step i c = .ok m) (hm : m ≠ plain [])
    (h : n.closing i (c :: rest) = .ok (inside, after)) :
    ∃ text, inside = c :: text ∧ m.closing (i + 1) rest = .ok (text, after) := by
  rw [closing_step hstep hm] at h
  obtain ⟨⟨text, behind⟩, hmore, heq⟩ := Fault.map_eq_ok h
  obtain ⟨rfl, rfl⟩ := Prod.mk.inj heq
  exact ⟨text, rfl, hmore⟩

/-- While something is open, a scan for separators first looks for its end. -/
theorem split_of_open (separator : Char) {n : Nesting} (hn : n ≠ plain []) (i : Nat)
    (cs : List Char) : n.split separator i cs = (do
      let found ← n.closing i cs
      ((plain []).split separator found.2.start found.2.chars).map
        (leading i (cs.take (found.1.length + 1)))) := by
  induction cs generalizing n i with
  | nil =>
    obtain ⟨fault, hfault⟩ := exists_unclosed hn
    rw [split, hfault, closing_nil, hfault]
    rfl
  | cons c rest ih =>
    rw [split, if_neg fun h => hn h.1]
    cases hstep : n.step i c with
    | error fault =>
      rw [closing_error hstep]
      rfl
    | ok m =>
      by_cases hm : m = plain []
      · subst hm
        rw [closing_end hstep]
        rfl
      · rw [closing_step hstep hm]
        change (m.split separator (i + 1) rest).map (leading i [c]) = _
        rw [ih hm]
        cases m.closing (i + 1) rest with
        | error fault => rfl
        | ok found =>
          change (((plain []).split separator found.2.start found.2.chars).map _).map _ =
            ((plain []).split separator found.2.start found.2.chars).map _
          rw [map_leading_leading]
          rfl

/-- Inside of quotes, a character leaves the scan there or leads out of them, whatever is open
around the quotes. -/
theorem step_quoted (quote : Char) (position : Nat) (escaped : Bool) (i : Nat) (c : Char) :
    (∃ more, ∀ openers, (quoted openers quote position escaped).step i c =
        .ok (quoted openers quote position more)) ∨
      ∀ openers, (quoted openers quote position escaped).step i c = .ok (plain openers) := by
  cases escaped with
  | true => exact .inl ⟨false, fun _ => rfl⟩
  | false =>
    by_cases hslash : c = '\\'
    · exact .inl ⟨true, fun _ => by simp [step, hslash]⟩
    · by_cases hquote : c = quote
      · exact .inr fun _ => by simp [step, hquote, hquote ▸ hslash]
      · exact .inl ⟨false, fun _ => by simp [step, hslash, hquote]⟩

/-- Inside of quotes, a scan for the end of a group first looks for the closing quote. -/
theorem closing_of_quoted {openers : List Opener} (hopen : openers ≠ []) (quote : Char)
    (position : Nat) (escaped : Bool) (i : Nat) (cs : List Char) :
    (quoted openers quote position escaped).closing i cs = (do
      let found ← (quoted [] quote position escaped).closing i cs
      ((plain openers).closing found.2.start found.2.chars).map
        (ahead (cs.take (found.1.length + 1)))) := by
  induction cs generalizing i escaped with
  | nil => rfl
  | cons c rest ih =>
    rcases step_quoted quote position escaped i c with ⟨more, hstep⟩ | hstep
    · rw [closing_step (hstep openers) (by simp), closing_step (hstep []) (by simp), ih]
      cases (quoted [] quote position more).closing (i + 1) rest with
      | error fault => rfl
      | ok found =>
        change (((plain openers).closing found.2.start found.2.chars).map _).map _ =
          ((plain openers).closing found.2.start found.2.chars).map _
        rw [map_ahead_ahead]
        rfl
    · rw [closing_step (hstep openers) (by simpa using hopen), closing_end (hstep [])]
      rfl

/-- A quote that is not closed is reported where it stands. -/
theorem closing_quoted_eq_error {quote : Char} {position i : Nat} {escaped : Bool}
    {cs : List Char} {fault : Fault}
    (h : (quoted [] quote position escaped).closing i cs = .error fault) :
    fault = ⟨.unterminatedQuote, position⟩ := by
  induction cs generalizing i escaped with
  | nil => exact (Except.error.inj h).symm
  | cons c rest ih =>
    rcases step_quoted quote position escaped i c with ⟨more, hstep⟩ | hstep
    · rw [closing_step (hstep []) (by simp)] at h
      cases hmore : (quoted [] quote position more).closing (i + 1) rest with
      | error fault' =>
        rw [hmore] at h
        obtain rfl := Except.error.inj h
        exact ih hmore
      | ok found =>
        rw [hmore] at h
        cases h
    · rw [closing_end (hstep [])] at h
      cases h

/-- What stands in front of a closing quote could be written between quotes, behind an escape that
is not yet over. -/
theorem quotable_of_closing {quote : Char} {position i : Nat} {escaped : Bool}
    {cs body : List Char} {after : Span}
    (h : (quoted [] quote position escaped).closing i cs = .ok (body, after)) :
    Quotable quote (if escaped then '\\' :: body else body) ∧ cs = body ++ quote :: after.chars := by
  induction cs generalizing i escaped body with
  | nil => simp [closing] at h
  | cons c rest ih =>
    have hgoes : ∀ more : Bool,
        (quoted [] quote position escaped).step i c = .ok (quoted [] quote position more) →
        ∃ text, body = c :: text ∧ Quotable quote (if more then '\\' :: text else text) ∧
          rest = text ++ quote :: after.chars := by
      intro more hstep
      obtain ⟨text, hbody, hmore⟩ := closing_step_eq_ok hstep (by simp) h
      obtain ⟨hquotable, hrest⟩ := ih hmore
      exact ⟨text, hbody, hquotable, hrest⟩
    cases escaped with
    | true =>
      obtain ⟨text, rfl, hquotable, rfl⟩ := hgoes false rfl
      exact ⟨.escaped c hquotable, rfl⟩
    | false =>
      by_cases hslash : c = '\\'
      · obtain ⟨text, rfl, hquotable, rfl⟩ := hgoes true (by simp [step, hslash])
        subst hslash
        exact ⟨hquotable, rfl⟩
      · by_cases hquote : c = quote
        · rw [closing_end (by simp [step, hquote, hquote ▸ hslash])] at h
          obtain ⟨rfl, rfl⟩ := Prod.mk.inj (Except.ok.inj h)
          exact ⟨.nil, by rw [hquote]; rfl⟩
        · obtain ⟨text, rfl, hquotable, rfl⟩ := hgoes false (by simp [step, hslash, hquote])
          exact ⟨.plain hslash hquote hquotable, rfl⟩

theorem closing_quote {quote : Char} (hquote : isQuote quote = true) {body : List Char}
    (hbody : Quotable quote body) (position i : Nat) (rest : List Char) :
    (quoted [] quote position false).closing i (body ++ quote :: rest) =
      .ok (body, ⟨i + body.length + 1, rest⟩) := by
  rw [closing_quotable hbody, closing_end (step_endQuote hquote)]
  simp [Except.map, ahead]

/-- The text closes these brackets, the innermost first, up to the closing bracket of the last one,
which stands behind it. -/
inductive Closes : List Opener → List Char → Prop where
  | last {o : Opener} {inside : List Char} (hinside : Balanced (fun _ => True) inside) :
      Closes [o] inside
  | more {o : Opener} {os : List Opener} {inside rest : List Char}
      (hinside : Balanced (fun _ => True) inside) (hrest : Closes os rest) :
      Closes (o :: os) (inside ++ counterpart o.char :: rest)

theorem Closes.append {os : List Opener} {w rest : List Char}
    (hw : Balanced (fun _ => True) w) (h : Closes os rest) : Closes os (w ++ rest) := by
  cases h with
  | last hinside => exact .last (hw.append hinside)
  | more hinside hrest =>
    rw [← List.append_assoc]
    exact .more (hw.append hinside) hrest

theorem Closes.group {o : Opener} {os : List Opener} {text : List Char}
    (hopener : isOpener o.char = true) (hos : os ≠ []) (h : Closes (o :: os) text) :
    Closes os (o.char :: text) := by
  cases h with
  | last => exact absurd rfl hos
  | @more _ _ inside rest hinside hrest =>
    have hgroup : Balanced (fun _ => True) (o.char :: (inside ++ [counterpart o.char])) :=
      .bracketed hopener rfl hinside
    have := hrest.append hgroup
    simpa using this

/-- A scan for the end of a group passes over a quoted text as a whole. -/
theorem closing_quoted_eq_ok {os : List Opener} (hos : os ≠ []) {i : Nat} {quote : Char}
    (hquote : isQuote quote = true) {rest inside : List Char} {after : Span}
    (h : (plain os).closing i (quote :: rest) = .ok (inside, after)) :
    ∃ (body text : List Char) (behind : Span), Quotable quote body ∧
      rest = body ++ quote :: behind.chars ∧
      (plain os).closing behind.start behind.chars = .ok (text, after) ∧
      inside = quote :: (body ++ [quote]) ++ text := by
  obtain ⟨_, rfl, hclosing⟩ := closing_step_eq_ok (step_quote hquote) (by simp) h
  rw [closing_of_quoted hos] at hclosing
  cases hbody : (quoted [] quote i false).closing (i + 1) rest with
  | error fault => simp [hbody, bind, Except.bind] at hclosing
  | ok found =>
    obtain ⟨body, behind⟩ := found
    obtain ⟨hquotable, rfl⟩ := quotable_of_closing hbody
    cases hmore : (plain os).closing behind.start behind.chars with
    | error fault => simp [hbody, hmore, Except.map, bind, Except.bind] at hclosing
    | ok found =>
      obtain ⟨text, behind'⟩ := found
      have htake : (body ++ quote :: behind.chars).take (body.length + 1) = body ++ [quote] := by
        rw [List.append_cons]
        exact List.take_left' (by simp)
      simp only [hbody, hmore, Except.map, bind, Except.bind, ahead, htake, Except.ok.injEq,
        Prod.mk.injEq] at hclosing
      obtain ⟨rfl, rfl⟩ := hclosing
      exact ⟨body, text, behind, hquotable, rfl, hmore, rfl⟩

/-- What a scan for the end of a group has run over closes all that was open. -/
theorem closes_of_closing {os : List Opener} (hos : os ≠ []) {i : Nat} {cs inside : List Char}
    {after : Span} (h : (plain os).closing i cs = .ok (inside, after)) :
    Closes os inside ∧ cs = inside ++ counterpart (os.getLast hos).char :: after.chars := by
  match cs with
  | [] => simp [closing] at h
  | c :: rest =>
    cases hq : isQuote c with
    | true =>
      obtain ⟨body, text, behind, hbody, hrest, hmore, rfl⟩ := closing_quoted_eq_ok hos hq h
      have hlt : behind.chars.length < (c :: rest).length := by
        simp only [hrest, List.length_cons, List.length_append]
        omega
      obtain ⟨hcloses, hchars⟩ := closes_of_closing hos hmore
      exact ⟨hcloses.append (.literal hq hbody), by rw [hrest, hchars]; simp⟩
    | false =>
      cases ho : isOpener c with
      | true =>
        obtain ⟨text, rfl, hmore⟩ := closing_step_eq_ok (step_opener ho) (by simp) h
        obtain ⟨hcloses, hchars⟩ := closes_of_closing (by simp) hmore
        rw [List.getLast_cons hos] at hchars
        exact ⟨hcloses.group ho hos, by rw [hchars]; rfl⟩
      | false =>
        cases hc : isCloser c with
        | true =>
          obtain ⟨o, os', rfl⟩ := List.exists_cons_of_ne_nil hos
          by_cases hmatch : counterpart o.char = c
          · have hstep : (plain (o :: os')).step i c = .ok (plain os') := by
              simp [step, hq, ho, hc, hmatch]
            by_cases hlast : os' = []
            · subst hlast
              rw [closing_end hstep] at h
              obtain ⟨rfl, rfl⟩ := Prod.mk.inj (Except.ok.inj h)
              exact ⟨.last .nil, by rw [← hmatch]; rfl⟩
            · obtain ⟨text, rfl, hmore⟩ := closing_step_eq_ok hstep (by simpa using hlast) h
              obtain ⟨hcloses, hchars⟩ := closes_of_closing hlast hmore
              rw [List.getLast_cons hlast]
              refine ⟨?_, by rw [hchars]; rfl⟩
              rw [← hmatch]
              exact .more .nil hcloses
          · have hstep : (plain (o :: os')).step i c = .error ⟨.mismatched c, i⟩ := by
              simp [step, hq, ho, hc, hmatch]
            rw [closing_error hstep] at h
            cases h
        | false =>
          have hord : isOrdinary c = true := by simp [isOrdinary, hq, ho, hc]
          obtain ⟨text, rfl, hmore⟩ :=
            closing_step_eq_ok (step_ordinary hord) (by simpa using hos) h
          obtain ⟨hcloses, hchars⟩ := closes_of_closing hos hmore
          have hsingle : Balanced (fun _ => True) [c] := .bare hord trivial .nil
          exact ⟨hcloses.append hsingle, by rw [hchars]; rfl⟩
termination_by cs.length

/-- A group ends where its brackets match. -/
theorem closing_eq_ok_iff {o : Opener} (hopener : isOpener o.char = true) {i : Nat}
    {cs inside : List Char} {after : Span} :
    (plain [o]).closing i cs = .ok (inside, after) ↔
      Balanced (fun _ => True) inside ∧ cs = inside ++ counterpart o.char :: after.chars ∧
        after.start = i + inside.length + 1 := by
  constructor
  · intro h
    obtain ⟨hcloses, hchars⟩ := closes_of_closing (by simp) h
    obtain ⟨-, -, hstart⟩ := closing_eq_ok h
    refine ⟨?_, hchars, hstart⟩
    cases hcloses with
    | last hinside => exact hinside
    | more _ hrest => cases hrest
  · rintro ⟨hinside, rfl, hstart⟩
    rw [closing_group hopener hinside, ← hstart]

/-- While nothing is open, only a quote or an opening bracket changes what is open. -/
theorem step_bare {i : Nat} {c : Char} (hquote : isQuote c = false) (hopener : isOpener c = false) :
    (plain []).step i c = .ok (plain []) := by
  simp [step, hquote, hopener]

/-- The scan for separators runs over a shut text in which none stands bare. -/
theorem split_shut {bare : Char → Prop} {separator : Char}
    (hsep : isOrdinary separator = true) {w : List Char} (h : Shut bare w)
    (hbare : ∀ c, bare c → c ≠ separator) (i : Nat) (rest : List Char) :
    (plain []).split separator i (w ++ rest) =
      ((plain []).split separator (i + w.length) rest).map (leading i w) := by
  -- A quoted text or a group is balanced, and the scan runs over it as a whole.
  have hword : ∀ {word w : List Char}, Balanced (fun _ => False) word →
      (∀ i, (plain []).split separator i (w ++ rest) =
        ((plain []).split separator (i + w.length) rest).map (leading i w)) →
      ∀ i, (plain []).split separator i (word ++ (w ++ rest)) =
        ((plain []).split separator (i + (word ++ w).length) rest).map (leading i (word ++ w)) := by
    intro word w hbalanced hmore i
    rw [split_balanced hsep hbalanced [] (by simp), hmore, map_leading_leading, List.length_append,
      Nat.add_assoc]
  induction h generalizing i with
  | nil => exact (map_leading_nil _ _ _ _).symm
  | bare hquote hopener hc _ ih =>
    rw [List.cons_append, split_step (fun h => hbare _ hc h.2) (step_bare hquote hopener), ih,
      map_leading_leading]
    simp [Nat.add_assoc, Nat.add_comm 1]
  | quoted hquote hbody _ ih => simpa using hword (.literal hquote hbody) ih i
  | group hopener hinside _ ih => simpa using hword (.bracketed hopener rfl hinside) ih i

/-- The text from `i` on is cut into parts, with one separator between neighbours and none that
stands bare in any of them. -/
inductive Parted (separator : Char) : Nat → List Char → Span → List Span → Prop where
  | last {i : Nat} {text : List Char} (htext : Shut (· ≠ separator) text) :
      Parted separator i text ⟨i, text⟩ []
  | more {i : Nat} {part rest : List Char} {head : Span} {tail : List Span}
      (hpart : Shut (· ≠ separator) part)
      (hrest : Parted separator (i + part.length + 1) rest head tail) :
      Parted separator i (part ++ separator :: rest) ⟨i, part⟩ (head :: tail)

theorem Parted.front {separator : Char} {i : Nat} {w rest : List Char} {head : Span}
    {tail : List Span} (h : Parted separator (i + w.length) rest head tail)
    (hw : Shut (· ≠ separator) w) :
    Parted separator i (w ++ rest) ⟨i, w ++ head.chars⟩ tail := by
  cases h with
  | last htext => exact .last (hw.append htext)
  | @more _ part rest head tail hpart hrest =>
    rw [← List.append_assoc]
    refine .more (hw.append hpart) ?_
    rwa [List.length_append, ← Nat.add_assoc]

/-- A scan for separators cuts a text at all of those that stand bare. -/
theorem parted_of_split {separator : Char} {i : Nat} {cs : List Char} {head : Span}
    {tail : List Span} (h : (plain []).split separator i cs = .ok (head, tail)) :
    Parted separator i cs head tail := by
  match cs with
  | [] =>
    obtain ⟨rfl, rfl⟩ := Prod.mk.inj (Except.ok.inj h)
    exact .last .nil
  | c :: rest =>
    by_cases hsep : c = separator
    · subst hsep
      rw [split, if_pos ⟨rfl, rfl⟩] at h
      obtain ⟨⟨head', tail'⟩, hmore, heq⟩ := Fault.map_eq_ok h
      obtain ⟨rfl, rfl⟩ := Prod.mk.inj heq
      exact .more .nil (parted_of_split hmore)
    · -- What is open behind the character is closed before the next cut.
      have hopens : ∀ n : Nesting, n ≠ plain [] → (plain []).step i c = .ok n →
          (∀ inside after, n.closing (i + 1) rest = .ok (inside, after) →
            Shut (· ≠ separator) (c :: rest.take (inside.length + 1))) →
          Parted separator i (c :: rest) head tail := by
        intro n hn hstep hshut
        rw [split_step (fun h => hsep h.2) hstep, split_of_open separator hn] at h
        cases hclosing : n.closing (i + 1) rest with
        | error fault => simp [hclosing, Except.map, bind, Except.bind] at h
        | ok found =>
          obtain ⟨inside, after⟩ := found
          have htake := take_of_closing hclosing
          obtain ⟨d, hd, hstart⟩ := closing_eq_ok hclosing
          cases hmore : (plain []).split separator after.start after.chars with
          | error fault => simp [hclosing, hmore, Except.map, bind, Except.bind] at h
          | ok parts =>
            obtain ⟨head', tail'⟩ := parts
            simp only [hclosing, hmore, Except.map, bind, Except.bind, leading, Except.ok.injEq,
              Prod.mk.injEq] at h
            obtain ⟨rfl, rfl⟩ := h
            have hlength : (rest.take (inside.length + 1)).length = inside.length + 1 := by
              simp [hd]
            have hlt : after.chars.length < (c :: rest).length := by
              simp only [hd, List.length_cons, List.length_append]
              omega
            have hrest : Parted separator (i + (c :: rest.take (inside.length + 1)).length)
                after.chars head' tail' := by
              have := parted_of_split hmore
              rw [hstart, Nat.add_assoc, Nat.add_assoc, Nat.add_comm 1] at this
              rwa [List.length_cons, hlength]
            have hfront := hrest.front (hshut inside after hclosing)
            rwa [List.cons_append, ← htake] at hfront
      cases hq : isQuote c with
      | true =>
        refine hopens _ (by simp) (step_quote hq) fun inside after hclosing => ?_
        obtain ⟨hbody, hrest⟩ := quotable_of_closing hclosing
        rw [hrest, List.append_cons, List.take_left' (by simp)]
        exact .quoted hq hbody .nil
      | false =>
        cases ho : isOpener c with
        | true =>
          refine hopens _ (by simp) (step_opener ho) fun inside after hclosing => ?_
          have hfirst : isOpener (Opener.mk c i).char = true := ho
          obtain ⟨hinside, hrest, -⟩ := (closing_eq_ok_iff hfirst).mp hclosing
          rw [hrest, List.append_cons, List.take_left' (by simp)]
          exact .group ho hinside .nil
        | false =>
          rw [split_step (fun h => hsep h.2) (step_bare hq ho)] at h
          obtain ⟨⟨head', tail'⟩, hmore, heq⟩ := Fault.map_eq_ok h
          obtain ⟨rfl, rfl⟩ := Prod.mk.inj heq
          exact Parted.front (w := [c]) (parted_of_split hmore) (.bare hq ho hsep .nil)
termination_by cs.length

/-- What is cut at its separators is what a scan for them finds. -/
theorem split_of_parted {separator : Char} (hsep : isOrdinary separator = true) {i : Nat}
    {text : List Char} {head : Span} {tail : List Span} (h : Parted separator i text head tail) :
    (plain []).split separator i text = .ok (head, tail) := by
  induction h with
  | @last i text htext =>
    have hsplit := split_shut hsep htext (fun _ h => h) i []
    rw [List.append_nil] at hsplit
    rw [hsplit]
    simp [split, unclosed, Except.map, leading]
  | @more i part rest head tail hpart _ ih =>
    rw [split_shut hsep hpart (fun _ h => h), split, if_pos ⟨rfl, rfl⟩, ih]
    simp [Except.map, leading]

theorem Parted.shift {separator : Char} {i : Nat} {text : List Char} {head : Span}
    {tail : List Span} (h : Parted separator i text head tail) (j : Nat) :
    ∃ head' tail', Parted separator j text head' tail' ∧
      (head' :: tail').map Span.chars = (head :: tail).map Span.chars := by
  induction h generalizing j with
  | last htext => exact ⟨_, _, .last htext, rfl⟩
  | @more i part rest head tail hpart _ ih =>
    obtain ⟨head', tail', hparted, hchars⟩ := ih (j + part.length + 1)
    exact ⟨_, _, .more hpart hparted, congrArg (part :: ·) hchars⟩

/-- A separator in front of which nothing is open ends a part, and is not the end of the text. -/
theorem split_cuts {separator : Char} (hsep : isOrdinary separator = true) {u : List Char}
    (h : Shut (fun _ => True) u) {i : Nat} {rest : List Char} {head : Span} {tail : List Span}
    (hsplit : (plain []).split separator i (u ++ separator :: rest) = .ok (head, tail)) :
    tail ≠ [] ∧ ∃ p ∈ head :: tail, p.stop = i + u.length := by
  -- A stretch in front of the parts changes where the first one starts, and not where they end.
  have hfront : ∀ {w cs : List Char} {i : Nat} {head : Span} {tail : List Span} {last : Nat},
      ((plain []).split separator (i + w.length) cs).map (leading i w) = .ok (head, tail) →
      (∀ {head' : Span} {tail' : List Span},
        (plain []).split separator (i + w.length) cs = .ok (head', tail') →
        tail' ≠ [] ∧ ∃ p ∈ head' :: tail', p.stop = last) →
      tail ≠ [] ∧ ∃ p ∈ head :: tail, p.stop = last := by
    intro w cs i head tail last hparts hmore
    obtain ⟨⟨head', tail'⟩, hcs, heq⟩ := Fault.map_eq_ok hparts
    obtain ⟨rfl, rfl⟩ := Prod.mk.inj heq
    have hstart := start_split hcs
    obtain ⟨hne, p, hp, hlast⟩ := hmore hcs
    refine ⟨hne, ?_⟩
    rcases List.mem_cons.mp hp with rfl | hp
    · refine ⟨_, List.mem_cons_self, ?_⟩
      rw [← hlast]
      simp only [Span.stop, Span.length, hstart, List.length_append]
      omega
    · exact ⟨p, List.mem_cons_of_mem _ hp, hlast⟩
  induction h generalizing i head tail with
  | nil =>
    rw [List.nil_append, split, if_pos ⟨rfl, rfl⟩] at hsplit
    obtain ⟨parts, -, heq⟩ := Fault.map_eq_ok hsplit
    obtain ⟨rfl, rfl⟩ := Prod.mk.inj heq
    exact ⟨by simp, _, List.mem_cons_self, rfl⟩
  | @bare c w hquote hopener _ _ ih =>
    rw [List.cons_append] at hsplit
    by_cases hc : c = separator
    · rw [split, if_pos ⟨rfl, hc⟩] at hsplit
      obtain ⟨parts, hmore, heq⟩ := Fault.map_eq_ok hsplit
      obtain ⟨rfl, rfl⟩ := Prod.mk.inj heq
      obtain ⟨-, p, hp, hlast⟩ := ih hmore
      exact ⟨by simp, p, List.mem_cons_of_mem _ hp, by rw [hlast, List.length_cons]; omega⟩
    · rw [split_step (fun h => hc h.2) (step_bare hquote hopener)] at hsplit
      refine hfront (w := [c]) hsplit fun hmore => ?_
      rw [List.length_cons, Nat.add_comm w.length, ← Nat.add_assoc]
      exact ih hmore
  | @quoted quote body w hquote hbody _ ih =>
    have hword : Balanced (fun _ => False) (quote :: (body ++ [quote])) := .literal hquote hbody
    have hwhole : quote :: (body ++ quote :: w) = (quote :: (body ++ [quote])) ++ w := by simp
    rw [hwhole, List.append_assoc, split_balanced hsep hword [] (by simp)] at hsplit
    refine hfront hsplit fun hmore => ?_
    rw [hwhole, List.length_append, ← Nat.add_assoc]
    exact ih hmore
  | @group opener inside w hopener hinside _ ih =>
    have hword : Balanced (fun _ => False) (opener :: (inside ++ [counterpart opener])) :=
      .bracketed hopener rfl hinside
    have hwhole : opener :: (inside ++ counterpart opener :: w) =
        (opener :: (inside ++ [counterpart opener])) ++ w := by simp
    rw [hwhole, List.append_assoc, split_balanced hsep hword [] (by simp)] at hsplit
    refine hfront hsplit fun hmore => ?_
    rw [hwhole, List.length_append, ← Nat.add_assoc]
    exact ih hmore

end Nesting

end TreePath

import TreePath.Error
import TreePath.Proofs.Path.Image
import TreePath.Proofs.Path.Positions

namespace TreePath

open Text (isBlank)
open Nesting (isQuote isOpener isOrdinary)

namespace Span

theorem start_eq_stop_iff {s : Span} : s.start = s.stop ↔ s.chars = [] := by
  rw [← List.length_eq_zero_iff]
  simp only [stop, length]
  omega

theorem dropEndBlanks_dropEndBlanks (cs : List Char) :
    dropEndBlanks (dropEndBlanks cs) = dropEndBlanks cs := by
  induction cs with
  | nil => rfl
  | cons c rest ih =>
    rw [dropEndBlanks]
    split
    · split
      · rfl
      · next hc => simp [dropEndBlanks, hc]
    · rw [dropEndBlanks, ih]
      split
      · contradiction
      · rfl

theorem skipBlanks_nil {s : Span} (hs : s.chars = []) : s.skipBlanks = s := by
  obtain ⟨start, chars⟩ := s
  change chars = [] at hs
  subst hs
  rfl

theorem trim_trim (s : Span) : s.trim.trim = s.trim := by
  have hskip : s.trim.skipBlanks = s.trim := by
    by_cases hnil : s.trim.chars = []
    · exact skipBlanks_nil hnil
    · obtain ⟨c, rest, hc, hblank⟩ := startsVisibly_trim hnil
      exact Parser.skipBlanks_eq hc hblank
  have hend : dropEndBlanks s.trim.chars = s.trim.chars := dropEndBlanks_dropEndBlanks _
  rw [trim, hskip, hend]

end Span

/-- What a stretch of the text ends with. -/
theorem Between.endOf {cs : List Char} {s t : Span} {stop : Nat}
    (h : Between cs s.start stop s.chars) (ht : t.EndOf s) : Between cs t.start stop t.chars := by
  obtain rfl : s.stop = stop := h.stop_eq
  exact ht.stop_eq ▸ Span.In.sub h ht.sub

namespace Scan

section Parts

variable {cs rest : List Char} {s : Span} {c separator : Char}

theorem trim_eq (h : s.In cs) : trim cs s.start s.stop = pure (s.trim.start, s.trim.stop) := by
  have hskip : Between cs s.skipBlanks.start s.stop s.skipBlanks.chars :=
    Between.endOf h (s.endOf_dropWhile isBlank)
  rw [trim, checkRange_eq h, pure_bind, skipBlanks_eq h, pure_bind]
  exact congrArg (· >>= _) (dropBlanks_eq hskip)

/-- A group, by the position of its closing bracket. -/
theorem group_agrees (h : s.In cs) (hs : s.chars = c :: rest) (ho : isOpener c = true) :
    Agrees cs (findClose cs s.start s.stop) (s.group.map fun g => g.inside.stop) := by
  have hlast : (s.group.map fun g => g.inside.stop) = s.group.map fun g => g.rest.start - 1 := by
    cases hg : s.group with
    | error fault => rfl
    | ok g =>
      obtain ⟨-, -, -, hstop⟩ := Span.group_sub hg
      exact congrArg Except.ok (Nat.eq_sub_of_add_eq hstop)
  rw [hlast, Span.group_map hs fun _ rest => rest.start - 1]
  exact findClose_agrees (hs ▸ h) ho

theorem enclosed_sub {t : { t : Span // t.length + 2 = s.length }}
    (h : s.enclosed = .ok (some t)) : t.1.Sub s ∧ t.1.start = s.start + 1 := by
  unfold Span.enclosed at h
  split at h
  · cases h
  · next hg =>
    split at h
    · obtain rfl := Option.some.inj (Except.ok.inj h)
      obtain ⟨hsub, -, hstart, -⟩ := Span.group_sub hg
      exact ⟨hsub, hstart⟩
    · cases h

theorem enclosed_agrees (h : s.In cs) (hs : s.chars = c :: rest) (ho : isOpener c = true) :
    Agrees cs (enclosed cs s.start s.stop)
      (s.enclosed.map fun found => found.map fun t => t.1.stop) := by
  have hmap : (s.enclosed.map fun found => found.map fun t => t.1.stop) = s.group >>= fun g =>
      .ok (if g.inside.stop + 1 = s.stop then some g.inside.stop else none) := by
    unfold Span.enclosed
    cases hg : s.group with
    | error fault => rfl
    | ok g =>
      obtain ⟨-, hrest, -, hlast⟩ := Span.group_sub hg
      have hstop := hrest.stop_eq
      simp only [Span.stop] at hstop hlast
      by_cases hzero : g.rest.length = 0
      · have : g.inside.stop + 1 = s.stop := by
          simp only [Span.stop]
          omega
        simp only [dif_pos hzero, bind, Except.bind, if_pos this]
        rfl
      · have : g.inside.stop + 1 ≠ s.stop := by
          simp only [Span.stop]
          omega
        simp only [dif_neg hzero, bind, Except.bind, if_neg this]
        rfl
  rw [hmap, enclosed]
  exact (group_agrees h hs ho).bind fun g _ => .ofPure _

/-- A group that is all of a stretch is read from its inside, and anything else in another way. -/
theorem enclosed_or_agrees {α : Type} {k : Nat → Scan α} {g : Span → Except Fault α} {x : Scan α}
    {y : Except Fault α} (h : s.In cs) (hs : s.chars = c :: rest) (ho : isOpener c = true)
    (hinside : ∀ t : Span, t.length + 2 = s.length → t.start = s.start + 1 → t.In cs →
      Agrees cs (k t.stop) (g t)) (helse : Agrees cs x y) :
    Agrees cs (do
        match ← enclosed cs s.start s.stop with
        | some last => k last
        | none => x)
      (do
        match ← s.enclosed with
        | some inside => g inside.1
        | none => y) := by
  refine (enclosed_agrees h hs ho).bind fun found hfound => ?_
  match found with
  | none => exact helse
  | some t =>
    obtain ⟨hsub, hstart⟩ := enclosed_sub hfound
    exact hinside t.1 t.2 hstart (h.sub hsub)

theorem split_agrees (h : s.In cs) (hsep : isOrdinary separator = true) :
    Agrees cs (split cs separator s.start s.stop)
      ((s.split separator).map fun p => p.toList.map Span.ends) := by
  have hagrees := splitFrom_agrees hsep h [] s.start
  have hmap := Span.split_map (s := s) separator fun head tail => (head :: tail).map Span.ends
  rw [split, checkRange_eq h, pure_bind]
  refine Eq.subst (motive := fun y => Agrees cs _ y) (Eq.trans ?_ hmap.symm) hagrees
  cases hsplit : (Nesting.plain []).split separator s.start s.chars with
  | error fault => rfl
  | ok found =>
    have hstart := Nesting.start_split hsplit
    simp [Except.map, Span.ends, hstart]

theorem cut_agrees (h : s.In cs) (hsep : isOrdinary separator = true) :
    Agrees cs (cut cs separator s.start s.stop)
      ((s.cut separator).map fun found => found.map fun c => c.before.stop) := by
  have hmap : ((s.cut separator).map fun found => found.map fun c => c.before.stop) =
      s.split separator >>= fun p => .ok p.firstStop? := by
    rw [Span.cut_map]
    cases s.split separator <;> rfl
  rw [hmap, cut]
  refine (split_agrees h hsep).bind fun p _ => ?_
  obtain ⟨head, tail, _⟩ := p
  cases tail <;> exact .ofPure _

theorem hasCut_eq (h : s.In cs) (hsep : isOrdinary separator = true) :
    hasCut cs separator s.start s.stop = pure (s.hasCut separator) := by
  rw [hasCut, (cut_agrees h hsep).eq, Span.hasCut]
  cases s.cut separator with
  | error fault => rfl
  | ok found => cases found <;> rfl

theorem anyCut_eq {parts : List Span} (h : ∀ t ∈ parts, t.In cs) :
    anyCut cs (parts.map Span.ends) = pure (parts.any (·.hasCut ':')) := by
  induction parts with
  | nil => rfl
  | cons t parts ih =>
    rw [List.map_cons, Span.ends, anyCut, hasCut_eq (h t List.mem_cons_self) rfl, pure_bind,
      List.any_cons, ih fun u hu => h u (List.mem_cons_of_mem t hu)]
    cases t.hasCut ':' <;> rfl

end Parts

section Slices

variable {cs : List Char} {s : Span}

theorem bound_agrees (h : s.In cs) :
    Agrees cs (bound cs s.start s.stop) (Slice.readBound s) := by
  have htrim := h.sub s.sub_trim
  have hposition := Nat.le_trans htrim.start_le htrim.stop_le
  rw [bound, trim_eq h, pure_bind, Slice.readBound]
  simp only [Span.start_eq_stop_iff, List.isEmpty_iff]
  by_cases hnil : s.trim.chars = []
  · rw [if_pos hnil, if_pos hnil]
    exact .ofPure _
  · rw [if_neg hnil, if_neg hnil, textOf_eq htrim, pure_bind]
    cases Key.isInteger s.trim.chars with
    | true =>
      cases positionOf? s.trim.chars with
      | some n => exact .ofPure _
      | none => exact .ofFail hposition
    | false => exact .ofFail hposition

theorem bounds_agrees {parts : List Span} (h : ∀ t ∈ parts, t.In cs) :
    Agrees cs (bounds cs (parts.map Span.ends)) (parts.mapM Slice.readBound) := by
  induction parts with
  | nil => exact .ofPure _
  | cons t parts ih =>
    rw [List.map_cons, List.mapM_cons, Span.ends, bounds]
    exact (bound_agrees (h t List.mem_cons_self)).next fun first _ =>
      (ih fun u hu => h u (List.mem_cons_of_mem t hu)).next fun rest _ => .ofPure _

theorem slice_agrees (h : s.In cs) :
    Agrees cs (slice cs s.start s.stop) (Slice.read s) := by
  have hposition := Nat.le_trans (Between.start_le h) h.stop_le
  rw [slice, Slice.read]
  refine (split_agrees h rfl).bind fun p hp => ?_
  have hparts : ∀ t ∈ p.toList, t.In cs := fun t ht => h.sub (Span.split_sub hp t ht)
  rw [List.length_map]
  by_cases hlength : 3 < p.toList.length
  · rw [if_pos hlength, if_pos hlength]
    exact .ofFail hposition
  · rw [if_neg hlength, if_neg hlength]
    refine (bounds_agrees hparts).next fun bounds _ => ?_
    simp only
    by_cases hzero : (bounds[2]?).join = some 0
    · rw [if_pos hzero, if_pos hzero]
      exact .ofFail hposition
    · rw [if_neg hzero, if_neg hzero]
      exact .ofPure _

end Slices

section Rules

variable {cs : List Char} {s : Span} {stop : Nat}

theorem selectorTag_error {start : Nat} {name : List Char} {fault : Fault}
    (h : Parser.selectorTag start name = .error fault) : fault.position = start := by
  unfold Parser.selectorTag at h
  split at h
  · cases h
  · obtain rfl := Except.error.inj h
    rfl

theorem readMarked_error {fault : Fault} (h : Expected.readMarked s = .error fault) :
    fault.position = s.start := by
  unfold Expected.readMarked at h
  split at h
  · cases h
  · obtain rfl := Except.error.inj h
    rfl

theorem bind_front {α : Type} (y : Except Fault (List α)) (front : List α) :
    (y >>= fun p => pure (front ++ p)) = y.map (front ++ ·) := by
  cases y <;> rfl

/-- What was done in front is there in the end. -/
theorem map_done {α : Type} (y : Except Fault (List α)) (done front : List α) :
    (y >>= fun p => pure (front ++ p)).map (done ++ ·) = y.map (done ++ front ++ ·) := by
  cases y with
  | error fault => rfl
  | ok p => exact congrArg Except.ok (List.append_assoc done front p).symm

theorem map_nothing {α : Type} (y : Except Fault (List α)) : y.map ([] ++ ·) = y := by
  cases y <;> rfl

theorem skipBlanks_start (h : Between cs s.start stop s.chars) :
    skipBlanks cs s.start stop = pure s.skipBlanks.start :=
  skipBlanks_eq h

theorem skipSeparators_start (h : Between cs s.start stop s.chars) :
    (skipBlanks cs s.start stop >>= fun i => skipSlashes cs i stop) =
      pure s.skipSeparators.start :=
  skipSeparators_eq h

theorem following_eq (h : Between cs s.start stop s.chars)
    (hbracket : ∀ rest, s.chars = '[' :: rest → False) (calls : Nat) (done : Path) :
    following cs (calls + 1) done s.start stop =
      if s.skipBlanks.start < stop then do
        let c ← charAt cs s.skipBlanks.start
        if c = '/' ∨ c = '.' then hops cs calls done (s.skipBlanks.start + 1) stop
        else fail (.unexpected c) s.skipBlanks.start
      else pure done := by
  cases hs : s.chars with
  | nil =>
    have hend := (hs ▸ h : Between cs s.start stop []).not_lt
    have hskip : s.skipBlanks.start = s.start := by
      simp [Span.skipBlanks, Span.dropWhile, hs]
    rw [following, if_neg hend, hskip, if_neg hend]
  | cons c rest =>
    have hfirst : Between cs s.start stop (c :: rest) := hs ▸ h
    have hc : c ≠ '[' := by
      rintro rfl
      exact hbracket rest hs
    rw [following, if_pos hfirst.lt, charAt_eq hfirst, pure_bind, if_neg hc, skipBlanks_start h,
      pure_bind]

theorem stop_sub_start {i : Nat} {c : Char} {rest : List Char}
    (h : Between cs i stop (c :: rest)) : stop - i = 1 ↔ rest = [] := by
  have := h.stop_eq
  rw [List.length_cons] at this
  rw [← List.length_eq_zero_iff]
  omega

theorem selector_eq_error {rest : List Char} (hs : s.chars = '?' :: rest)
    (hbrace : ∀ more, rest ≠ '{' :: more) :
    Parser.selector s = .error ⟨.expectedBraces, s.start⟩ := by
  rw [Parser.selector, hs]
  split
  · next heq => cases heq
  · next heq => cases heq
  · next heq => exact absurd (List.cons.inj heq).2 (hbrace _)
  · rfl
  all_goals simp_all

/-- A selector that none of the other rules is for. -/
theorem selector_eq_spliced {c : Char} {rest : List Char} (hs : s.chars = c :: rest)
    (hstar : ¬(rest = [] ∧ c = '*')) (hc : c ∉ ['?', '{', '[', '(']) :
    Parser.selector s = Parser.spliced s := by
  have hother : ∀ {d : Char} {more : List Char}, s.chars = d :: more → c = d := fun heq =>
    (List.cons.inj (hs.symm.trans heq)).1
  rw [Parser.selector]
  split
  · next heq => simp [hs] at heq
  · next heq =>
    obtain ⟨rfl, rfl⟩ := List.cons.inj (hs.symm.trans heq)
    exact absurd ⟨rfl, rfl⟩ hstar
  · next heq => simp [hother heq] at hc
  · next heq => simp [hother heq] at hc
  · next heq => simp [hother heq] at hc
  · next heq => simp [hother heq] at hc
  · next heq => simp [hother heq] at hc
  · rfl

/-- A value that none of the other rules is for. -/
theorem expected_eq_bare {c : Char} {rest : List Char} (hs : s.chars = c :: rest)
    (hc : c ∉ ['{', '=', '\'']) (hquestion : c = '?' → ∀ more, rest ≠ '{' :: more) :
    Parser.expected s = .ok (Expected.ofBare s.chars) := by
  have hother : ∀ {d : Char} {more : List Char}, s.chars = d :: more → c = d := fun heq =>
    (List.cons.inj (hs.symm.trans heq)).1
  rw [Parser.expected]
  split
  · next heq => simp [hs] at heq
  · next heq =>
    obtain ⟨rfl, rfl⟩ := List.cons.inj (hs.symm.trans heq)
    exact absurd rfl (hquestion rfl _)
  · next heq => simp [hother heq] at hc
  · next heq => simp [hother heq] at hc
  · next heq => simp [hother heq] at hc
  · rfl

-- The induction is on the calls. Six of them for each character are enough: a rule that calls another
-- one on a stretch that is not shorter has more of them left over.
mutual

theorem path_agrees {s : Span} {stop calls : Nat} (h : Between cs s.start stop s.chars)
    (hcalls : 6 * s.length + 3 < calls) :
    Agrees cs (path cs calls s.start stop) (Parser.path s) := by
  match calls, hcalls with
  | calls + 1, hcalls =>
    have hskip : Between cs s.skipBlanks.start stop s.skipBlanks.chars :=
      h.endOf (s.endOf_dropWhile isBlank)
    have hlength := s.length_skipBlanks_le
    have hdrop := s.skipBlanks.length_drop 1
    have hfewer : 6 * s.skipBlanks.length + 2 < calls := by omega
    have hplain := hops_agrees hskip hfewer []
    rw [map_nothing] at hplain
    rw [path, checkRange_eq h, pure_bind, skipBlanks_start h, pure_bind, Parser.path]
    cases hs : s.skipBlanks.chars with
    | nil =>
      rw [hs] at hskip
      rw [if_neg hskip.not_lt]
      exact hplain
    | cons c rest =>
      have hfirst : Between cs s.skipBlanks.start stop (c :: rest) := hs ▸ hskip
      rw [if_pos hfirst.lt, charAt_eq hfirst, pure_bind]
      by_cases hc : c = '/'
      · subst hc
        have htail : Between cs (s.skipBlanks.drop 1).start stop (s.skipBlanks.drop 1).chars := by
          rw [Span.drop_one hs]
          exact hfirst.tail
        rw [if_pos rfl]
        exact bind_front _ [Segment.tag .root] ▸ hops_agrees htail (by omega) [Segment.tag .root]
      · rw [if_neg hc]
        split
        · next heq => exact absurd (List.cons.inj heq).1 hc
        · exact hplain
termination_by structural calls

theorem hops_agrees {s : Span} {stop calls : Nat} (h : Between cs s.start stop s.chars)
    (hcalls : 6 * s.length + 2 < calls) (done : Path) :
    Agrees cs (hops cs calls done s.start stop) ((Parser.hops s).map (done ++ ·)) := by
  match calls, hcalls with
  | calls + 1, hcalls =>
    have hskip : Between cs s.skipSeparators.start stop s.skipSeparators.chars :=
      h.endOf (s.endOf_dropWhile _)
    have hlength : s.skipSeparators.length ≤ s.length := s.length_dropWhile_le _
    rw [hops, ← bind_assoc, skipSeparators_start h, pure_bind, Parser.hops]
    cases hs : s.skipSeparators.chars with
    | nil =>
      rw [hs] at hskip
      rw [if_neg hskip.not_lt]
      change Agrees cs _ (.ok (done ++ []))
      rw [List.append_nil]
      exact .ofPure _
    | cons c rest =>
      have hfirst : Between cs s.skipSeparators.start stop (c :: rest) := hs ▸ hskip
      rw [if_pos hfirst.lt, charAt_eq hfirst, pure_bind]
      by_cases hc : c = '['
      · subst hc
        rw [if_pos rfl]
        exact brackets_agrees hskip (by omega) hs done fun t ht hshorter =>
          following_agrees (hskip.endOf ht) (by omega)
      · have hvisible := Parser.startsHop_skipSeparators hs
        obtain rfl : s.skipSeparators.stop = stop := hskip.stop_eq
        rw [if_neg hc]
        split
        · next heq => cases heq
        · next heq => exact absurd (List.cons.inj heq).1 hc
        · rw [Fault.map_bind]
          refine (hop_agrees hskip hs hvisible.1 hvisible.2 hc).bind fun hop hhop => ?_
          have hrest := hskip.endOf (Span.endOf_hop hhop)
          have hshorter := hop.shorter
          exact map_done _ done [hop.segment] ▸
            following_agrees hrest (by omega) (done ++ [hop.segment])
termination_by structural calls

/-- Brackets and what follows them, if the scans agree on what follows. -/
theorem brackets_agrees {s : Span} {stop calls : Nat} {rest : List Char}
    (h : Between cs s.start stop s.chars)
    (hcalls : 6 * s.length < calls) (hs : s.chars = '[' :: rest) (done : Path)
    (hfollowing : ∀ t : Span, t.EndOf s → t.length < s.length → ∀ done : Path,
      Agrees cs (following cs calls done t.start stop) ((Parser.following t).map (done ++ ·))) :
    Agrees cs (brackets cs calls s.start stop >>= fun found =>
        following cs calls (done ++ found.1) found.2 stop)
      ((Parser.brackets s).map (done ++ ·)) := by
  match calls, hcalls, hfollowing with
  | calls + 1, hcalls, hfollowing =>
    obtain rfl : s.stop = stop := h.stop_eq
    rw [brackets, Parser.brackets, bind_assoc, Fault.map_bind]
    refine (group_agrees h hs rfl).bind fun g hg => ?_
    obtain ⟨hinside, hrest, hstart, hlast⟩ := Span.group_sub hg
    rw [bind_assoc, Fault.map_bind, ← hstart, hlast]
    have hshorter := g.shorter
    refine (selector_agrees (Span.In.sub h hinside) (by omega)).next fun segments _ => ?_
    exact map_done _ done segments ▸ hfollowing g.rest hrest (by omega) (done ++ segments)
termination_by structural calls

theorem following_agrees {s : Span} {stop calls : Nat} (h : Between cs s.start stop s.chars)
    (hcalls : 6 * s.length + 1 < calls) (done : Path) :
    Agrees cs (following cs calls done s.start stop) ((Parser.following s).map (done ++ ·)) := by
  match calls, hcalls with
  | calls + 1, hcalls =>
    rw [Parser.following]
    split
    · next rest hs =>
      have hfirst : Between cs s.start stop ('[' :: rest) := hs ▸ h
      rw [following, if_pos hfirst.lt, charAt_eq hfirst, pure_bind, if_pos rfl]
      exact brackets_agrees h (by omega) hs done fun t ht hshorter =>
        following_agrees (h.endOf ht) (by omega)
    · next hbracket =>
      have hskip : Between cs s.skipBlanks.start stop s.skipBlanks.chars :=
        h.endOf (s.endOf_dropWhile isBlank)
      split
      · next hnil =>
        rw [hnil] at hskip
        rw [following_eq h hbracket calls, if_neg hskip.not_lt]
        change Agrees cs _ (.ok (done ++ []))
        rw [List.append_nil]
        exact .ofPure _
      · next c rest hs =>
        have hlength : rest.length < s.length := by
          have := s.length_skipBlanks_le
          rw [Span.length, hs, List.length_cons] at this
          exact this
        rw [hs] at hskip
        rw [following_eq h hbracket calls, if_pos hskip.lt, charAt_eq hskip, pure_bind]
        by_cases hc : c = '/' ∨ c = '.'
        · rw [if_pos hc, if_pos hc]
          exact hops_agrees (s := ⟨s.skipBlanks.start + 1, rest⟩) hskip.tail
            (by simp only [Span.length]; omega) done
        · rw [if_neg hc, if_neg hc]
          exact .ofFail (Nat.le_trans hskip.start_le hskip.stop_le)
termination_by structural calls

theorem selector_agrees {s : Span} {stop calls : Nat} (h : Between cs s.start stop s.chars)
    (hcalls : 6 * s.length + 5 < calls) :
    Agrees cs (selector cs calls s.start stop) (Parser.selector s.trim) := by
  match calls, hcalls with
  | calls + 1, hcalls =>
    obtain rfl : s.stop = stop := h.stop_eq
    have ht : s.trim.In cs := Span.In.sub h s.sub_trim
    have hlength := s.length_trim_le
    rw [selector, trim_eq h, pure_bind]
    simp only [Span.start_eq_stop_iff]
    generalize s.trim = t at ht hlength ⊢
    have hposition : t.start ≤ cs.length := Nat.le_trans (Between.start_le ht) ht.stop_le
    cases hs : t.chars with
    | nil =>
      rw [if_pos rfl, Parser.selector, hs]
      exact .ofFail hposition
    | cons c rest =>
      have hfirst : Between cs t.start t.stop (c :: rest) := hs ▸ ht
      have hone := stop_sub_start hfirst
      have hspliced : Agrees cs (spliced cs calls t.start t.stop) (Parser.spliced t) :=
        spliced_agrees ht (by omega) (by simp [hs])
      rw [if_neg (by simp), charAt_eq hfirst, pure_bind]
      by_cases hstar : t.stop - t.start = 1 ∧ c = '*'
      · rw [if_pos hstar, Parser.selector, hs, hone.mp hstar.1, hstar.2]
        exact .ofPure _
      rw [if_neg hstar]
      by_cases hquestion : c = '?'
      · subst hquestion
        rw [if_pos rfl]
        cases rest with
        | nil =>
          rw [if_neg hfirst.tail.not_lt, selector_eq_error hs (by simp)]
          exact .ofFail hposition
        | cons d more =>
          rw [if_pos hfirst.tail.lt, charAt_eq hfirst.tail, pure_bind]
          by_cases hd : d = '{'
          · subst hd
            have hdrop : (t.drop 1).EndOf t := Span.drop_one hs ▸ Span.endOf_tail hs
            have hinside := enclosed_agrees (ht.sub hdrop.sub)
              (show (t.drop 1).chars = '{' :: more by rw [Span.drop_one hs]) rfl
            rw [hdrop.stop_eq] at hinside
            rw [if_pos rfl, Parser.selector, hs]
            refine hinside.bind fun found hfound => ?_
            match found with
            | none => exact .ofFail hposition
            | some u =>
              obtain ⟨hsub, hstart⟩ := enclosed_sub hfound
              have hlt : u.1.length + 1 < s.length := by
                have := u.2
                have := t.length_drop 1
                omega
              have hfewer : 6 * (u.1.length + 1) + 1 < calls := by omega
              have hquery := query_agrees ((ht.sub hdrop.sub).sub hsub) hfewer
              rw [hstart] at hquery
              exact hquery.next fun q _ => .ofPure _
          · rw [if_neg hd, selector_eq_error hs (by simp [hd])]
            exact .ofFail hposition
      rw [if_neg hquestion]
      by_cases hbrace : c = '{'
      · subst hbrace
        rw [if_pos rfl, Parser.selector, hs]
        refine enclosed_or_agrees (k := fun last => return [← braces cs calls (t.start + 1) last])
          (g := fun u => return [← Parser.braces u.trim]) ht hs rfl
          (fun u hu hstart hin => ?_) hspliced
        rw [← hstart]
        exact (braces_agrees hin (by omega)).next fun segment _ => .ofPure _
      rw [if_neg hbrace]
      by_cases hbracket : c = '['
      · subst hbracket
        rw [if_pos rfl, Parser.selector, hs]
        refine enclosed_or_agrees
          (k := fun last => return [.union (← members cs calls (t.start + 1) last) false])
          (g := fun u => return [.union (← Parser.members u.trim) false]) ht hs rfl
          (fun u hu hstart hin => ?_) hspliced
        rw [← hstart]
        exact (members_agrees hin (by omega)).next fun ps _ => .ofPure _
      rw [if_neg hbracket]
      by_cases hparen : c = '('
      · subst hparen
        rw [if_pos rfl, Parser.selector, hs]
        refine enclosed_or_agrees
          (k := fun last => return [.tuple (← members cs calls (t.start + 1) last).flatten])
          (g := fun u => return [.tuple (← Parser.members u.trim).flatten]) ht hs rfl
          (fun u hu hstart hin => ?_) hspliced
        rw [← hstart]
        exact (members_agrees hin (by omega)).next fun ps _ => .ofPure _
      rw [if_neg hparen, selector_eq_spliced hs (fun h => hstar ⟨hone.mpr h.1, h.2⟩) (by simp [*])]
      exact hspliced
termination_by structural calls

theorem spliced_agrees {s : Span} {stop calls : Nat} (h : Between cs s.start stop s.chars)
    (hcalls : 6 * s.length + 4 < calls)
    (hne : s.chars ≠ []) : Agrees cs (spliced cs calls s.start stop) (Parser.spliced s) := by
  match calls, hcalls with
  | calls + 1, hcalls =>
    obtain rfl : s.stop = stop := h.stop_eq
    obtain ⟨c, rest, hs⟩ := List.exists_cons_of_ne_nil hne
    have hfirst : Between cs s.start s.stop (c :: rest) := hs ▸ h
    rw [spliced, Parser.spliced]
    refine (cut_agrees h rfl).bind fun found _ => ?_
    rw [Option.isSome_map]
    cases found.isSome with
    | true =>
      exact (slice_agrees h).next fun slice _ => .ofPure _
    | false =>
      rw [if_neg (by simp), if_neg (by simp), charAt_eq hfirst, pure_bind, hs]
      by_cases hc : c = '$'
      · subst hc
        rw [if_pos rfl, textOf_eq hfirst.tail, pure_bind]
        exact .ofExcept fun fault hfault =>
          selectorTag_error hfault ▸ Nat.le_trans hfirst.start_le hfirst.stop_le
      · rw [if_neg hc]
        split
        · next heq => exact absurd (List.cons.inj heq).1 hc
        · exact path_agrees h (by omega)
termination_by structural calls

theorem braces_agrees {s : Span} {stop calls : Nat} (h : Between cs s.start stop s.chars)
    (hcalls : 6 * (s.length + 1) + 2 < calls) :
    Agrees cs (braces cs calls s.start stop) (Parser.braces s.trim) := by
  match calls, hcalls with
  | calls + 1, hcalls =>
    obtain rfl : s.stop = stop := h.stop_eq
    have ht : s.trim.In cs := Span.In.sub h s.sub_trim
    have hlength := s.length_trim_le
    have hfewer : 6 * (s.trim.length + 1) + 1 < calls := by omega
    rw [braces, trim_eq h, pure_bind, Parser.braces]
    simp only [Span.start_eq_stop_iff, List.isEmpty_iff]
    by_cases hnil : s.trim.chars = []
    · rw [if_pos hnil, if_pos hnil]
      exact .ofPure _
    · rw [if_neg hnil, if_neg hnil]
      refine (split_agrees ht rfl).bind fun p hp => ?_
      rw [anyCut_eq fun t hmem => ht.sub (Span.split_sub hp t hmem), pure_bind]
      cases p.toList.any (·.hasCut ':') with
      | true =>
        have hquery := query_agrees (s := s.trim) ht hfewer
        rw [Span.trim_trim] at hquery
        exact hquery.next fun q _ => .ofPure _
      | false =>
        have hmembers := members_agrees (s := s.trim) ht hfewer
        rw [Span.trim_trim] at hmembers
        exact hmembers.next fun ps _ => .ofPure _
termination_by structural calls

theorem members_agrees {s : Span} {stop calls : Nat} (h : Between cs s.start stop s.chars)
    (hcalls : 6 * (s.length + 1) + 1 < calls) :
    Agrees cs (members cs calls s.start stop) (Parser.members s.trim) := by
  match calls, hcalls with
  | calls + 1, hcalls =>
    obtain rfl : s.stop = stop := h.stop_eq
    have ht : s.trim.In cs := Span.In.sub h s.sub_trim
    have hlength := s.length_trim_le
    rw [members, trim_eq h, pure_bind, Parser.members]
    simp only [Span.start_eq_stop_iff, List.isEmpty_iff]
    by_cases hnil : s.trim.chars = []
    · rw [if_pos hnil, if_pos hnil]
      exact .ofPure _
    · rw [if_neg hnil, if_neg hnil]
      refine (split_agrees ht rfl).bind fun p hp => ?_
      have hextent : Span.extent p.toList = s.trim.length + 1 := p.extent_eq
      exact paths_agrees (fun t hmem => ht.sub (Span.split_sub hp t hmem)) (by omega)
termination_by structural calls

theorem paths_agrees {calls : Nat} {parts : List Span} (h : ∀ t ∈ parts, t.In cs)
    (hcalls : 6 * Span.extent parts < calls) :
    Agrees cs (paths cs calls (parts.map Span.ends)) (Parser.paths parts) := by
  match calls, hcalls with
  | calls + 1, hcalls =>
    match parts with
    | [] =>
      rw [List.map_nil, paths, Parser.paths]
      exact .ofPure _
    | part :: rest =>
      have hpart := h part List.mem_cons_self
      have ht : part.trim.In cs := hpart.sub part.sub_trim
      have hlength := part.length_trim_le
      simp only [Span.extent] at hcalls
      rw [List.map_cons, Span.ends, paths, Parser.paths]
      simp only
      rw [trim_eq hpart, pure_bind]
      simp only [Span.start_eq_stop_iff, List.isEmpty_iff]
      by_cases hnil : part.trim.chars = []
      · rw [if_pos hnil, if_pos hnil]
        exact .ofFail (Nat.le_trans (Between.start_le ht) ht.stop_le)
      · rw [if_neg hnil, if_neg hnil]
        exact (path_agrees ht (by omega)).next fun p _ =>
          (paths_agrees (fun u hu => h u (List.mem_cons_of_mem _ hu)) (by omega)).next fun ps _ =>
            .ofPure _
termination_by structural calls

theorem query_agrees {s : Span} {stop calls : Nat} (h : Between cs s.start stop s.chars)
    (hcalls : 6 * (s.length + 1) + 1 < calls) :
    Agrees cs (query cs calls s.start stop) (Parser.query s.trim) := by
  match calls, hcalls with
  | calls + 1, hcalls =>
    obtain rfl : s.stop = stop := h.stop_eq
    have ht : s.trim.In cs := Span.In.sub h s.sub_trim
    have hlength := s.length_trim_le
    rw [query, trim_eq h, pure_bind, Parser.query]
    simp only [Span.start_eq_stop_iff, List.isEmpty_iff]
    by_cases hnil : s.trim.chars = []
    · rw [if_pos hnil, if_pos hnil]
      exact .ofPure _
    · rw [if_neg hnil, if_neg hnil]
      refine (split_agrees ht rfl).bind fun p hp => ?_
      have hextent : Span.extent p.toList = s.trim.length + 1 := p.extent_eq
      have hfewer : 6 * Span.extent p.toList < calls := by omega
      have hparts := entries_agrees (fun t hmem => ht.sub (Span.split_sub hp t hmem)) hfewer []
      rwa [map_nothing] at hparts
termination_by structural calls

theorem entries_agrees {calls : Nat} {parts : List Span} (h : ∀ t ∈ parts, t.In cs)
    (hcalls : 6 * Span.extent parts < calls) (done : Query) :
    Agrees cs (entries cs calls done (parts.map Span.ends))
      ((Parser.entries parts).map (done ++ ·)) := by
  match calls, hcalls with
  | calls + 1, hcalls =>
    match parts with
    | [] =>
      rw [List.map_nil, entries, Parser.entries]
      change Agrees cs _ (.ok (done ++ []))
      rw [List.append_nil]
      exact .ofPure _
    | part :: rest =>
      have hpart := h part List.mem_cons_self
      have ht : part.trim.In cs := hpart.sub part.sub_trim
      have hlength := part.length_trim_le
      simp only [Span.extent] at hcalls
      have hposition := Nat.le_trans (Between.start_le ht) ht.stop_le
      rw [List.map_cons, Span.ends, entries, Parser.entries]
      simp only
      rw [trim_eq hpart, pure_bind]
      simp only [Span.start_eq_stop_iff, List.isEmpty_iff]
      by_cases hnil : part.trim.chars = []
      · rw [if_pos hnil, if_pos hnil]
        exact .ofFail hposition
      · rw [if_neg hnil, if_neg hnil, Fault.map_bind]
        refine (cut_agrees ht rfl).bind fun found hfound => ?_
        match found with
        | none => exact .ofFail hposition
        | some cut =>
          obtain ⟨hbefore, hafter, hstart, hlast⟩ := Span.cut_sub hfound
          have hshorter := cut.shorter
          simp only [Option.map_some]
          rw [Fault.map_bind, ← hstart, hlast]
          refine (queryKey_agrees (ht.sub hbefore) (by omega)).next fun key _ => ?_
          rw [Fault.map_bind]
          refine (expected_agrees (Between.endOf ht hafter) (by omega)).next fun value _ => ?_
          exact map_done _ done [(key, value)] ▸
            entries_agrees (fun u hu => h u (List.mem_cons_of_mem _ hu)) (by omega)
              (done ++ [(key, value)])
termination_by structural calls

theorem queryKey_agrees {s : Span} {stop calls : Nat} (h : Between cs s.start stop s.chars)
    (hcalls : 6 * s.length + 4 < calls) :
    Agrees cs (queryKey cs calls s.start stop) (Parser.queryKey s.trim) := by
  match calls, hcalls with
  | calls + 1, hcalls =>
    obtain rfl : s.stop = stop := h.stop_eq
    have ht : s.trim.In cs := Span.In.sub h s.sub_trim
    have hlength := s.length_trim_le
    rw [queryKey, trim_eq h, pure_bind]
    simp only [Span.start_eq_stop_iff]
    generalize s.trim = t at ht hlength ⊢
    cases hs : t.chars with
    | nil =>
      rw [if_pos rfl, Parser.queryKey, hs]
      exact .ofPure _
    | cons c rest =>
      have hfirst : Between cs t.start t.stop (c :: rest) := hs ▸ ht
      have hone := stop_sub_start hfirst
      have hshorter := t.length_drop 1
      rw [if_neg (by simp), charAt_eq hfirst, pure_bind]
      by_cases hcandidate : t.stop - t.start = 1 ∧ (c = '.' ∨ c = '@')
      · rw [if_pos hcandidate, Parser.queryKey, hs, hone.mp hcandidate.1]
        rcases hcandidate.2 with rfl | rfl <;> exact .ofPure _
      rw [if_neg hcandidate]
      by_cases hsign : c = '@'
      · subst hsign
        have hdrop : (t.drop 1).EndOf t := Span.drop_one hs ▸ Span.endOf_tail hs
        rw [if_pos rfl]
        cases rest with
        | nil => exact absurd ⟨hone.mpr rfl, .inr rfl⟩ hcandidate
        | cons d more =>
          rw [Parser.queryKey, hs]
          exact path_agrees (Between.endOf ht hdrop) (by omega)
      · rw [if_neg hsign, Parser.queryKey]
        split
        · next heq => simp [hs] at heq
        · next heq =>
          obtain ⟨rfl, rfl⟩ := List.cons.inj (hs.symm.trans heq)
          exact absurd ⟨hone.mpr rfl, .inl rfl⟩ hcandidate
        · next heq => exact absurd (List.cons.inj (hs.symm.trans heq)).1 hsign
        · next heq => exact absurd (List.cons.inj (hs.symm.trans heq)).1 hsign
        · exact path_agrees ht (by omega)
termination_by structural calls

theorem expected_agrees {s : Span} {stop calls : Nat} (h : Between cs s.start stop s.chars)
    (hcalls : 6 * s.length + 1 < calls) :
    Agrees cs (expected cs calls s.start stop) (Parser.expected s.trim) := by
  match calls, hcalls with
  | calls + 1, hcalls =>
    obtain rfl : s.stop = stop := h.stop_eq
    have ht : s.trim.In cs := Span.In.sub h s.sub_trim
    have hlength := s.length_trim_le
    rw [expected, trim_eq h, pure_bind]
    simp only [Span.start_eq_stop_iff]
    generalize s.trim = t at ht hlength ⊢
    have hposition : t.start ≤ cs.length := Nat.le_trans (Between.start_le ht) ht.stop_le
    cases hs : t.chars with
    | nil =>
      rw [if_pos rfl, Parser.expected, hs]
      exact .ofFail hposition
    | cons c rest =>
      have hfirst : Between cs t.start t.stop (c :: rest) := hs ▸ ht
      have hdrop : (t.drop 1).EndOf t := Span.drop_one hs ▸ Span.endOf_tail hs
      have hshorter := t.length_drop 1
      rw [if_neg (by simp), charAt_eq hfirst, pure_bind]
      by_cases hbrace : c = '{'
      · subst hbrace
        rw [if_pos rfl, Parser.expected, hs]
        exact nested_agrees ht (by omega) hs
      rw [if_neg hbrace]
      by_cases hquestion : c = '?' ∧ t.start + 1 < t.stop
      · obtain ⟨rfl, hlt⟩ := hquestion
        rw [if_pos ⟨rfl, hlt⟩]
        cases rest with
        | nil => exact absurd hlt hfirst.tail.not_lt
        | cons d more =>
          rw [charAt_eq hfirst.tail, pure_bind]
          by_cases hd : d = '{'
          · subst hd
            rw [if_pos rfl, Parser.expected, hs]
            exact nested_agrees (Between.endOf ht hdrop) (by omega) (by rw [Span.drop_one hs])
          · rw [if_neg hd, textOf_eq ht, pure_bind, expected_eq_bare hs (by simp) (by simp [hd])]
            exact .ofPure _
      rw [if_neg hquestion]
      by_cases hmark : c = '='
      · subst hmark
        rw [if_pos rfl, textOf_eq hfirst.tail, pure_bind, Parser.expected, hs, ← Span.drop_one hs]
        refine .ofExcept fun fault hfault => ?_
        rw [readMarked_error hfault]
        exact Nat.le_trans hfirst.tail.start_le hfirst.tail.stop_le
      rw [if_neg hmark]
      by_cases hquote : c = '\''
      · subst hquote
        rw [if_pos rfl, Parser.expected, hs]
        refine (readQuoted_agrees ht (by simp [hs])).bind fun found hread => ?_
        obtain ⟨text, after⟩ := found
        have hafter := Between.endOf ht (Span.endOf_read hs rfl hread)
        change Agrees cs (if after.start = t.stop then _ else _)
          (if after.chars.isEmpty then _ else _)
        cases hchars : after.chars with
        | nil =>
          rw [hchars] at hafter
          rw [if_pos (by simpa using hafter.stop_eq)]
          exact .ofPure _
        | cons d more =>
          rw [hchars] at hafter
          rw [if_neg (Nat.ne_of_lt hafter.lt), if_neg (by simp)]
          exact .ofFail (Nat.le_trans hafter.start_le hafter.stop_le)
      rw [if_neg hquote, textOf_eq ht, pure_bind, expected_eq_bare hs (by simp [*]) ?_]
      · exact .ofPure _
      · rintro rfl more rfl
        exact hquestion ⟨rfl, hfirst.tail.lt⟩
termination_by structural calls

theorem nested_agrees {s : Span} {stop calls : Nat} {rest : List Char}
    (h : Between cs s.start stop s.chars)
    (hcalls : 6 * s.length < calls) (hs : s.chars = '{' :: rest) :
    Agrees cs (nested cs calls s.start stop) (Parser.nested s) := by
  match calls, hcalls with
  | calls + 1, hcalls =>
    obtain rfl : s.stop = stop := h.stop_eq
    rw [nested, Parser.nested]
    refine (group_agrees h hs rfl).bind fun g hg => ?_
    obtain ⟨hinside, hrest, hstart, hlast⟩ := Span.group_sub hg
    have hbehind := h.endOf hrest
    have hshorter := g.shorter
    rw [← hstart, hlast]
    cases hchars : g.rest.chars with
    | nil =>
      rw [hchars] at hbehind
      rw [if_pos (by simpa using hbehind.stop_eq)]
      exact (query_agrees (Span.In.sub h hinside) (by omega)).next fun q _ => .ofPure _
    | cons c rest =>
      rw [hchars] at hbehind
      rw [if_neg (Nat.ne_of_lt hbehind.lt)]
      exact .ofFail (Nat.le_trans hbehind.start_le hbehind.stop_le)
termination_by structural calls

end

end Rules

end Scan

/-- The parser fails cleanly on every text. The scan by positions ends without a look at a character
or a range that is not in the text and without running out of calls, either with the path that is
parsed or with a fault at a position in the text, which is reported together with the text. -/
theorem parse_clean (text : String) :
    (∃ p, Scan.parse text = pure p ∧ Path.parse text = .ok p) ∨
      ∃ fault, Scan.parse text = throw (.fault fault) ∧
        Path.parse text = .error (.parse text fault) ∧ fault.position ≤ text.length := by
  have hagrees : Scan.Agrees text.toList (Scan.parse text) (Path.read text) :=
    Scan.path_agrees (s := Span.ofText text) (Between.whole text.toList) (by
      simp only [Span.length, Span.ofText, String.length_toList]
      omega)
  rw [hagrees.eq, Path.parse]
  cases hread : Path.read text with
  | ok p => exact .inl ⟨p, rfl, rfl⟩
  | error fault =>
    have hwithin := hagrees.within fault hread
    rw [String.length_toList] at hwithin
    exact .inr ⟨fault, rfl, rfl, hwithin⟩

end TreePath

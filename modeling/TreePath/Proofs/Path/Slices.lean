import Mathlib.Tactic.Ring
import TreePath.Proofs.Walk.Addressed

namespace TreePath

/-- The integers from `start` on, in steps of `step`, as far as they stand in front of `stop`. -/
structure Progression where
  start : Int
  stop : Int
  step : Int

namespace Progression

/-- Whether an integer stands in front of the stop, in the direction of the step. -/
def Reaches (r : Progression) (i : Int) : Prop := if 0 < r.step then i < r.stop else r.stop < i

/-- How many terms there are. -/
def length (r : Progression) : Nat :=
  if 0 < r.step then ((r.stop - r.start - 1) / r.step + 1).toNat
  else ((r.start - r.stop - 1) / -r.step + 1).toNat

def terms (r : Progression) : List Int :=
  (List.range r.length).map fun k : Nat => r.start + k * r.step

variable {r : Progression}

theorem lt_length (hstep : r.step ≠ 0) (k : Nat) :
    k < r.length ↔ r.Reaches (r.start + k * r.step) := by
  have hcount : ∀ a b : Int, 0 < b → (k < ((a - 1) / b + 1).toNat ↔ k * b < a) := by
    intro a b hb
    have hdiv : (k : Int) ≤ (a - 1) / b ↔ k * b ≤ a - 1 := Int.le_ediv_iff_mul_le hb
    omega
  unfold length Reaches
  split
  · next hup =>
    rw [hcount _ _ hup]
    omega
  · next hdown =>
    rw [hcount _ _ (by omega), Int.mul_neg]
    omega

/-- The terms are the integers in steps from the start that stand in front of the stop. -/
theorem mem_terms (hstep : r.step ≠ 0) {i : Int} :
    i ∈ r.terms ↔ ∃ k : Nat, i = r.start + k * r.step ∧ r.Reaches i := by
  simp only [terms, List.mem_map, List.mem_range, lt_length hstep]
  constructor
  · rintro ⟨k, hk, rfl⟩
    exact ⟨k, rfl, hk⟩
  · rintro ⟨k, rfl, hk⟩
    exact ⟨k, hk, rfl⟩

/-- The terms go in the direction of the step. -/
theorem pairwise_terms (hstep : r.step ≠ 0) :
    r.terms.Pairwise fun i j => if 0 < r.step then i < j else j < i := by
  refine List.pairwise_map.mpr (List.pairwise_lt_range.imp ?_)
  intro j k hjk
  have hlt : (j : Int) < k := Int.ofNat_lt.mpr hjk
  split
  · next hup =>
    have hmul := Int.mul_lt_mul_of_pos_right hlt hup
    omega
  · next hdown =>
    have hmul := Int.mul_lt_mul_of_neg_right hlt (by omega : r.step < 0)
    omega

theorem terms_nil (hstep : r.step ≠ 0) (h : ¬r.Reaches r.start) : r.terms = [] := by
  have hnone : ¬0 < r.length := by
    rw [lt_length hstep]
    simpa using h
  rw [terms, Nat.eq_zero_of_not_pos hnone]
  rfl

/-- Behind the first term the progression goes on from the next one. -/
theorem terms_cons (hstep : r.step ≠ 0) (h : r.Reaches r.start) :
    r.terms = r.start :: terms { r with start := r.start + r.step } := by
  obtain ⟨next, hnext⟩ : ∃ next : Progression, next = { r with start := r.start + r.step } :=
    ⟨_, rfl⟩
  have hone : ∀ k : Nat, next.start + k * next.step = r.start + (k + 1 : Nat) * r.step := by
    intro k
    rw [hnext]
    push_cast
    ring
  have hreaches : ∀ i, next.Reaches i ↔ r.Reaches i := fun i => by rw [hnext]; rfl
  have hnonzero : next.step ≠ 0 := by rw [hnext]; exact hstep
  have hlength : r.length = next.length + 1 := by
    have hfirst : 0 < r.length := (lt_length hstep 0).mpr (by simpa using h)
    have hlater : ∀ k, k < next.length ↔ k + 1 < r.length := by
      intro k
      rw [lt_length hnonzero, lt_length hstep, hreaches, hone]
    have hbound := hlater next.length
    have hlast := hlater (r.length - 1)
    omega
  rw [← hnext, terms, hlength, List.range_succ_eq_map, List.map_cons, List.map_map, terms]
  congr 1
  · simp
  · exact List.map_congr_left fun k _ => (hone k).symm

end Progression

namespace Slice

open Progression

/-- Where a bound stands in a sequence of `len` elements, in unbounded integers. -/
def bound (len low high default : Int) : Option Int64 → Int
  | none => default
  | some b => if b.toInt < 0 then max (b.toInt + len) low else min b.toInt high

/-- The range that a slice selects from a sequence of `len` elements. -/
def range (s : Slice) (len : Nat) : Progression :=
  let step := (s.step.getD 1).toInt
  if 0 < step then ⟨bound len 0 len 0 s.start, bound len 0 len len s.stop, step⟩
  else ⟨bound len (-1) (len - 1) (len - 1) s.start, bound len (-1) (len - 1) (-1) s.stop, step⟩

section Ranges

theorem step_range (s : Slice) (len : Nat) : (s.range len).step = (s.step.getD 1).toInt := by
  unfold range
  simp only
  split <;> rfl

/-- A bound is moved into its range from the one side on which it can be outside. -/
theorem bound_eq (b : Option Int64) {len low high default : Int} (hlow : low ≤ 0)
    (hhigh : len ≤ high + 1) (hrange : low ≤ high) :
    bound len low high default b = (b.map (place · len low high)).getD default := by
  cases b with
  | none => rfl
  | some b =>
    simp only [bound, place, Option.map_some, Option.getD_some]
    split <;> omega

theorem le_bound (b : Option Int64) {len low high default : Int} (hlow : low ≤ 0)
    (hhigh : len ≤ high + 1) (hrange : low ≤ high) (hdefault : low ≤ default ∧ default ≤ high) :
    low ≤ bound len low high default b := by
  rw [bound_eq b hlow hhigh hrange]
  exact (bounds_getD b len low high default hdefault).1

theorem ascending_eq_terms {step : Nat} (hstep : 0 < step) (stop i : Nat) :
    (ascending stop step i).map Int.ofNat = terms ⟨i, stop, step⟩ := by
  have hup : (0 : Int) < step := Int.ofNat_lt.mpr hstep
  have hnonzero : (step : Int) ≠ 0 := by omega
  induction i using ascending.induct stop step with
  | case1 i hi ih =>
    have hreaches : Reaches ⟨i, stop, step⟩ i := by
      rw [Reaches, if_pos hup]
      exact Int.ofNat_lt.mpr hi.1
    rw [ascending, if_pos hi, List.map_cons, ih, terms_cons hnonzero hreaches]
    rfl
  | case2 i hi =>
    have hreaches : ¬Reaches ⟨i, stop, step⟩ i := by
      rw [Reaches, if_pos hup]
      simp only
      omega
    rw [ascending, if_neg hi, terms_nil hnonzero hreaches]
    rfl

theorem descending_eq_terms {step : Nat} (hstep : 0 < step) {stop : Int} (hstop : -1 ≤ stop)
    (i : Int) : (descending stop step i).map Int.ofNat = terms ⟨i, stop, -step⟩ := by
  have hdown : ¬(0 : Int) < -step := by omega
  have hnonzero : -(step : Int) ≠ 0 := by omega
  induction i using descending.induct stop step with
  | case1 i hi ih =>
    have hreaches : Reaches ⟨i, stop, -step⟩ i := by
      rw [Reaches, if_neg hdown]
      exact hi.1
    have hposition : Int.ofNat i.toNat = i := Int.toNat_of_nonneg (by omega)
    rw [descending, if_pos hi, List.map_cons, ih, hposition, terms_cons hnonzero hreaches]
    rfl
  | case2 i hi =>
    have hreaches : ¬Reaches ⟨i, stop, -step⟩ i := by
      rw [Reaches, if_neg hdown]
      simp only
      omega
    rw [descending, if_neg hi, terms_nil hnonzero hreaches]
    rfl

theorem step_ne_zero {s : Slice} (hstep : s.step ≠ some 0) : (s.step.getD 1).toInt ≠ 0 := by
  intro hzero
  cases hs : s.step with
  | none => simp [hs] at hzero
  | some b =>
    rw [hs] at hzero
    exact hstep (hs.trans (congrArg some (Int64.toInt_inj.mp hzero)))

/-- A slice selects the terms of its range. -/
theorem indices_eq_terms {s : Slice} (hstep : s.step ≠ some 0) {len : Nat}
    (hlen : (len : Int) ≤ Int64.maxValue.toInt) :
    (s.indices len).map Int.ofNat = (s.range len).terms := by
  have hnonzero := step_ne_zero hstep
  unfold indices range
  simp only [Int.min_eq_left hlen]
  split
  · next hup =>
    have hstart := bounds_getD s.start len 0 len 0 (by omega)
    have hstop := bounds_getD s.stop len 0 len len (by omega)
    rw [ascending_eq_terms (by omega), Int.toNat_of_nonneg hstart.1, Int.toNat_of_nonneg hstop.1,
      Int.toNat_of_nonneg (Int.le_of_lt hup), bound_eq s.start, bound_eq s.stop]
    all_goals omega
  · next hdown =>
    have hstop := bounds_getD s.stop len (-1) (len - 1) (-1) (by omega)
    rw [if_pos (by omega), descending_eq_terms (by omega) hstop.1, bound_eq s.start,
      bound_eq s.stop]
    · congr 2
      omega
    all_goals omega

end Ranges

section Words

/-- The sum of two words of 64 bits, unless it is out of their range. -/
def sum? (a b : Int64) : Option Int64 := shift? a b.toInt

/-- A word moved into `low … high`, if there are words in between. -/
def clamp? (i low high : Int64) : Option Int64 :=
  if high < low then none else some (if i < low then low else if high < i then high else i)

/-- `place` in words. -/
def placeWord? (len low high bound : Int64) : Option Int64 := do
  clamp? (← if bound < 0 then sum? bound len else some bound) low high

theorem sum?_eq_some {a b c : Int64} : sum? a b = some c ↔ c.toInt = a.toInt + b.toInt := by
  have hlow := c.minValue_le_toInt
  have hhigh := c.toInt_le
  unfold sum? shift?
  simp only
  split
  · next hrange =>
    rw [Int64.toInt_minValue, Int64.toInt_maxValue] at hrange
    rw [Option.some.injEq, ← Int64.toInt_inj, Int64.toInt_ofInt_of_le (by omega) (by omega)]
    exact eq_comm
  · next hrange =>
    simp only [reduceCtorEq, false_iff]
    omega

theorem sum?_eq_none {a b : Int64} : sum? a b = none ↔
    a.toInt + b.toInt < Int64.minValue.toInt ∨ Int64.maxValue.toInt < a.toInt + b.toInt := by
  unfold sum? shift?
  simp only [ite_eq_right_iff, reduceCtorEq, imp_false]
  omega

/-- A sum that is in the range of the words is one. -/
theorem exists_sum? (a b : Int64) (hlow : Int64.minValue.toInt ≤ a.toInt + b.toInt)
    (hhigh : a.toInt + b.toInt ≤ Int64.maxValue.toInt) :
    ∃ c, sum? a b = some c ∧ c.toInt = a.toInt + b.toInt := by
  cases hsum : sum? a b with
  | none =>
    have hout := sum?_eq_none.mp hsum
    omega
  | some c => exact ⟨c, rfl, sum?_eq_some.mp hsum⟩

/-- The positions `i`, `i + step`, … in front of `stop`, up to a sum that is out of range. -/
def collect (stop step i : Int64) : List Nat :=
  if (0 < step ∧ i < stop) ∨ (step < 0 ∧ stop < i) then
    if i < 0 then []
    else
      match _h : sum? i step with
      | some next => i.toInt.toNat :: collect stop step next
      | none => [i.toInt.toNat]
  else []
termination_by if 0 < step then (stop.toInt - i.toInt).toNat else (i.toInt - stop.toInt).toNat
decreasing_by
  have hnext := sum?_eq_some.mp _h
  simp only [Int64.lt_iff_toInt_lt, Int64.toInt_zero] at *
  split <;> omega

/-- The positions between the bounds of a slice in words, when each bound is one. -/
def between? (s : Slice) (len low high first last step : Int64) : Option (List Nat) := do
  let start ← (s.start.map (placeWord? len low high)).getD (some first)
  let stop ← (s.stop.map (placeWord? len low high)).getD (some last)
  return collect stop step start

/-- `indices` in words: nothing comes out when a bound would have to leave their range. -/
def indicesInWords? (s : Slice) (len : Nat) : Option (List Nat) :=
  let len := Int64.ofInt (min len Int64.maxValue.toInt)
  let step := s.step.getD 1
  if step = 0 then some []
  else if 0 < step then s.between? len 0 len 0 len step
  else (sum? len (-1)).bind fun last => s.between? len (-1) last last (-1) step

/-- A bound is placed in words as it is placed in plain integers. -/
theorem placeWord?_eq {len low high : Int64} (hlen : 0 ≤ len.toInt)
    (hrange : low.toInt ≤ high.toInt) (b : Int64) : ∃ w, placeWord? len low high b = some w ∧
      w.toInt = place b len.toInt low.toInt high.toInt := by
  have hclamp : ∀ i : Int64, ∃ w, clamp? i low high = some w ∧
      w.toInt = max low.toInt (min high.toInt i.toInt) := by
    intro i
    refine ⟨if i < low then low else if high < i then high else i, ?_, ?_⟩
    · rw [clamp?, if_neg]
      rw [Int64.lt_iff_toInt_lt]
      omega
    · simp only [Int64.lt_iff_toInt_lt]
      split
      · omega
      · split <;> omega
  unfold placeWord? place
  simp only [Int64.lt_iff_toInt_lt, Int64.toInt_zero]
  split
  · next hneg =>
    have hlow := b.minValue_le_toInt
    have hhigh := len.toInt_le
    obtain ⟨i, hi, hsum⟩ := exists_sum? b len (by omega) (by omega)
    rw [hi, ← hsum]
    exact hclamp i
  · exact hclamp b

/-- A bound that may be left open is found in words where it is found in plain integers. -/
theorem wordBound_eq {len low high : Int64} (default : Int64) (hlen : 0 ≤ len.toInt)
    (hlow : low.toInt ≤ 0) (hhigh : len.toInt ≤ high.toInt + 1) (hrange : low.toInt ≤ high.toInt)
    (b : Option Int64) :
    ∃ w, (b.map (placeWord? len low high)).getD (some default) = some w ∧
      w.toInt = bound len.toInt low.toInt high.toInt default.toInt b := by
  rw [bound_eq b hlow hhigh hrange]
  cases b with
  | none => exact ⟨default, rfl, rfl⟩
  | some b => exact placeWord?_eq hlen hrange b

theorem reaches_iff {stop step i : Int64} (hstep : step.toInt ≠ 0) :
    Reaches ⟨i.toInt, stop.toInt, step.toInt⟩ i.toInt ↔
      (0 < step ∧ i < stop) ∨ (step < 0 ∧ stop < i) := by
  simp only [Reaches, Int64.lt_iff_toInt_lt, Int64.toInt_zero]
  split <;> omega

theorem toNat_of_not_neg {i : Int64} (h : ¬i < 0) : Int.ofNat i.toInt.toNat = i.toInt := by
  refine Int.toNat_of_nonneg ?_
  simpa only [Int64.lt_iff_toInt_lt, Int64.toInt_zero, Int.not_lt] using h

theorem collect_cons {stop step i : Int64} (hi : (0 < step ∧ i < stop) ∨ (step < 0 ∧ stop < i))
    (hpos : ¬i < 0) :
    collect stop step i = i.toInt.toNat :: ((sum? i step).map (collect stop step)).getD [] := by
  rw [collect, if_pos hi, if_neg hpos]
  split
  · next next hnext => rw [hnext, Option.map_some, Option.getD_some]
  · next hnone => rw [hnone, Option.map_none, Option.getD_none]

/-- The loop in words collects the terms of a progression of positions: where a sum is out of range,
there is no further term. -/
theorem collect_eq_terms {stop step i : Int64} (hstep : step.toInt ≠ 0)
    (hup : 0 < step.toInt → 0 ≤ i.toInt) (hdown : step.toInt < 0 → -1 ≤ stop.toInt) :
    (collect stop step i).map Int.ofNat = terms ⟨i.toInt, stop.toInt, step.toInt⟩ := by
  induction i using collect.induct stop step with
  | case1 i hi hneg =>
    simp only [Int64.lt_iff_toInt_lt, Int64.toInt_zero] at hi hneg
    omega
  | case2 i hi hpos next hnext ih =>
    have hsum := sum?_eq_some.mp hnext
    have hposition : Int.ofNat i.toInt.toNat = i.toInt := toNat_of_not_neg hpos
    rw [collect_cons hi hpos, hnext, Option.map_some, Option.getD_some, List.map_cons,
      ih (by omega), hposition, terms_cons hstep ((reaches_iff hstep).mpr hi), hsum]
  | case3 i hi hpos hnone =>
    have hposition : Int.ofNat i.toInt.toNat = i.toInt := toNat_of_not_neg hpos
    have hbeyond :
        ¬Reaches ⟨i.toInt + step.toInt, stop.toInt, step.toInt⟩ (i.toInt + step.toInt) := by
      have hout := sum?_eq_none.mp hnone
      have hlow := stop.minValue_le_toInt
      have hhigh := stop.toInt_le
      have hfrom := i.minValue_le_toInt
      have hto := i.toInt_le
      unfold Reaches
      simp only
      split <;> omega
    rw [collect_cons hi hpos, hnone, Option.map_none, Option.getD_none, List.map_singleton,
      hposition, terms_cons hstep ((reaches_iff hstep).mpr hi), terms_nil hstep hbeyond]
  | case4 i hi =>
    rw [collect, if_neg hi, terms_nil hstep (mt (reaches_iff hstep).mp hi)]
    rfl

/-- What is selected in words between two bounds is a progression. -/
theorem between?_eq_terms (s : Slice) (len low high first last step : Int64) (hlen : 0 ≤ len.toInt)
    (hlow : low.toInt ≤ 0) (hhigh : len.toInt ≤ high.toInt + 1) (hrange : low.toInt ≤ high.toInt)
    (hfirst : low.toInt ≤ first.toInt ∧ first.toInt ≤ high.toInt)
    (hlast : low.toInt ≤ last.toInt ∧ last.toInt ≤ high.toInt) (hstep : step.toInt ≠ 0)
    (hup : 0 < step.toInt → 0 ≤ low.toInt) (hdown : step.toInt < 0 → -1 ≤ low.toInt) :
    ∃ positions, s.between? len low high first last step = some positions ∧
      positions.map Int.ofNat = terms ⟨bound len.toInt low.toInt high.toInt first.toInt s.start,
        bound len.toInt low.toInt high.toInt last.toInt s.stop, step.toInt⟩ := by
  obtain ⟨start, hstart, hfrom⟩ := wordBound_eq first hlen hlow hhigh hrange s.start
  obtain ⟨stop, hstop, hto⟩ := wordBound_eq last hlen hlow hhigh hrange s.stop
  have hstartLow := le_bound s.start hlow hhigh hrange hfirst
  have hstopLow := le_bound s.stop hlow hhigh hrange hlast
  refine ⟨collect stop step start, ?_, ?_⟩
  · rw [between?, hstart, hstop]
    rfl
  · rw [collect_eq_terms hstep (by omega) (by omega), hfrom, hto]

/-- In words a slice selects the same positions, and no bound leaves the range of the words. -/
theorem indicesInWords?_eq {s : Slice} (hstep : s.step ≠ some 0) {len : Nat}
    (hlen : (len : Int) ≤ Int64.maxValue.toInt) : s.indicesInWords? len = some (s.indices len) := by
  obtain ⟨step, hs⟩ : ∃ step, step = s.step.getD 1 := ⟨_, rfl⟩
  obtain ⟨word, hword⟩ : ∃ word : Int64, word = .ofInt len := ⟨_, rfl⟩
  have hsize : word.toInt = len := by
    rw [Int64.toInt_maxValue] at hlen
    rw [hword, Int64.toInt_ofInt_of_le (by omega) (by omega)]
  have hnonzero : step.toInt ≠ 0 := hs ▸ step_ne_zero hstep
  have hzero : (0 : Int64).toInt = 0 := Int64.toInt_zero
  have hone : (-1 : Int64).toInt = -1 := by decide
  have hleast : Int64.minValue.toInt ≤ -1 := by decide
  have hsame : ∀ {positions : List Nat},
      positions.map Int.ofNat = (s.indices len).map Int.ofNat → positions = s.indices len :=
    fun h => List.map_injective_iff.mpr (fun _ _ => Int.ofNat.inj) h
  have hterms := indices_eq_terms hstep hlen
  unfold range at hterms
  unfold indicesInWords?
  simp only [Int.min_eq_left hlen, ← hword, ← hs] at hterms ⊢
  rw [if_neg fun h => hnonzero (by rw [h, hzero])]
  by_cases hup : 0 < step.toInt
  · have hpositive : 0 < step := by rwa [Int64.lt_iff_toInt_lt, hzero]
    obtain ⟨positions, hrun, heq⟩ := between?_eq_terms s word 0 word 0 word step (by omega)
      (by omega) (by omega) (by omega) (by omega) (by omega) hnonzero (by omega) (by omega)
    rw [if_pos hup] at hterms
    rw [hzero, hsize, ← hterms] at heq
    rw [if_pos hpositive, hrun, hsame heq]
  · have hnegative : ¬0 < step := by rwa [Int64.lt_iff_toInt_lt, hzero]
    obtain ⟨last, hlast, hend⟩ := exists_sum? word (-1) (by omega) (by omega)
    obtain ⟨positions, hrun, heq⟩ := between?_eq_terms s word (-1) last last (-1) step (by omega)
      (by omega) (by omega) (by omega) (by omega) (by omega) hnonzero (by omega) (by omega)
    rw [if_neg hup] at hterms
    rw [hone] at hend heq
    rw [hend, hsize, ← Int.sub_eq_add_neg, ← hterms] at heq
    rw [if_neg hnegative, hlast, Option.bind_some, hrun, hsame heq]

end Words

/-- A slice whose step is not zero selects what the range between its bounds holds, in unbounded
integers: positions of the sequence, each of them further in the direction of the step than the one
before it, and among them every one that the steps lead to in front of the stop. In words of 64 bits
this takes no sum that is out of their range, other than the one that ends the selection. -/
theorem indices_eq_range {s : Slice} (hstep : s.step ≠ some 0) {len : Nat}
    (hlen : (len : Int) ≤ Int64.maxValue.toInt) :
    let r := s.range len
    (s.indices len).map Int.ofNat = r.terms ∧ s.indicesInWords? len = some (s.indices len) ∧
      (∀ i ∈ s.indices len, i < len) ∧
      ((s.indices len).Pairwise fun i j => if 0 < r.step then i < j else j < i) ∧
      ∀ i : Nat, i ∈ s.indices len ↔ ∃ k : Nat, (i : Int) = r.start + k * r.step ∧ r.Reaches i := by
  intro r
  have hterms : (s.indices len).map Int.ofNat = r.terms := indices_eq_terms hstep hlen
  have hnonzero : r.step ≠ 0 := by
    rw [step_range]
    exact step_ne_zero hstep
  refine ⟨hterms, indicesInWords?_eq hstep hlen, fun i hi => lt_of_mem_indices hi, ?_, fun i => ?_⟩
  · have hordered := pairwise_terms hnonzero
    rw [← hterms, List.pairwise_map] at hordered
    refine hordered.imp fun {i j} h => ?_
    by_cases hup : 0 < r.step
    · rw [if_pos hup] at h ⊢
      exact Int.ofNat_lt.mp h
    · rw [if_neg hup] at h ⊢
      exact Int.ofNat_lt.mp h
  · rw [← mem_terms hnonzero, ← hterms, List.mem_map]
    constructor
    · exact fun hi => ⟨i, hi, rfl⟩
    · rintro ⟨j, hj, heq⟩
      rwa [← Int.ofNat.inj heq]

/-- The second sum is out of the range of the words, and there is no second position. -/
theorem indices_eq_range_huge :
    let s : Slice := ⟨some (-3), none, some Int64.maxValue⟩
    let r := s.range 4
    s.step ≠ some 0 ∧ ((4 : Nat) : Int) ≤ Int64.maxValue.toInt ∧ r = ⟨1, 4, Int64.maxValue.toInt⟩ ∧
      (s.indices 4).map Int.ofNat = r.terms ∧ s.indicesInWords? 4 = some (s.indices 4) ∧
      (∀ i ∈ s.indices 4, i < 4) ∧
      ((s.indices 4).Pairwise fun i j => if 0 < r.step then i < j else j < i) ∧
      ∀ i : Nat, i ∈ s.indices 4 ↔ ∃ k : Nat, (i : Int) = r.start + k * r.step ∧ r.Reaches i := by
  intro s r
  have hstep : s.step ≠ some 0 := by decide
  have hlen : ((4 : Nat) : Int) ≤ Int64.maxValue.toInt := by decide
  exact ⟨hstep, hlen, by cbv, indices_eq_range hstep hlen⟩

example : (⟨some (-3), none, some Int64.maxValue⟩ : Slice).indices 4 = [1] := by cbv

end Slice

end TreePath

import TreePath.Json.Printer
import TreePath.Json.Reader
import TreePath.Proofs.Fields
import TreePath.Proofs.Path.Quoting
import TreePath.Proofs.Text.Digits
import TreePath.Tree.Access

namespace TreePath.Json

open Text Decimal

mutual

/-- No number in the value is a double. -/
def FloatFree : Json → Prop
  | .num (.double _) => False
  | .arr items => FloatFreeItems items
  | .obj fields => FloatFreeFields fields
  | _ => True

def FloatFreeItems : List Json → Prop
  | [] => True
  | v :: rest => v.FloatFree ∧ FloatFreeItems rest

def FloatFreeFields : List (String × Json) → Prop
  | [] => True
  | (_, v) :: rest => v.FloatFree ∧ FloatFreeFields rest

end

section Strings

theorem readChars_letter {letter c : Char} {rest : List Char} (h : unescape? letter = some c) :
    readChars ('\\' :: letter :: rest) =
      (readChars rest).map fun found => (c :: found.1, found.2) := by
  rw [readChars.eq_def]
  simp [h]

theorem readChars_plain {c : Char} {rest : List Char} (hquote : c ≠ '"') (hslash : c ≠ '\\')
    (h : ¬c.toNat < 0x20) : readChars (c :: rest) =
      (readChars rest).map fun found => (c :: found.1, found.2) := by
  rw [readChars.eq_def]
  simp [hquote, hslash, h]

theorem readChars_code (rest : List Char) {code : Nat} {h₁ h₂ h₃ h₄ : Char}
    (hcode : readHex? [h₁, h₂, h₃, h₄] = some code) (hlow : isLowSurrogate code = false)
    (hhigh : isHighSurrogate code = false) :
    readChars ('\\' :: 'u' :: h₁ :: h₂ :: h₃ :: h₄ :: rest) =
      (readChars rest).map fun found => (Char.ofNat code :: found.1, found.2) := by
  have hu : unescape? 'u' = none := by decide
  rw [readChars.eq_def]
  simp [hu, hcode, hlow, hhigh]

theorem readChars_escape (c : Char) (rest : List Char) :
    readChars (escape c ++ rest) = (readChars rest).map fun found => (c :: found.1, found.2) := by
  unfold escape
  split
  · next h =>
    subst h
    exact readChars_letter rfl
  split
  · next h =>
    subst h
    exact readChars_letter rfl
  split
  · next h =>
    subst h
    exact readChars_letter rfl
  split
  · next h =>
    subst h
    exact readChars_letter rfl
  split
  · next h =>
    subst h
    exact readChars_letter rfl
  split
  · next h =>
    have hc : c = Char.ofNat 8 := by rw [← h, Char.ofNat_toNat]
    subst hc
    exact readChars_letter rfl
  split
  · next h =>
    have hc : c = Char.ofNat 12 := by rw [← h, Char.ofNat_toNat]
    subst hc
    exact readChars_letter rfl
  split
  · next h =>
    have hlow : isLowSurrogate c.toNat = false := by
      simp only [isLowSurrogate, Bool.and_eq_false_iff, decide_eq_false_iff_not]
      omega
    have hhigh : isHighSurrogate c.toNat = false := by
      simp only [isHighSurrogate, Bool.and_eq_false_iff, decide_eq_false_iff_not]
      omega
    have hhex := readHex?_hexCode (show c.toNat < 65536 by omega)
    have hread := readChars_code rest hhex hlow hhigh
    rw [Char.ofNat_toNat] at hread
    exact hread
  · next hquote hslash _ _ _ _ _ hlow => exact readChars_plain hquote hslash hlow

theorem readChars_flatMap (cs rest : List Char) :
    readChars (cs.flatMap escape ++ '"' :: rest) = some (cs, rest) := by
  induction cs with
  | nil =>
    rw [List.flatMap_nil, List.nil_append, readChars.eq_def]
    simp
  | cons c cs ih =>
    rw [List.flatMap_cons, List.append_assoc, readChars_escape, ih]
    rfl

theorem readString_render (s : String) (rest : List Char) :
    readString (renderString s ++ rest) = some (s, rest) := by
  have h := readChars_flatMap s.toList rest
  simp only [renderString, readString, List.cons_append, List.append_assoc, List.nil_append]
  rw [h]
  simp [String.ofList_toList]

theorem quotable_escape (c : Char) : Quotable '"' (escape c) := by
  unfold escape
  split
  · exact .escaped _ .nil
  split
  · exact .escaped _ .nil
  split
  · exact .escaped _ .nil
  split
  · exact .escaped _ .nil
  split
  · exact .escaped _ .nil
  split
  · exact .escaped _ .nil
  split
  · exact .escaped _ .nil
  split
  · exact .escaped _ (quotable_hexCode (by decide) _)
  · next hquote hslash _ _ _ _ _ _ => exact .plain hslash hquote .nil

theorem balanced_renderString {bare : Char → Prop} (s : String) : Balanced bare (renderString s) :=
  .literal (by decide) (quotable_flatMap quotable_escape s.toList)

end Strings

/-- What may follow a value: the end of the text or a mark of the container around it. -/
def EndsValue (rest : List Char) : Prop :=
  ∀ c ∈ rest.head?, c ∈ [',', ']', '}']

section Numbers

theorem EndsValue.cases {rest : List Char} (h : EndsValue rest) :
    rest = [] ∨ ∃ c more, rest = c :: more ∧ c ∈ [',', ']', '}'] := by
  cases rest with
  | nil => exact .inl rfl
  | cons c more => exact .inr ⟨c, more, rfl, h c rfl⟩

theorem EndsValue.head_ne {rest : List Char} (h : EndsValue rest) {d : Char}
    (hd : d ∉ [',', ']', '}']) : rest.head? ≠ some d := by
  intro he
  exact hd (h d he)

theorem EndsValue.isDigit {rest : List Char} (h : EndsValue rest) :
    ∀ c ∈ rest.head?, c.isDigit = false := by
  intro c hc
  have hall : ∀ d ∈ [',', ']', '}'], d.isDigit = false := forall_mem_of_all (by decide)
  exact hall c (h c hc)

theorem le_ofDigitChars (ds : List Char) (acc : Nat) : acc ≤ Nat.ofDigitChars 10 ds acc := by
  induction ds generalizing acc with
  | nil => simp
  | cons c ds ih =>
    rw [Nat.ofDigitChars_cons]
    have := ih (10 * acc + (c.toNat - '0'.toNat))
    omega

theorem appendDigits_eq (ds : List Char) {rest : List Char} (hds : ∀ c ∈ ds, c.isDigit = true)
    (hrest : ∀ c ∈ rest.head?, c.isDigit = false) (acc count : Nat)
    (hroom : Nat.ofDigitChars 10 ds acc < UInt64.size) :
    appendDigits acc count (ds ++ rest) =
      (Nat.ofDigitChars 10 ds acc, count + ds.length, rest) := by
  induction ds generalizing acc count with
  | nil =>
    cases rest with
    | nil => rfl
    | cons c rest => simp [appendDigits, hrest c rfl]
  | cons c ds ih =>
    have hstep : acc * 10 + digitValue c = 10 * acc + (c.toNat - '0'.toNat) := by
      rw [Nat.mul_comm]
      rfl
    rw [Nat.ofDigitChars_cons] at hroom ⊢
    have hle := le_ofDigitChars ds (10 * acc + (c.toNat - '0'.toNat))
    rw [List.cons_append, appendDigits, hstep,
      if_pos ⟨hds c (by simp), Nat.lt_of_le_of_lt hle hroom⟩,
      ih (fun d hd => hds d (List.mem_cons_of_mem _ hd)) _ _ hroom]
    simp
    omega

/-- Only zero itself is written with a zero in front. -/
theorem head_natText {n : Nat} (h : 0 < n) : (natText n).head? ≠ some '0' := by
  induction n using Nat.strongRecOn with
  | ind n ih =>
    by_cases hn : n < 10
    · rw [natText, Nat.toDigits_of_lt_base hn]
      have hall : ∀ d < 10, 0 < d → d.digitChar ≠ '0' := by decide
      simpa using hall n hn h
    · rw [natText, Nat.toDigits_of_base_le (by decide) (by omega)]
      have hhead := ih (n / 10) (by omega) (by omega)
      obtain ⟨c, cs, hc, -⟩ := natText_eq_cons (n / 10)
      rw [natText] at hc hhead
      rw [hc] at hhead ⊢
      simpa using hhead

theorem readUnsigned_natText (negative : Bool) (m : Nat) (n : Integer)
    (hn : n.value = if negative then -(m : Int) else m) (hm : m < UInt64.size)
    (hzero : negative = true → m ≠ 0) {rest : List Char} (hrest : EndsValue rest) :
    readUnsigned negative (natText m ++ rest) = some (.num (.int n), rest) := by
  have happend := appendDigits_eq (natText m) (fun _ => isDigit_of_mem_natText)
    hrest.isDigit 0 0 (by rw [ofDigitChars_natText]; exact hm)
  rw [ofDigitChars_natText] at happend
  have htake : rest.takeWhile Char.isDigit = [] := by
    rcases hrest.cases with rfl | ⟨c, more, rfl, -⟩
    · rfl
    · rw [List.takeWhile_cons_of_neg (by simp [hrest.isDigit c rfl])]
  have hdrop : rest.dropWhile Char.isDigit = rest := by
    rcases hrest.cases with rfl | ⟨c, more, rfl, -⟩
    · rfl
    · rw [List.dropWhile_cons_of_neg (by simp [hrest.isDigit c rfl])]
  have hlead : ¬(0 + (natText m).length = 0 ∨
      ((natText m ++ rest).head? = some '0' ∧ 1 < 0 + (natText m).length + 0)) := by
    obtain ⟨c, cs, hc, -⟩ := natText_eq_cons m
    intro hbad
    rcases hbad with hempty | ⟨hhead, hlong⟩
    · simp [hc] at hempty
    · by_cases hm0 : m = 0
      · subst hm0
        simp [natText, Nat.toDigits_zero] at hlong
      · have := head_natText (n := m) (by omega)
        rw [hc] at this hhead
        exact this (by simpa using hhead)
  have hint : Integer.ofInt? (if negative then -(m : Int) else m) = some n := by
    rw [← hn, Integer.ofInt?, dif_pos ⟨n.le_value, n.value_lt⟩]
  unfold readUnsigned
  simp only [happend, htake, hdrop, List.length_nil]
  rw [if_neg hlead]
  split
  · exact absurd rfl (hrest.head_ne (by decide))
  · rw [if_neg, if_neg, hint]
    · intro hboth
      obtain ⟨hneg, hsig⟩ := hboth
      exact hzero hneg hsig
    · intro hmark
      rcases hmark with he | he | he
      · exact hrest.head_ne (by decide) he
      · exact hrest.head_ne (by decide) he
      · exact he rfl

theorem natAbs_lt (n : Integer) : n.value.natAbs < UInt64.size := by
  have hlow := n.le_value
  have hhigh := n.value_lt
  rw [Int64.toInt_minValue] at hlow
  rw [UInt64.size] at hhigh ⊢
  omega

theorem readNumber_intText (n : Integer) {rest : List Char} (hrest : EndsValue rest) :
    readNumber (intText n.value ++ rest) = some (.num (.int n), rest) := by
  rcases intText_cases n.value with ⟨hpos, hn⟩ | ⟨hneg, hn⟩
  · obtain ⟨c, cs, hc, hdigit⟩ := natText_eq_cons n.value.natAbs
    have habs : n.value = (n.value.natAbs : Int) := by omega
    have hread := readUnsigned_natText false n.value.natAbs n habs (natAbs_lt n) (by simp) hrest
    rw [hn]
    rw [hc] at hread ⊢
    unfold readNumber
    split
    · next heq => exact absurd (List.cons.inj heq).1 (ne_minus_of_isDigit hdigit)
    · exact hread
  · have habs : n.value = -(n.value.natAbs : Int) := by omega
    have hread := readUnsigned_natText true n.value.natAbs n habs (natAbs_lt n) (by omega) hrest
    rw [hn]
    exact hread

end Numbers

section Values

theorem skipGaps_cons {c : Char} {rest : List Char} (h : isGap c = false) :
    skipGaps (c :: rest) = c :: rest :=
  List.dropWhile_cons_of_neg (by simp [h])

theorem EndsValue.cons {c : Char} (h : c ∈ [',', ']', '}']) (rest : List Char) :
    EndsValue (c :: rest) := by
  intro d hd
  simp only [List.head?_cons, Option.mem_some_iff] at hd
  exact hd ▸ h

/-- How the text of a value may start: never with a gap, and with a bracket only if the value is a
container. -/
structure Opens (text : List Char) (container : Bool) : Prop where
  head : ∃ c rest, text = c :: rest ∧ isGap c = false ∧ c ≠ ']' ∧
    (container = false → c ≠ '[' ∧ c ≠ '{')

theorem Opens.skipGaps {text : List Char} {container : Bool} (h : Opens text container)
    (rest : List Char) : Json.skipGaps (text ++ rest) = text ++ rest := by
  obtain ⟨c, cs, rfl, hgap, -⟩ := h.head
  exact skipGaps_cons hgap

theorem opens_intText (n : Int) : Opens (intText n) false := by
  obtain ⟨c, cs, hc⟩ := List.exists_cons_of_ne_nil (intText_ne_nil n)
  have hnum : isNumeral c = true := isNumeral_of_mem_intText (n := n) (by simp [hc])
  have hne (d : Char) (hd : isNumeral d = false) : c ≠ d := by
    intro hsame
    obtain rfl := hsame
    exact absurd hnum (by simp [hd])
  refine ⟨c, cs, hc, ?_, hne _ rfl, fun _ => ⟨hne _ rfl, hne _ rfl⟩⟩
  simp [isGap, hne ' ' rfl, hne '\n' rfl, hne '\t' rfl, hne '\r' rfl]

theorem opens_render (v : Json) (hf : v.FloatFree) : Opens v.render v.kind.isContainer := by
  cases v with
  | num n =>
    cases n with
    | int n => exact opens_intText n.value
    | double d => exact absurd hf id
  | bool b => cases b <;> exact ⟨_, _, rfl, rfl, by decide, by decide⟩
  | arr | obj => exact ⟨_, _, rfl, rfl, by decide, by simp [kind, NodeKind.isContainer]⟩
  | null | str => exact ⟨_, _, rfl, rfl, by decide, fun _ => by decide⟩

theorem readScalar_number (n : Integer) {rest : List Char} (hrest : EndsValue rest) :
    readScalar (intText n.value ++ rest) = some (.num (.int n), rest) := by
  rw [← readNumber_intText n hrest]
  obtain ⟨c, cs, hc⟩ := List.exists_cons_of_ne_nil (intText_ne_nil n.value)
  have hnum : isNumeral c = true := isNumeral_of_mem_intText (n := n.value) (by simp [hc])
  have hne (d : Char) (hd : isNumeral d = false) (tail : List Char) :
      intText n.value ++ rest ≠ d :: tail := by
    rw [hc]
    intro he
    rw [(List.cons.inj he).1, hd] at hnum
    simp at hnum
  unfold readScalar
  split
  · next heq => exact absurd heq (hne 'n' rfl _)
  · next heq => exact absurd heq (hne 't' rfl _)
  · next heq => exact absurd heq (hne 'f' rfl _)
  · next heq => exact absurd heq (hne '"' rfl _)
  · rfl

theorem readScalar_render {v : Json} (hf : v.FloatFree) (hv : v.kind.isContainer = false)
    {rest : List Char} (hrest : EndsValue rest) :
    readScalar (v.render ++ rest) = some (v, rest) := by
  cases v with
  | null => rfl
  | bool b => cases b <;> rfl
  | num n =>
    cases n with
    | int n => exact readScalar_number n hrest
    | double d => exact absurd hf id
  | str s =>
    have h := readChars_flatMap s.toList rest
    simp only [render, renderString, readScalar, List.cons_append, List.append_assoc,
      List.nil_append]
    rw [h]
    simp [String.ofList_toList]
  | arr | obj => simp [kind, NodeKind.isContainer] at hv

theorem readValue_scalar {v : Json} (hf : v.FloatFree) (hv : v.kind.isContainer = false)
    (limit : Nat) {rest : List Char} (hrest : EndsValue rest) :
    readValue limit (v.render ++ rest) = some (v, rest) := by
  have hopens := opens_render v hf
  rw [hv] at hopens
  rw [← readScalar_render hf hv hrest]
  cases limit with
  | zero => rw [readValue, hopens.skipGaps]
  | succ limit =>
    obtain ⟨c, cs, hc, -, -, hbracket⟩ := hopens.head
    rw [readValue, hopens.skipGaps]
    split
    · next heq =>
      rw [hc] at heq
      exact absurd (List.cons.inj heq).1 (hbracket rfl).1
    · next heq =>
      rw [hc] at heq
      exact absurd (List.cons.inj heq).1 (hbracket rfl).2
    · rfl

theorem length_renderItems : ∀ items : List Json, (∀ v ∈ items, v.FloatFree) →
    items.length ≤ (renderItems items).length
  | [], _ => by simp
  | [v], h => by
    obtain ⟨c, cs, hc, -⟩ := (opens_render v (h v (by simp))).head
    simp [renderItems, hc]
  | v :: w :: rest, h => by
    have := length_renderItems (w :: rest) fun u hu => h u (List.mem_cons_of_mem _ hu)
    simp only [renderItems, List.length_append, List.length_cons] at this ⊢
    omega

theorem length_renderFields : ∀ fields : List (String × Json),
    fields.length ≤ (renderFields fields).length
  | [] => by simp
  | [(name, v)] => by
    simp only [renderFields, renderString, List.length_append, List.length_cons, List.length_nil]
    omega
  | (name, v) :: field :: rest => by
    have := length_renderFields (field :: rest)
    simp only [renderFields, List.length_append, List.length_cons] at this ⊢
    omega

theorem opens_renderItems {v : Json} (hf : v.FloatFree) (items : List Json) :
    Opens (renderItems (v :: items)) true := by
  obtain ⟨c, cs, hc, hgap, hclose, -⟩ := (opens_render v hf).head
  cases items with
  | nil => exact ⟨c, cs, hc, hgap, hclose, by simp⟩
  | cons w rest => exact ⟨c, cs ++ ',' :: renderItems (w :: rest), by simp [renderItems, hc], hgap,
      hclose, by simp⟩

theorem renderFields_cons (name : String) (v : Json) (fields : List (String × Json)) :
    ∃ tail, renderFields ((name, v) :: fields) = '"' :: tail := by
  cases fields with
  | nil => exact ⟨_, rfl⟩
  | cons field rest => exact ⟨_, rfl⟩

theorem readString_skipGaps (s : String) (rest : List Char) :
    readString (skipGaps (renderString s ++ rest)) = some (s, rest) := by
  rw [← readString_render s rest]
  rfl

theorem floatFree_of_mem : ∀ {items : List Json}, FloatFreeItems items → ∀ v ∈ items, v.FloatFree
  | [], _, _, h => absurd h (by simp)
  | w :: rest, hf, v, h => by
    rcases List.mem_cons.mp h with rfl | h
    · exact hf.1
    · exact floatFree_of_mem hf.2 v h

mutual

/-- A value reads back from its text in front of the end of a container or a text. -/
theorem readValue_render (v : Json) (hf : v.FloatFree) (hw : v.WellFormed) {limit : Nat}
    (hn : v.nesting ≤ limit) (rest : List Char) (hrest : EndsValue rest) :
    readValue limit (v.render ++ rest) = some (v, rest) := by
  match v with
  | .null | .bool _ | .num _ | .str _ => exact readValue_scalar hf rfl limit hrest
  | .arr items =>
    obtain ⟨limit, rfl⟩ : ∃ l, limit = l + 1 := ⟨limit - 1, by simp only [nesting] at hn; omega⟩
    have hlimit : nestingItems items ≤ limit := by simp only [nesting] at hn; omega
    rw [render, List.cons_append, List.append_assoc, readValue, skipGaps_cons rfl]
    simp only [List.cons_append, List.nil_append]
    match items with
    | [] => rfl
    | v :: items =>
      have hread := readItems_render (v :: items) (by simp) hf hw hlimit
        (renderItems (v :: items) ++ ']' :: rest).length (by
          have := length_renderItems (v :: items) (floatFree_of_mem hf)
          simp only [List.length_append] at this ⊢
          omega) rest
      have hopens := opens_renderItems hf.1 items
      rw [hopens.skipGaps]
      split
      · next heq =>
        obtain ⟨c, cs, hc, -, hclose, -⟩ := hopens.head
        rw [hc] at heq
        exact absurd (List.cons.inj heq).1 hclose
      · rw [hread]
        rfl
  | .obj fields =>
    obtain ⟨limit, rfl⟩ : ∃ l, limit = l + 1 := ⟨limit - 1, by simp only [nesting] at hn; omega⟩
    have hlimit : nestingFields fields ≤ limit := by simp only [nesting] at hn; omega
    rw [render, List.cons_append, List.append_assoc, readValue, skipGaps_cons rfl]
    simp only [List.cons_append, List.nil_append]
    match fields with
    | [] => rfl
    | (name, v) :: fields =>
      have hread := readFields_render ((name, v) :: fields) (by simp) hf hw.2 hlimit
        (renderFields ((name, v) :: fields) ++ '}' :: rest).length (by
          have := length_renderFields ((name, v) :: fields)
          simp only [List.length_append] at this ⊢
          omega) rest
      obtain ⟨tail, htail⟩ := renderFields_cons name v fields
      split
      · next heq =>
        rw [htail, List.cons_append, skipGaps_cons rfl] at heq
        exact absurd (List.cons.inj heq).1 (by decide)
      · rw [hread]
        simp only [Option.map_some, Fields.ofList_ascending hw.1]

theorem readItems_render (items : List Json) (hne : items ≠ []) (hf : FloatFreeItems items)
    (hw : WellFormedItems items) {limit : Nat} (hn : nestingItems items ≤ limit) (fuel : Nat)
    (hfuel : items.length ≤ fuel) (rest : List Char) :
    readItems (readValue limit) fuel (renderItems items ++ ']' :: rest) = some (items, rest) := by
  match items, fuel with
  | [], _ => exact absurd rfl hne
  | v :: _, 0 => simp at hfuel
  | [v], fuel + 1 =>
    have hlimit : v.nesting ≤ limit := by
      simp only [nestingItems] at hn
      omega
    have hv := readValue_render v hf.1 hw.1 hlimit (']' :: rest) (.cons (by decide) _)
    rw [renderItems, readItems, hv]
    rfl
  | v :: w :: more, fuel + 1 =>
    have hlimit : v.nesting ≤ limit ∧ nestingItems (w :: more) ≤ limit := by
      simp only [nestingItems] at hn ⊢
      omega
    have hv := readValue_render v hf.1 hw.1 hlimit.1
      (',' :: (renderItems (w :: more) ++ ']' :: rest)) (.cons (by decide) _)
    have hmore := readItems_render (w :: more) (by simp) hf.2 hw.2 hlimit.2 fuel
      (by simpa using hfuel) rest
    rw [renderItems, List.append_assoc, List.cons_append, readItems, hv]
    simp only [skipGaps_cons (show isGap ',' = false from rfl), hmore]
    rfl

theorem readFields_render (fields : List (String × Json)) (hne : fields ≠ [])
    (hf : FloatFreeFields fields) (hw : WellFormedFields fields) {limit : Nat}
    (hn : nestingFields fields ≤ limit) (fuel : Nat) (hfuel : fields.length ≤ fuel)
    (rest : List Char) :
    readFields (readValue limit) fuel (renderFields fields ++ '}' :: rest) =
      some (fields, rest) := by
  match fields, fuel with
  | [], _ => exact absurd rfl hne
  | field :: _, 0 => simp at hfuel
  | [(name, v)], fuel + 1 =>
    have hlimit : v.nesting ≤ limit := by
      simp only [nestingFields] at hn
      omega
    have hv := readValue_render v hf.1 hw.1 hlimit ('}' :: rest) (.cons (by decide) _)
    rw [renderFields, List.append_assoc, readFields, readString_skipGaps]
    simp only [List.cons_append, skipGaps_cons (show isGap ':' = false from rfl), hv,
      skipGaps_cons (show isGap '}' = false from rfl)]
  | (name, v) :: field :: more, fuel + 1 =>
    have hlimit : v.nesting ≤ limit ∧ nestingFields (field :: more) ≤ limit := by
      simp only [nestingFields] at hn ⊢
      omega
    have hv := readValue_render v hf.1 hw.1 hlimit.1
      (',' :: (renderFields (field :: more) ++ '}' :: rest)) (.cons (by decide) _)
    have hmore := readFields_render (field :: more) (by simp) hf.2 hw.2 hlimit.2 fuel
      (by simpa using hfuel) rest
    rw [renderFields, List.append_assoc, readFields, readString_skipGaps]
    simp only [List.cons_append, List.append_assoc, skipGaps_cons (show isGap ':' = false from rfl),
      hv, skipGaps_cons (show isGap ',' = false from rfl), hmore, Option.map_some]

end

/-- A value that is not nested too deep for the reader reads back from its text. -/
theorem read?_render {v : Json} (hf : v.FloatFree) (hw : v.WellFormed) (hn : v.nesting < 128) :
    read? v.render = some v := by
  have hlimit : v.nesting ≤ nestingLimit := by
    unfold nestingLimit
    omega
  have h := readValue_render v hf hw hlimit [] (by simp [EndsValue])
  rw [List.append_nil] at h
  rw [read?, readWithin?, h]
  rfl

end Values

section Balance

mutual

theorem balanced_render (v : Json) (hf : v.FloatFree) :
    Balanced (fun c => c ≠ ',' ∧ c ≠ ':') v.render := by
  match v with
  | .null => exact .ofOrdinary (forall_mem_of_all (by decide))
  | .bool b => cases b <;> exact .ofOrdinary (forall_mem_of_all (by decide))
  | .num (.int n) =>
    refine .ofOrdinary fun c hc => ?_
    have hnum := isNumeral_of_mem_intText hc
    have hne (d : Char) (hd : isNumeral d = false) : c ≠ d := by
      intro hsame
      obtain rfl := hsame
      exact absurd hnum (by simp [hd])
    refine ⟨?_, hne _ rfl, hne _ rfl⟩
    simp [Nesting.isOrdinary, Nesting.isQuote, Nesting.isOpener, Nesting.isCloser, hne '[' rfl,
      hne '{' rfl, hne '(' rfl, hne ']' rfl, hne '}' rfl, hne ')' rfl, hne '"' rfl, hne '\'' rfl]
  | .num (.double d) => exact absurd hf id
  | .str s => exact balanced_renderString s
  | .arr items => exact .bracketed (by decide) (by decide) (balanced_renderItems items hf)
  | .obj fields => exact .bracketed (by decide) (by decide) (balanced_renderFields fields hf)

theorem balanced_renderItems (items : List Json) (hf : FloatFreeItems items) :
    Balanced (fun _ => True) (renderItems items) := by
  match items with
  | [] => exact .nil
  | [v] => exact (balanced_render v hf.1).any
  | v :: w :: rest =>
    exact (balanced_render v hf.1).any.append
      (.bare (by decide) trivial (balanced_renderItems (w :: rest) hf.2))

theorem balanced_renderFields (fields : List (String × Json)) (hf : FloatFreeFields fields) :
    Balanced (fun _ => True) (renderFields fields) := by
  match fields with
  | [] => exact .nil
  | [(name, v)] =>
    exact (balanced_renderString name).append
      (.bare (by decide) trivial (balanced_render v hf.1).any)
  | (name, v) :: field :: rest =>
    exact (balanced_renderString name).append (.bare (by decide) trivial
      ((balanced_render v hf.1).any.append
        (.bare (by decide) trivial (balanced_renderFields (field :: rest) hf.2))))

end

end Balance

end TreePath.Json

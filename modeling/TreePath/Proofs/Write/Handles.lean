import TreePath.Proofs.Tree.Grafting
import TreePath.Proofs.Write.Addressing
import TreePath.Proofs.Write.Place

namespace TreePath

open TreeUpdate

namespace Heap

variable {h h' h₀ h₁ : Heap} {renewed : Nat → Prop} {c d i x : Nat} {v : Json}
  {source : List (String × Json)} {name : String}

section Places

/-- The cell at a key, or the cell itself. -/
def cellAt? (h : Heap) (i : Nat) : Option ChildKey → Option Nat
  | none => some i
  | some key => h.child? i key

/-- A merge of `v` into cell `c` puts new content into cell `x`: there, it comes upon anything else
than a mapping in `v` for a mapping on the heap. -/
inductive Renews (h : Heap) : Json → Nat → Nat → Prop where
  | here {v : Json} {c : Nat} (hother : ¬ (v.kind = .mapping ∧ h.kind c = .mapping)) :
      Renews h v c c
  | inside {source : List (String × Json)} {name : String} {v : Json} {c d x : Nat}
      (hc : h.kind c = .mapping) (hv : (name, v) ∈ source) (hd : h.child? c (.name name) = some d)
      (hx : Renews h v d x) : Renews h (.obj source) c x

/-- The cells that get new content when the fields are merged into a mapping. -/
def RenewsFields (h : Heap) (source : List (String × Json)) (c x : Nat) : Prop :=
  ∃ name v d, (name, v) ∈ source ∧ h.child? c (.name name) = some d ∧ h.Renews v d x

theorem renewsFields_cons {field : String × Json} {rest : List (String × Json)} :
    h.RenewsFields (field :: rest) c x ↔ h.RenewsFields [field] c x ∨ h.RenewsFields rest c x := by
  constructor
  · rintro ⟨name, v, d, hv, hd, hx⟩
    rcases List.mem_cons.mp hv with rfl | hrest
    · exact .inl ⟨name, v, d, List.mem_singleton_self _, hd, hx⟩
    · exact .inr ⟨name, v, d, hrest, hd, hx⟩
  · rintro (⟨name, v, d, hv, hd, hx⟩ | ⟨name, v, d, hv, hd, hx⟩)
    · exact ⟨name, v, d, List.mem_cons.mpr (.inl (List.mem_singleton.mp hv)), hd, hx⟩
    · exact ⟨name, v, d, List.mem_cons_of_mem _ hv, hd, hx⟩

theorem renewsFields_single (hd : h.child? c (.name name) = some d) :
    h.RenewsFields [(name, v)] c x ↔ h.Renews v d x := by
  constructor
  · rintro ⟨_, _, d', hv, hd', hx⟩
    obtain ⟨rfl, rfl⟩ := Prod.mk.inj (List.mem_singleton.mp hv)
    obtain rfl := Option.some.inj (hd.symm.trans hd')
    exact hx
  · exact fun hx => ⟨name, v, d, List.mem_singleton_self _, hd, hx⟩

theorem not_renewsFields_single (hnone : h.child? c (.name name) = none) :
    ¬ h.RenewsFields [(name, v)] c x := by
  rintro ⟨_, _, d, hv, hd, -⟩
  obtain ⟨rfl, rfl⟩ := Prod.mk.inj (List.mem_singleton.mp hv)
  rw [hnone] at hd
  cases hd

theorem renews_mapping (hc : h.kind c = .mapping) :
    h.Renews (.obj source) c x ↔ h.RenewsFields source c x := by
  constructor
  · rintro (hother | ⟨-, hv, hd, hx⟩)
    · exact absurd ⟨rfl, hc⟩ hother
    · exact ⟨_, _, _, hv, hd, hx⟩
  · rintro ⟨name, v, d, hv, hd, hx⟩
    exact .inside hc hv hd hx

theorem renews_other (hother : ¬ (v.kind = .mapping ∧ h.kind c = .mapping)) :
    h.Renews v c x ↔ x = c := by
  constructor
  · rintro (- | ⟨hc, -, -, -⟩)
    · rfl
    · exact absurd ⟨rfl, hc⟩ hother
  · rintro rfl
    exact .here hother

theorem Renews.leadsTo (hx : h.Renews v c x) : h.LeadsTo c x := by
  induction hx with
  | here => exact .refl _
  | inside _ _ hd _ ih => exact (hasChild_of_child? hd).leadsTo.trans ih

theorem Renews.transport (hx : h.Renews v c x) (hs : SameBelow h h' c) : h'.Renews v c x := by
  induction hx with
  | @here v c hother =>
    refine .here ?_
    rwa [hs.kind_eq (.refl c)]
  | @inside source name v c d x hc hv hd _ ih =>
    refine .inside (hs.kind_eq (.refl c) ▸ hc) hv ?_ (ih (hs.below (hasChild_of_child? hd).leadsTo))
    rw [hs.child?_eq (.refl c), hd]

theorem SameBelow.renews_iff (hs : SameBelow h h' c) : h'.Renews v c x ↔ h.Renews v c x :=
  ⟨fun hx => hx.transport hs.symm, fun hx => hx.transport hs⟩

end Places

section Fields

/-- The fields that are merged into cell `c` so far have left those of `source` as they were. -/
structure Merging (h₀ : Heap) (c : Nat) (source : List (String × Json)) (renewed : Nat → Prop)
    (h : Heap) : Prop where
  grafts : Grafts h₀ (h₀.LeadsTo c) renewed h
  kind_eq : h.kind c = .mapping
  child?_eq : ∀ name v, (name, v) ∈ source →
    h.child? c (.name name) = h₀.child? c (.name name)
  same : ∀ name v d, (name, v) ∈ source → h₀.child? c (.name name) = some d → SameBelow h₀ h d

theorem Merging.start (hc : h.kind c = .mapping) (source : List (String × Json)) :
    Merging h c source (fun _ => False) h where
  grafts := (Grafts.refl h).imp (fun _ => False.elim) fun _ => .rfl
  kind_eq := hc
  child?_eq _ _ _ := rfl
  same _ _ _ _ _ _ _ := rfl

/-- A step for the first of the fields that keeps away from what the other ones lead to. -/
theorem Merging.next {touched renewed₁ renewed' : Nat → Prop} {rest : List (String × Json)}
    (hm : Merging h₀ c ((name, v) :: rest) renewed h) (ht : h₀.IsTree c)
    (hasc : Fields.Ascending ((name, v) :: rest)) (hg : Grafts h touched renewed' h₁)
    (hinside : ∀ x, touched x → h₀.LeadsTo c x) (hkind : h₁.kind c = .mapping)
    (hchild : ∀ other, other ≠ name → h₁.child? c (.name other) = h.child? c (.name other))
    (hapart : ∀ other d, other ≠ name → h₀.child? c (.name other) = some d →
      ∀ x, h₀.LeadsTo d x → ¬ touched x)
    (hrenewed : ∀ x, renewed x ∨ renewed' x ↔ renewed₁ x) : Merging h₀ c rest renewed₁ h₁ := by
  have hne : ∀ other w, (other, w) ∈ rest → other ≠ name := by
    rintro other w hw rfl
    exact String.lt_irrefl _ ((Fields.ascending_cons.mp hasc).1 _ hw)
  refine ⟨(hm.grafts.trans hg).imp (fun x hx => hx.elim id (hinside x)) hrenewed, hkind,
    fun other w hw => ?_, fun other w d hw hd x hx => ?_⟩
  · rw [hchild other (hne other w hw), hm.child?_eq other w (List.mem_cons_of_mem _ hw)]
  · have hlt := ht.lt_size ((hasChild_of_child? hd).leadsTo.trans hx)
    rw [hg.content_eq x (Nat.lt_of_lt_of_le hlt hm.grafts.size_le)
      (hapart other d (hne other w hw) hd x hx)]
    exact hm.same other w d (List.mem_cons_of_mem _ hw) hd x hx

/-- The mapping is at the key that it was at. -/
theorem Merging.cellAt?_eq {key : Option ChildKey} (hm : Merging h₀ c source renewed h)
    (hc : h₀.cellAt? i key = some c) (hout : key ≠ none → ¬ h₀.LeadsTo c i) :
    h.cellAt? i key = some c := by
  cases key with
  | none => exact hc
  | some key =>
    have hcontent := hm.grafts.content_eq i (hasChild_of_child? hc).lt_size (hout nofun)
    unfold cellAt? child?
    rw [hcontent]
    exact hc

end Fields

end Heap

section Outcomes

variable {h h₁ h₂ : Heap} {c i : Nat} {key : Option ChildKey} {x y : Write HeapNode Nat}

/-- The write succeeds, trips no guard, comes back to its cell and leaves `h'` behind. -/
def Write.RunsTo (x : Write HeapNode Nat) (h : Heap) (i : Nat) (h' : Heap) : Prop :=
  ∃ n, x ⟨h, i⟩ = ⟨.ok n, ⟨h', i⟩, 0⟩

theorem Write.RunsTo.add (hx : x.RunsTo h i h₁) (hy : y.RunsTo h₁ i h₂) :
    Write.RunsTo (do
      let n ← x
      let m ← y
      return n + m) h i h₂ := by
  obtain ⟨n, hx⟩ := hx
  obtain ⟨m, hy⟩ := hy
  exact ⟨n + m, (Write.bind_ok hx _).trans (Write.bind_ok hy _)⟩

theorem Write.RunsTo.inChild {key : ChildKey} (hc : h.child? i key = some c)
    (hx : x.RunsTo h c h₁) : (inChild key x).RunsTo h i h₁ := by
  obtain ⟨n, hx⟩ := hx
  have hwith : HeapNode.withChild key x ⟨h, i⟩ = ⟨.ok (some n), ⟨h₁, i⟩, 0⟩ := by
    unfold HeapNode.withChild
    simp only [hc]
    change Outcome.mk ((x ⟨h, c⟩).result.map some) ((x ⟨h, c⟩).tree.goto i) (x ⟨h, c⟩).trips = _
    rw [hx]
    rfl
  exact ⟨n, Write.bind_ok hwith _⟩

theorem Write.RunsTo.atKey (hc : h.cellAt? i key = some c) (hx : x.RunsTo h c h₁) :
    (atKey key x).RunsTo h i h₁ := by
  cases key with
  | none =>
    obtain rfl := Option.some.inj hc
    exact hx
  | some key => exact hx.inChild hc

/-- The kind at a key is that of the cell there. -/
theorem kindAt?_cellAt? (hc : h.cellAt? i key = some c) :
    kindAt? key (⟨h, i⟩ : HeapNode) = some .mapping ↔ h.kind c = .mapping := by
  have hkind : kindAt? key (⟨h, i⟩ : HeapNode) =
      if h.isVacant c then none else some (h.kind c) := by
    cases key with
    | none =>
      obtain rfl := Option.some.inj hc
      rfl
    | some key =>
      change (h.child? i key).bind _ = _
      rw [show h.child? i key = some c from hc]
      rfl
  rw [hkind]
  cases hvacant : h.isVacant c with
  | false => simp
  | true =>
    have hleaf : h.kind c ≠ .mapping := by
      unfold Heap.isVacant at hvacant
      unfold Heap.kind
      cases hcontent : h.content c with
      | leaf v => exact NodeKind.noConfusion
      | mapping | sequence | function => simp [hcontent] at hvacant
    simp [hleaf]

/-- A patch that leaves a value is applied by putting that value into the cell. -/
theorem runsTo_apply (v : Json) (hc : h.cellAt? i key = some c) :
    ∃ w, Write.RunsTo (apply key ⟨some v, .merge, true⟩) h i (h.set c w) := by
  cases key with
  | none =>
    obtain rfl := Option.some.inj hc
    exact ⟨_, 1, rfl⟩
  | some key =>
    have hpatched : ∃ w, h.patchedChild key ⟨some v, .merge, true⟩ i = (1, h.set c w) := by
      unfold Heap.patchedChild
      rw [show h.child? i key = some c from hc]
      exact ⟨_, rfl⟩
    obtain ⟨w, hpatched⟩ := hpatched
    refine ⟨w, 1, ?_⟩
    change Write.step (HeapNode.liftStep (Heap.patchedChild key _)) ⟨h, i⟩ = _
    unfold Write.step HeapNode.liftStep
    rw [hpatched]

/-- Where there is no child yet, a new one is put. -/
theorem runsTo_apply_new (v : Json) {key : ChildKey} (hnone : h.child? i key = none) :
    ∃ w, Write.RunsTo (apply (some key) ⟨some v, .merge, true⟩) h i (h.putNew key w i).2 := by
  have hpatched : ∃ w, h.patchedChild key ⟨some v, .merge, true⟩ i = h.putNew key w i := by
    unfold Heap.patchedChild
    rw [hnone]
    exact ⟨_, rfl⟩
  obtain ⟨w, hpatched⟩ := hpatched
  refine ⟨w, (h.putNew key w i).1, ?_⟩
  change Write.step (HeapNode.liftStep (Heap.patchedChild key _)) ⟨h, i⟩ = _
  unfold Write.step HeapNode.liftStep
  rw [hpatched]

end Outcomes

section Settling

variable (config : Config) {h h₀ : Heap} {c d i : Nat} {source : List (String × Json)}

theorem isVacant_of_isContainer (hi : (h.kind i).isContainer = true) : h.isVacant i = false := by
  unfold Heap.kind at hi
  unfold Heap.isVacant
  cases hcontent : h.content i with
  | leaf v => simp [hcontent, Content.kind, NodeKind.isContainer] at hi
  | mapping | sequence | function => rfl

/-- In a container, a segment is looked up as it is. -/
theorem enter_container (done : Path) (s : Segment) (hi : (h.kind i).isContainer = true) :
    (enter config done s false : Write HeapNode _) ⟨h, i⟩ =
      childKey config done s false ⟨h, i⟩ := by
  have hopen : Write.step (ensureContainer s.container) (⟨h, i⟩ : HeapNode) =
      ⟨.ok true, ⟨h, i⟩, 0⟩ := by
    change Write.step (HeapNode.liftStep (Heap.ensureContainer s.container)) ⟨h, i⟩ = _
    unfold Write.step HeapNode.liftStep Heap.ensureContainer
    simp [isVacant_of_isContainer hi, hi]
  unfold enter
  rw [Write.view_bind_apply, Bool.false_and, if_neg Bool.false_ne_true, Write.bind_ok hopen]
  rfl

/-- Into a mapping, a name is entered as it is. -/
theorem enter_mapping (hc : h.kind c = .mapping) (done : Path) (name : String) :
    (enter config done (.key name) false : Write HeapNode _) ⟨h, c⟩ =
      ⟨.ok (some (.name name)), ⟨h, c⟩, 0⟩ := by
  rw [enter_container config done _ (by rw [hc]; rfl), childKey, Write.view_bind_apply]
  change (if (h.kind c == .sequence) = true then _ else _ : Write HeapNode _) _ = _
  rw [hc]
  rfl

/-- A field that the mapping does not hold yet is put into it. -/
theorem settle_missing {name : String} {v : Json} {rest : List (String × Json)}
    {renewed : Nat → Prop} (ht : h₀.IsTree c) (hasc : Fields.Ascending ((name, v) :: rest))
    (hm : h₀.Merging c ((name, v) :: rest) renewed h) (hnone : h₀.child? c (.name name) = none)
    (depth : Nat) :
    ∃ h₁, (settle config .merge true v (some (.name name)) depth).RunsTo h c h₁ ∧
      h₀.Merging c rest (fun x => renewed x ∨ h₀.RenewsFields [(name, v)] c x) h₁ := by
  have hmissing : h.child? c (.name name) = none := by
    rw [hm.child?_eq name v List.mem_cons_self, hnone]
  have hkind : kindAt? (some (.name name)) (⟨h, c⟩ : HeapNode) ≠ some .mapping := by
    change (h.child? c (.name name)).bind _ ≠ _
    rw [hmissing, Option.bind_none]
    exact nofun
  obtain ⟨fields, hcontent⟩ := Heap.exists_mapping hm.kind_eq
  obtain ⟨w, n, hrun⟩ := runsTo_apply_new v hmissing
  refine ⟨_, ⟨n, (Json.settle_apply config _ _ v (fun _ => hkind) depth).trans hrun⟩, ?_⟩
  refine hm.next ht hasc (Heap.grafts_putNew hcontent hmissing w) (fun x hx => hx ▸ .refl x) ?_
    (fun other hne => Heap.child?_putNew_of_ne hcontent hmissing w hne)
    (fun other d _ hd x hx hxc => ?_)
    fun x => or_congr_right (iff_of_false id (Heap.not_renewsFields_single hnone))
  · rw [Heap.kind, Heap.content_putNew_self hcontent hmissing w]
    rfl
  · exact ht.acyclic (.refl c) (Heap.hasChild_of_child? hd) (hxc ▸ hx)

/-- Wherever in a tree a value is settled at this depth, the merge renews what it is to renew, and
touches only what is below. -/
def SettlesAt (v : Json) (depth : Nat) : Prop :=
  ∀ (h : Heap) (i c : Nat) (key : Option ChildKey), h.cellAt? i key = some c → h.IsTree c →
    (key ≠ none → ¬ h.LeadsTo c i) →
    ∃ h', (settle config .merge true v key depth).RunsTo h i h' ∧
      h.Grafts (h.LeadsTo c) (h.Renews v c) h'

/-- A value that does not go field by field is put in the place of what is there. -/
theorem settle_other {v : Json} {key : Option ChildKey} (hc : h.cellAt? i key = some c)
    (ht : h.IsTree c) (hother : ¬ (v.kind = .mapping ∧ h.kind c = .mapping)) (depth : Nat) :
    ∃ h', (settle config .merge true v key depth).RunsTo h i h' ∧
      h.Grafts (h.LeadsTo c) (h.Renews v c) h' := by
  have hkind : v.kind = .mapping → kindAt? key (⟨h, i⟩ : HeapNode) ≠ some .mapping :=
    fun hv hc' => hother ⟨hv, (kindAt?_cellAt? hc).mp hc'⟩
  obtain ⟨w, n, hrun⟩ := runsTo_apply v hc
  refine ⟨h.set c w, ⟨n, (Json.settle_apply config _ _ v hkind depth).trans hrun⟩, ?_⟩
  exact (h.grafts_set (ht.lt_size (.refl c)) w).imp (fun x hx => hx ▸ .refl x)
    fun x => (Heap.renews_other hother).symm

/-- A field that the mapping holds already is settled at the cell that it is held in. -/
theorem settle_held {name : String} {v : Json} {rest : List (String × Json)}
    {renewed : Nat → Prop} {depth : Nat} (hv : SettlesAt config v depth) (ht : h₀.IsTree c)
    (hasc : Fields.Ascending ((name, v) :: rest))
    (hm : h₀.Merging c ((name, v) :: rest) renewed h) (hd : h₀.child? c (.name name) = some d) :
    ∃ h₁, (settle config .merge true v (some (.name name)) depth).RunsTo h c h₁ ∧
      h₀.Merging c rest (fun x => renewed x ∨ h₀.RenewsFields [(name, v)] c x) h₁ := by
  have hchild := Heap.hasChild_of_child? hd
  have hsame := hm.same name v d List.mem_cons_self hd
  have hheld : h.child? c (.name name) = some d := by
    rw [hm.child?_eq name v List.mem_cons_self, hd]
  have houter : ¬ h.LeadsTo d c := hsame.leadsTo_iff.not.mpr (ht.acyclic (.refl c) hchild)
  obtain ⟨h₁, hrun, hgrafts⟩ := hv h c d (some (.name name)) hheld
    (hsame.isTree (ht.below hchild.leadsTo) hm.grafts.size_le) fun _ => houter
  have hcontent : h₁.content c = h.content c := hgrafts.content_eq c
    (Heap.hasChild_of_child? hheld).lt_size houter
  refine ⟨h₁, hrun, hm.next ht hasc hgrafts (fun x hx => ?_) ?_ (fun other _ => ?_)
    (fun other e hne he x hx hx' => ?_) fun x => or_congr_right ?_⟩
  · exact hchild.leadsTo.trans (hsame.leadsTo_iff.mp hx)
  · rw [Heap.kind, hcontent]
    exact hm.kind_eq
  · rw [Heap.child?, hcontent]
    rfl
  · exact ht.apart (.refl c) (Heap.hasChild_of_child? he) hchild
      (ht.child_ne (.refl c) he hd hne) hx (hsame.leadsTo_iff.mp hx')
  · rw [hsame.renews_iff, Heap.renewsFields_single hd]

mutual

theorem settle_grafts (v : Json) (hv : v.WellFormed) {depth : Nat}
    (hdepth : depth + v.objectLevels ≤ config.maxDepth) : SettlesAt config v depth := by
  intro h i c key hc ht hout
  match v with
  | .obj source =>
    by_cases hmapping : h.kind c = .mapping
    · obtain ⟨h', ⟨n, hrun⟩, hgrafts⟩ := settleFields_grafts source hv.1 hv.2 hdepth hc ht hout
        (.start hmapping source)
      refine ⟨h', ⟨n, ?_⟩, hgrafts.imp (fun _ => id) fun x => ?_⟩
      · rw [settle, Write.view_bind_apply, (kindAt?_cellAt? hc).mpr hmapping]
        exact hrun
      · rw [false_or, Heap.renews_mapping hmapping]
    · exact settle_other config hc ht (fun hboth => hmapping hboth.2) depth
  | .arr _ | .null | .bool _ | .num _ | .str _ =>
    exact settle_other config hc ht (by simp [Json.kind]) depth

/-- The fields to come find the heap as the ones before have left it. -/
theorem settleFields_grafts (source : List (String × Json)) (hasc : Fields.Ascending source)
    (hsource : Json.WellFormedFields source) {depth : Nat}
    (hdepth : depth + (Json.fieldLevels source + 1) ≤ config.maxDepth) {key : Option ChildKey}
    {renewed : Nat → Prop} {h₀ h : Heap} {i c : Nat} (hc : h₀.cellAt? i key = some c)
    (ht : h₀.IsTree c) (hout : key ≠ none → ¬ h₀.LeadsTo c i)
    (hm : h₀.Merging c source renewed h) :
    ∃ h', (settleFields config true source key depth).RunsTo h i h' ∧
      h₀.Grafts (h₀.LeadsTo c) (fun x => renewed x ∨ h₀.RenewsFields source c x) h' := by
  match source with
  | [] =>
    refine ⟨h, ⟨0, by rw [settleFields]; rfl⟩, hm.grafts.imp (fun _ => id) fun x => ?_⟩
    simp [Heap.RenewsFields]
  | (name, v) :: rest =>
    rw [Json.fieldLevels] at hdepth
    have hfirst : depth + 1 + v.objectLevels ≤ config.maxDepth := by omega
    have hleft : depth + (Json.fieldLevels rest + 1) ≤ config.maxDepth := by omega
    have hfield : ∃ h₁,
        (settle config .merge true v (some (.name name)) (depth + 1)).RunsTo h c h₁ ∧
          h₀.Merging c rest (fun x => renewed x ∨ h₀.RenewsFields [(name, v)] c x) h₁ := by
      cases hfound : h₀.child? c (.name name) with
      | none => exact settle_missing config ht hasc hm hfound (depth + 1)
      | some d => exact settle_held config (settle_grafts v hsource.1 hfirst) ht hasc hm hfound
    obtain ⟨h₁, ⟨n, hrun⟩, hnext⟩ := hfield
    obtain ⟨h', hrest, hgrafts⟩ := settleFields_grafts rest (Fields.ascending_cons.mp hasc).2
      hsource.2 hleft hc ht hout hnext
    refine ⟨h', ?_, hgrafts.imp (fun _ => id) fun x => ?_⟩
    · rw [settleFields, if_neg (by omega)]
      refine .add (.atKey (hm.cellAt?_eq hc hout) ⟨n, ?_⟩) hrest
      exact (Write.bind_ok (enter_mapping config hm.kind_eq [] name) _).trans hrun
    · rw [or_assoc, ← Heap.renewsFields_cons]

end

end Settling

section Paths

variable (config : Config) {h : Heap} {root n c i : Nat} {s : Segment} {key : ChildKey}

/-- The key at which a write looks for the child that a segment leads to. -/
def Heap.keyOf? (h : Heap) (i : Nat) (s : Segment) : Option ChildKey :=
  match s with
  | .key name =>
    if h.kind i = .sequence then identified? config.idField name (⟨h, i⟩ : HeapNode)
    else some (.name name)
  | .index k =>
    if h.kind i = .sequence then (place? k (h.content i).size).map .index
    else some (.name (toString k.toInt))
  | _ => none

/-- The cell that a write along names and positions leads to, where all of its way is there. -/
def Heap.descend? (h : Heap) (i : Nat) (p : Path) : Option Nat :=
  match p with
  | [] => some i
  | s :: rest =>
    (h.keyOf? config i s).bind fun key => (h.child? i key).bind fun c => h.descend? c rest

theorem Heap.isConcrete_of_keyOf? (hkey : h.keyOf? config i s = some key) :
    s.isConcrete = true := by
  cases s with
  | key | index => rfl
  | slice | predicate | tag | union | tuple => cases hkey

theorem Heap.isContainer_of_child? (hc : h.child? i key = some c) :
    (h.kind i).isContainer = true := by
  unfold Heap.child? at hc
  unfold Heap.kind
  cases hcontent : h.content i with
  | mapping | sequence => rfl
  | leaf | function =>
    rw [hcontent] at hc
    cases hc

theorem Heap.lt_size_of_child? {k : Nat} (hi : h.kind i = .sequence)
    (hc : h.child? i (.index k) = some c) : k < (h.content i).size := by
  unfold Heap.child? at hc
  unfold Heap.kind at hi
  cases hcontent : h.content i with
  | sequence items =>
    rw [hcontent] at hc
    exact (List.getElem?_eq_some_iff.mp hc).1
  | mapping | leaf | function => simp [hcontent, Content.kind] at hi

theorem positionKey_found (done : Path) {k : Int64} {place : Nat} (hi : h.kind i = .sequence)
    (hplace : place? k (h.content i).size = some place)
    (hc : h.child? i (.index place) = some c) :
    (positionKey config done k false : Write HeapNode _) ⟨h, i⟩ =
      ⟨.ok (some (.index place)), ⟨h, i⟩, 0⟩ := by
  have hcount : place? k (TreeUpdate.childCount (⟨h, i⟩ : HeapNode)) = some place := hplace
  have hgap : place - TreeUpdate.childCount (⟨h, i⟩ : HeapNode) = 0 :=
    Nat.sub_eq_zero_of_le (Nat.le_of_lt (Heap.lt_size_of_child? hi hc))
  unfold positionKey
  rw [Write.view_bind_apply]
  simp only [hcount, hgap, Nat.not_lt_zero, decide_false, Bool.and_false]
  rfl

/-- A child that is there is entered as it is. -/
theorem enter_found (done : Path) (hkey : h.keyOf? config i s = some key)
    (hc : h.child? i key = some c) :
    (enter config done s false : Write HeapNode _) ⟨h, i⟩ = ⟨.ok (some key), ⟨h, i⟩, 0⟩ := by
  have hsequence : (TreeUpdate.kind (⟨h, i⟩ : HeapNode) == .sequence) =
      decide (h.kind i = .sequence) := by
    change (h.kind i == .sequence) = _
    cases h.kind i <;> rfl
  rw [enter_container config done s (Heap.isContainer_of_child? hc), childKey,
    Write.view_bind_apply, hsequence]
  by_cases hi : h.kind i = .sequence
  · rcases Segment.eq_of_isConcrete (Heap.isConcrete_of_keyOf? config hkey) with
      ⟨name, rfl⟩ | ⟨k, rfl⟩
    · simp only [Heap.keyOf?, hi, if_true] at hkey
      simp only [hi, decide_true, if_true, identifiedKey]
      rw [Write.view_bind_apply, hkey]
      rfl
    · simp only [Heap.keyOf?, hi, if_true] at hkey
      obtain ⟨place, hplace, rfl⟩ := Option.map_eq_some_iff.mp hkey
      simp only [hi, decide_true, if_true]
      exact positionKey_found config done hi hplace hc
  · rcases Segment.eq_of_isConcrete (Heap.isConcrete_of_keyOf? config hkey) with
      ⟨name, rfl⟩ | ⟨k, rfl⟩
    all_goals
      simp only [Heap.keyOf?, hi, if_false] at hkey
      obtain rfl := Option.some.inj hkey
      simp only [hi, decide_false, Bool.false_eq_true, if_false]
      rfl

theorem Heap.isContainer_of_descend? {after : Segment} {more : Path}
    (hc : h.descend? config i (after :: more) = some c) : (h.kind i).isContainer = true := by
  obtain ⟨key, -, hrest⟩ := Option.bind_eq_some_iff.mp hc
  obtain ⟨d, hd, -⟩ := Option.bind_eq_some_iff.mp hrest
  exact Heap.isContainer_of_child? hd

theorem Heap.leadsTo_of_descend? {p : Path} (hc : h.descend? config i p = some c) :
    h.LeadsTo i c := by
  induction p generalizing i with
  | nil =>
    obtain rfl := Option.some.inj hc
    exact .refl i
  | cons s rest ih =>
    obtain ⟨key, -, hrest⟩ := Option.bind_eq_some_iff.mp hc
    obtain ⟨d, hd, hdc⟩ := Option.bind_eq_some_iff.mp hrest
    exact (Heap.hasChild_of_child? hd).leadsTo.trans (ih hdc)

theorem Heap.isConcrete_of_descend? {p : Path} (hc : h.descend? config i p = some c) :
    p.IsConcrete := by
  induction p generalizing i with
  | nil => exact nofun
  | cons s rest ih =>
    obtain ⟨key, hkey, hrest⟩ := Option.bind_eq_some_iff.mp hc
    obtain ⟨d, -, hdc⟩ := Option.bind_eq_some_iff.mp hrest
    exact List.forall_mem_cons.mpr ⟨Heap.isConcrete_of_keyOf? config hkey, ih hdc⟩

/-- The segment that leads to the child at a key. -/
def ChildKey.segment : ChildKey → Segment
  | .name field => .key field
  | .index k => .index (Int64.ofNat k)

theorem Heap.keyOf?_segment {key : ChildKey} (hc : h.child? i key = some c)
    (hfits : ∀ k, key = .index k → k < 2 ^ 63) :
    ∃ other, h.keyOf? config i key.segment = some other ∧ h.child? i other = some c := by
  unfold ChildKey.segment Heap.keyOf?
  cases hcontent : h.content i with
  | mapping fields =>
    have hkind : h.kind i ≠ .sequence := by simp [Heap.kind, hcontent, Content.kind]
    cases key with
    | name name => exact ⟨_, if_neg hkind, hc⟩
    | index k =>
      refine ⟨.name (toString (Int64.ofNat k).toInt), if_neg hkind, ?_⟩
      rw [Int64.toInt_ofNat_of_lt (hfits k rfl), Heap.child?_name hcontent]
      rwa [Heap.child?_mapping hcontent] at hc
  | sequence items =>
    have hkind : h.kind i = .sequence := by simp [Heap.kind, hcontent, Content.kind]
    cases key with
    | name name =>
      rw [Heap.child?, hcontent] at hc
      cases hc
    | index k =>
      have hplace : place? (Int64.ofNat k) (Content.sequence items).size = some k := by
        unfold place?
        rw [Int64.toInt_ofNat_of_lt (hfits k rfl), if_neg (by omega), if_neg (by omega),
          Int.toNat_natCast]
      exact ⟨_, (if_pos hkind).trans (congrArg (Option.map _) hplace), hc⟩
  | leaf | function =>
    rw [Heap.child?, hcontent] at hc
    cases hc

/-- Every location is at the end of a path, as far as its positions can be written in one. -/
theorem Heap.descend?_of_at? {l : Location} (hc : h.at? i l = some c)
    (hfits : ∀ k, .index k ∈ l → k < 2 ^ 63) :
    h.descend? config i (l.map ChildKey.segment) = some c := by
  induction l generalizing i with
  | nil => exact hc
  | cons key rest ih =>
    obtain ⟨d, hd, hrest⟩ := Option.bind_eq_some_iff.mp hc
    obtain ⟨other, hkey, hother⟩ := Heap.keyOf?_segment config hd
      fun k hk => hfits k (hk ▸ List.mem_cons_self)
    rw [List.map_cons, Heap.descend?, hkey, Option.bind_some, hother, Option.bind_some]
    exact ih hrest fun k hk => hfits k (List.mem_cons_of_mem _ hk)

/-- A container that is there is reached as it is. -/
theorem reach_found (hc : h.child? i key = some c) (hcontainer : (h.kind c).isContainer = true)
    (container : NodeKind) :
    (childKind? (⟨h, i⟩ : HeapNode) key).isNone = false ∧
      (reach key container : Write HeapNode _) ⟨h, i⟩ = ⟨.ok true, ⟨h, i⟩, 0⟩ := by
  have hkind : childKind? (⟨h, i⟩ : HeapNode) key = some (h.kind c) := by
    change (h.child? i key).bind _ = _
    rw [hc]
    simp [isVacant_of_isContainer hcontainer]
  refine ⟨by rw [hkind]; rfl, ?_⟩
  unfold reach
  rw [Write.view_bind_apply, hkind]
  rfl

/-- A write enters a child that is there. -/
theorem runsTo_writeAt {patch : Patch} (hpatch : patch.isRemoval = false) {depth : Nat}
    (hdepth : depth ≤ config.maxDepth) (done : Path) (hkey : h.keyOf? config i s = some key)
    (hc : h.child? i key = some c) {rest : Path} {h' : Heap}
    (hbelow : (writeBelow config patch done s rest depth key).RunsTo h i h') :
    (writeAt config patch done (s :: rest) depth).RunsTo h i h' := by
  obtain ⟨n, hbelow⟩ := hbelow
  rw [writeAt, if_neg (Nat.not_lt_of_le hdepth),
    writeOn_concrete config _ done (Heap.isConcrete_of_keyOf? config hkey), hpatch]
  exact ⟨n, (Write.bind_ok (enter_found config done hkey hc) _).trans hbelow⟩

/-- In a child that is a container, a write goes on along the path. -/
theorem runsTo_writeBelow {patch : Patch} {depth : Nat} (done : Path) (s : Segment)
    (hc : h.child? i key = some c) (hcontainer : (h.kind c).isContainer = true) {after : Segment}
    {more : Path} {h' : Heap}
    (hinside : (writeAt config patch (done.append s) (after :: more) (depth + 1)).RunsTo h c h') :
    (writeBelow config patch done s (after :: more) depth key).RunsTo h i h' := by
  obtain ⟨hthere, hreach⟩ := reach_found hc hcontainer after.container
  rw [writeBelow]
  obtain ⟨n, hinside⟩ := hinside.inChild hc
  refine ⟨n, ?_⟩
  rw [Write.view_bind_apply, hthere, Bool.false_and, if_neg Bool.false_ne_true,
    Write.bind_ok hreach]
  exact hinside

/-- A merge at the end of a path on which everything is there renews what it renews at its end, and
touches nothing else. -/
theorem writeAt_grafts {source : List (String × Json)} (hsource : (Json.obj source).WellFormed)
    {p : Path} (done : Path) {depth : Nat} (ht : h.IsTree i) (hc : h.descend? config i p = some c)
    (hdepth : depth + (p.length - 1) + (Json.obj source).objectLevels ≤ config.maxDepth) :
    ∃ h', (writeAt config (.merge (.obj source)) done p depth).RunsTo h i h' ∧
      h.Grafts (h.LeadsTo c) (h.Renews (.obj source) c) h' := by
  induction p generalizing done depth i with
  | nil =>
    obtain rfl := Option.some.inj hc
    rw [writeAt, if_neg (by omega), writeOn]
    exact settle_grafts config (.obj source) hsource (by simpa using hdepth) h i i none rfl ht
      fun hne => absurd rfl hne
  | cons s rest ih =>
    obtain ⟨key, hkey, hrest⟩ := Option.bind_eq_some_iff.mp hc
    obtain ⟨d, hd, hdc⟩ := Option.bind_eq_some_iff.mp hrest
    have hchild := Heap.hasChild_of_child? hd
    cases rest with
    | nil =>
      obtain rfl := Option.some.inj hdc
      obtain ⟨h', hrun, hgrafts⟩ := settle_grafts config (.obj source) hsource
        (by simpa using hdepth) h i d (some key) hd (ht.below hchild.leadsTo)
        fun _ => ht.acyclic (.refl i) hchild
      refine ⟨h', runsTo_writeAt config rfl (by omega) done hkey hd ?_, hgrafts⟩
      rw [writeBelow]
      exact hrun
    | cons after more =>
      have hleft : depth + 1 + ((after :: more).length - 1) + (Json.obj source).objectLevels ≤
          config.maxDepth := by
        simp only [List.length_cons] at hdepth ⊢
        omega
      obtain ⟨h', hrun, hgrafts⟩ := ih (done.append s) (ht.below hchild.leadsTo) hdc hleft
      have hcontainer := Heap.isContainer_of_descend? config hdc
      exact ⟨h', runsTo_writeAt config rfl (by omega) done hkey hd
        (runsTo_writeBelow config done s hd hcontainer hrun), hgrafts⟩

/-- A merge into a tree keeps its nodes. It succeeds, and the mapping that its path leads to is
where it was. So is every node below that mapping, with its parent, unless on the way there the merge
replaces what a node holds, since it brings no mapping for it or finds none. What was below a node
whose content it replaces can no longer be reached from the root, and those that were right below it
have no parent. -/
theorem merge_keeps_nodes {h : Heap} {root n c : Nat} (ht : h.IsTree root) (hn : h.LeadsTo root n)
    {source : List (String × Json)} (hsource : (Json.obj source).WellFormed) (r : Resolver)
    {p : Path} (hp : h.descend? r.config n p = some c)
    (hdepth : p.length - 1 + (Json.obj source).objectLevels ≤ r.config.maxDepth) :
    ∃ m h', (Resolver.writePath (⟨h, n⟩ : HeapNode) p (.merge (.obj source)) r).1 =
        (.ok m, ⟨h', n⟩) ∧
      (∀ l, h.at? root l = some c → h'.at? root l = some c) ∧
      (∀ l x, h.at? c l = some x →
        (∀ above z, above <+: l → above ≠ l → h.at? c above = some z →
          ¬ h.Renews (.obj source) c z) →
        h'.at? c l = some x ∧ h'.parent? x = h.parent? x) ∧
      ∀ z d, h.Renews (.obj source) c z → h.HasChild z d →
        h'.parent? d = none ∧ ∀ x, h.LeadsTo d x → ¬ h'.LeadsTo root x := by
  have hlevels : 0 + (p.length - 1) + (Json.obj source).objectLevels ≤ r.config.maxDepth := by
    rwa [Nat.zero_add]
  obtain ⟨h', ⟨m, hrun⟩, hg⟩ := writeAt_grafts r.config hsource [] (ht.below hn) hp hlevels
  have hc := hn.trans (Heap.leadsTo_of_descend? r.config hp)
  have hbelow : ∀ z, h.Renews (.obj source) c z → h.LeadsTo c z := fun z hz => hz.leadsTo
  refine ⟨m, h', ?_, fun l hl => hg.at?_place ht hbelow hl, fun l x hx hkept => ?_,
    fun z d hz hzd => ?_⟩
  · rw [(Heap.isConcrete_of_descend? r.config hp).selectsChildren.writePath_eq, hrun]
  · exact ⟨hg.at?_eq hx hkept, hg.parent?_at ht hc hbelow hx hkept⟩
  · have hlt := ht.lt_size (hc.trans ((hbelow z hz).tail hzd))
    exact ⟨hg.parent?_none hlt hz hzd, fun x hx => hg.lost ht hc hbelow hz hzd hx⟩

/-- Under an item of a sequence, one mapping takes in a field, and another one is replaced. -/
theorem merge_keeps_nodes_of_item :
    let t := HeapNode.ofJson (.obj [("a", .arr [.obj
      [("k", .obj [("u", .obj [])]), ("m", .obj [("x", .null)])]])])
    let source := [("k", Json.bool true), ("m", .obj [("y", .arr [])])]
    let p : Path := [.key "a", .index 0]
    let r : Resolver := .new .default
    t.heap.IsTree t.cell ∧ t.heap.LeadsTo t.cell t.cell ∧ (Json.obj source).WellFormed ∧
      t.heap.descend? r.config t.cell p = some 4 ∧
      p.length - 1 + (Json.obj source).objectLevels ≤ r.config.maxDepth ∧
      t.heap.at? 4 [.name "m", .name "x"] = some 2 ∧ t.heap.Renews (.obj source) 4 1 ∧
      t.heap.HasChild 1 0 ∧
      ∃ m h', (Resolver.writePath t p (.merge (.obj source)) r).1 = (.ok m, ⟨h', t.cell⟩) ∧
        h'.at? t.cell [.name "a", .index 0] = some 4 ∧
        h'.at? 4 [.name "m", .name "x"] = some 2 ∧ h'.parent? 2 = some 3 ∧
        h'.parent? 0 = none ∧ ¬ h'.LeadsTo t.cell 0 := by
  intro t source p r
  have ht : t.heap.IsTree t.cell := by
    refine Heap.ofJson_isTree ⟨Fields.ascending_single _ _, ⟨⟨?_, ?_⟩, trivial⟩, trivial⟩
    · exact Fields.ascending_pair (by decide) _ _
    · exact ⟨⟨Fields.ascending_single _ _, ⟨List.Pairwise.nil, trivial⟩, trivial⟩,
        ⟨Fields.ascending_single _ _, trivial, trivial⟩, trivial⟩
  have hsource : (Json.obj source).WellFormed :=
    ⟨Fields.ascending_pair (by decide) _ _, trivial,
      ⟨Fields.ascending_single _ _, trivial, trivial⟩, trivial⟩
  have hplace : t.heap.at? t.cell [.name "a", .index 0] = some 4 := rfl
  have hp : t.heap.descend? r.config t.cell p = some 4 :=
    Heap.descend?_of_at? r.config hplace (by simp)
  have hdepth : p.length - 1 + (Json.obj source).objectLevels ≤ r.config.maxDepth := by decide
  have hx : t.heap.at? 4 [.name "m", .name "x"] = some 2 := rfl
  have hrenewed : ∀ z, t.heap.Renews (.obj source) 4 z ↔ z = 1 := by
    intro z
    have hk : t.heap.child? 4 (.name "k") = some 1 := rfl
    have hm : t.heap.child? 4 (.name "m") = some 3 := rfl
    have hy : t.heap.child? 3 (.name "y") = none := rfl
    rw [Heap.renews_mapping rfl, Heap.renewsFields_cons, Heap.renewsFields_single hk,
      Heap.renewsFields_single hm, Heap.renews_other (by decide), Heap.renews_mapping rfl,
      or_iff_left (Heap.not_renewsFields_single hy)]
  have hchild : t.heap.HasChild 1 0 := by decide
  obtain ⟨m, h', hrun, hthere, hkept, hlost⟩ := merge_keeps_nodes ht (.refl _) hsource r hp hdepth
  have hstays := hkept _ 2 hx fun above z habove hne hz hrenews => by
    have hplaces : ∀ above ∈ [ChildKey.name "m", .name "x"].inits, above ≠ [.name "m", .name "x"] →
        t.heap.at? 4 above ≠ some 1 := by decide
    exact hplaces above ((List.mem_inits _ _).mpr habove) hne ((hrenewed z).mp hrenews ▸ hz)
  have hgone := hlost 1 0 ((hrenewed 1).mpr rfl) hchild
  exact ⟨ht, .refl _, hsource, hp, hdepth, hx, (hrenewed 1).mpr rfl, hchild, m, h', hrun,
    hthere _ hplace, hstays.1, hstays.2, hgone.1, hgone.2 0 (.refl 0)⟩

end Paths

end TreePath

import Mathlib.Data.Finset.Card
import Mathlib.Data.List.Nodup
import Mathlib.Order.WellFounded
import TreePath.Proofs.Fields
import TreePath.Proofs.Tree.Links

namespace TreePath

/-- Names are ascending, and so they are in the values of leaves. -/
def Content.Tidy : Content → Prop
  | mapping fields => Fields.Ascending fields
  | leaf v => v.WellFormed
  | sequence _ | function _ => True

namespace Heap

section States

variable (h : Heap) (gone : Finset Nat)

/-- The cell is there and has not been dropped. -/
def Live (i : Nat) : Prop := i < h.cells.size ∧ i ∉ gone

/-- What a node finds as its parent. The link does not keep the parent from being dropped, and then
leads nowhere. -/
def liveParent? (c : Nat) : Option Nat := (h.parent? c).filter fun p => p ∉ gone

/-- The heap once these cells have been dropped, with no links to them any more. -/
def forget : Heap :=
  ⟨h.cells.map fun cell => { cell with parent := cell.parent.filter fun p => p ∉ gone }⟩

/-- The live node `c` finds `p` as its parent. -/
def ParentOf (p c : Nat) : Prop := h.Live gone c ∧ h.liveParent? gone c = some p

/-- The way from parent to parent leads from `c` to `a`, in one step or more. -/
def Above (a c : Nat) : Prop := Relation.TransGen (h.ParentOf gone) a c

/-- A live node that is no live node's child. -/
def Loose (c : Nat) : Prop := h.Live gone c ∧ ∀ n, h.Live gone n → c ∉ (h.content n).children

/-- A node that may become a child of `i`: it stands nowhere as yet, and is neither `i` nor
above it. -/
structure Insertable (i c : Nat) : Prop where
  loose : h.Loose gone c
  ne : c ≠ i
  not_above : ¬ h.Above gone c i

/-- Links go both ways between live nodes, each of which stands in one place at most. -/
structure Consistent : Prop where
  gone_lt : ∀ i ∈ gone, i < h.cells.size
  parent_live : ∀ {c p}, h.parent? c = some p → h.Live gone p
  closed : ∀ {n c}, h.Live gone n → c ∈ (h.content n).children → h.Live gone c
  linked : ∀ {n c}, h.Live gone n → h.Live gone c →
    (c ∈ (h.content n).children ↔ h.parent? c = some n)
  nodup : ∀ {n}, h.Live gone n → (h.content n).children.Nodup
  grounded : WellFounded (h.ParentOf gone)
  tidy : ∀ i, (h.content i).Tidy

end States

variable {h h' : Heap} {gone : Finset Nat} {i c p : Nat}

section Looking

theorem liveParent?_eq_some :
    h.liveParent? gone c = some p ↔ h.parent? c = some p ∧ p ∉ gone := by
  simp [liveParent?, Option.filter_eq_some_iff]

@[simp] theorem size_forget : (h.forget gone).cells.size = h.cells.size := Array.size_map

@[simp] theorem content_forget : (h.forget gone).content i = h.content i := by
  unfold content forget
  rw [Array.getElem?_map]
  cases h.cells[i]? <;> rfl

@[simp] theorem parent?_forget : (h.forget gone).parent? c = h.liveParent? gone c := by
  unfold parent? liveParent? parent? forget
  rw [Array.getElem?_map]
  cases h.cells[c]? <;> rfl

theorem live_forget : (h.forget gone).Live gone i ↔ h.Live gone i := by
  rw [Live, Live, size_forget]

theorem ParentOf.parent?_eq (hp : h.ParentOf gone p c) : h.parent? c = some p :=
  (liveParent?_eq_some.mp hp.2).1

theorem lt_size_of_parent? (hp : h.parent? c = some p) : c < h.cells.size := by
  refine Nat.lt_of_not_le fun hge => ?_
  rw [h.parent?_of_size_le hge] at hp
  cases hp

theorem children_of_size_le (hi : h.cells.size ≤ i) : (h.content i).children = [] := by
  rw [h.content_of_size_le hi]
  rfl

theorem lt_size_of_mem_children (hc : c ∈ (h.content i).children) : i < h.cells.size := by
  refine Nat.lt_of_not_le fun hge => ?_
  rw [children_of_size_le hge] at hc
  cases hc

/-- Cells with small numbers that only link to each other have nothing else above them. -/
theorem not_above_of_le {size : Nat}
    (hlt : ∀ {c p}, c < size → h.parent? c = some p → p < size) (hi : i < size) (hc : size ≤ c) :
    ¬ h.Above gone c i := by
  intro habove
  have hsmall : c < size := by
    refine habove.head_induction_on (motive := fun c _ => c < size) ?_ ?_
    · exact fun hp => hlt hi hp.parent?_eq
    · exact fun hp _ ih => hlt ih hp.parent?_eq
  omega

namespace Consistent

theorem loose_of_parent? (hh : h.Consistent gone) (hc : h.Live gone c)
    (hnone : h.parent? c = none) : h.Loose gone c := by
  refine ⟨hc, fun n hn hmem => ?_⟩
  rw [(hh.linked hn hc).mp hmem] at hnone
  cases hnone

theorem live_of_le (hh : h.Consistent gone) (hle : h.cells.size ≤ i) (hlt : i < h'.cells.size) :
    h'.Live gone i := ⟨hlt, fun hmem => Nat.not_lt_of_le hle (hh.gone_lt i hmem)⟩

/-- No link leads to a node that has been dropped. -/
theorem liveParent?_eq (hh : h.Consistent gone) (c : Nat) : h.liveParent? gone c = h.parent? c := by
  cases hp : h.parent? c with
  | none =>
    rw [liveParent?, hp]
    exact Option.filter_none _
  | some p => exact liveParent?_eq_some.mpr ⟨hp, (hh.parent_live hp).2⟩

theorem empty : Heap.empty.Consistent ∅ where
  gone_lt _ hi := absurd hi (Finset.notMem_empty _)
  parent_live hp := absurd (lt_size_of_parent? hp) (Nat.not_lt_zero _)
  closed hn := absurd hn.1 (Nat.not_lt_zero _)
  linked hn := absurd hn.1 (Nat.not_lt_zero _)
  nodup hn := absurd hn.1 (Nat.not_lt_zero _)
  grounded := ⟨fun c => ⟨c, fun _ hp => absurd hp.1.1 (Nat.not_lt_zero _)⟩⟩
  tidy i := by
    rw [Heap.empty.content_of_size_le (Nat.zero_le i)]
    trivial

end Consistent

end Looking

section Links

/-- New cells may have come to the end; all cells have the parents and the children they had. -/
structure SameLinks (h h' : Heap) : Prop where
  size_le : h.cells.size ≤ h'.cells.size
  parent?_eq : ∀ j, h'.parent? j = h.parent? j
  children_eq : ∀ j, (h'.content j).children = (h.content j).children

namespace SameLinks

variable (hs : SameLinks h h')

include hs

theorem live (hi : h.Live gone i) : h'.Live gone i := ⟨Nat.lt_of_lt_of_le hi.1 hs.size_le, hi.2⟩

theorem live_of_parent? (hi : h'.Live gone c) (hp : h'.parent? c = some p) : h.Live gone c := by
  rw [hs.parent?_eq] at hp
  exact ⟨lt_size_of_parent? hp, hi.2⟩

theorem live_of_mem_children (hi : h'.Live gone i) (hc : c ∈ (h'.content i).children) :
    h.Live gone i := by
  rw [hs.children_eq] at hc
  exact ⟨lt_size_of_mem_children hc, hi.2⟩

theorem parentOf (hp : h'.ParentOf gone p c) : h.ParentOf gone p c := by
  refine ⟨hs.live_of_parent? hp.1 hp.parent?_eq, ?_⟩
  have hlive := hp.2
  rwa [liveParent?, hs.parent?_eq] at hlive

theorem loose (hc : h.Loose gone c) : h'.Loose gone c := by
  refine ⟨hs.live hc.1, fun n hn hmem => ?_⟩
  have hold := hs.live_of_mem_children hn hmem
  rw [hs.children_eq] at hmem
  exact hc.2 n hold hmem

theorem insertable (hc : h.Insertable gone i c) : h'.Insertable gone i c where
  loose := hs.loose hc.loose
  ne := hc.ne
  not_above habove := by
    have hold : ∀ a b, h'.ParentOf gone a b → h.ParentOf gone a b := fun _ _ => hs.parentOf
    exact hc.not_above (Relation.TransGen.mono hold _ _ habove)

theorem consistent (hh : h.Consistent gone) (htidy : ∀ j, (h'.content j).Tidy) :
    h'.Consistent gone where
  gone_lt j hj := Nat.lt_of_lt_of_le (hh.gone_lt j hj) hs.size_le
  parent_live hp := by
    rw [hs.parent?_eq] at hp
    exact hs.live (hh.parent_live hp)
  closed hn hc := by
    have hold := hs.live_of_mem_children hn hc
    rw [hs.children_eq] at hc
    exact hs.live (hh.closed hold hc)
  linked hn hc := by
    rw [hs.children_eq, hs.parent?_eq]
    constructor
    · intro hmem
      have hold : h.Live gone _ := ⟨lt_size_of_mem_children hmem, hn.2⟩
      exact (hh.linked hold (hh.closed hold hmem)).mp hmem
    · intro hp
      exact (hh.linked (hh.parent_live hp) ⟨lt_size_of_parent? hp, hc.2⟩).mpr hp
  nodup {n} hn := by
    rw [hs.children_eq]
    by_cases hlt : n < h.cells.size
    · exact hh.nodup ⟨hlt, hn.2⟩
    · rw [children_of_size_le (Nat.le_of_not_lt hlt)]
      exact List.nodup_nil
  grounded := Subrelation.wf (fun hp => hs.parentOf hp) hh.grounded
  tidy := htidy

end SameLinks

end Links

section Exchanges

/-- From parent to parent the way still comes to an end when `i` becomes the parent of nodes that
are neither `i` nor above it. -/
theorem wellFounded_of_taken {r r' : Nat → Nat → Prop} (hr : WellFounded r)
    (hstep : ∀ p c, r' p c → r p c ∨ p = i ∧ c ≠ i ∧ ¬ Relation.TransGen r c i) :
    WellFounded r' := by
  -- the nodes above `i`, and `i` itself, have the parents they had
  have habove : ∀ c, Relation.ReflTransGen r c i → Acc r' c := by
    intro c
    induction c using hr.induction with
    | _ c ih =>
      intro hc
      refine ⟨c, fun p hp => ?_⟩
      rcases hstep p c hp with hold | ⟨-, hne, hnot⟩
      · exact ih p hold (.head hold hc)
      · rcases Relation.reflTransGen_iff_eq_or_transGen.mp hc with heq | hbelow
        · exact absurd heq.symm hne
        · exact absurd hbelow hnot
  refine ⟨fun c => ?_⟩
  induction c using hr.induction with
  | _ c ih =>
    refine ⟨c, fun p hp => ?_⟩
    rcases hstep p c hp with hold | ⟨rfl, -⟩
    · exact ih p hold
    · exact habove p .refl

/-- The node `i` has taken in some nodes, and then has let some of its children go. -/
structure Exchanged (h : Heap) (i : Nat) (taken left : List Nat) (h' : Heap) : Prop where
  size_eq : h'.cells.size = h.cells.size
  content_eq : ∀ j ≠ i, h'.content j = h.content j
  perm : (left ++ (h'.content i).children).Perm (taken ++ (h.content i).children)
  parent?_eq : ∀ j, h'.parent? j =
    if j ∈ left then none else if j ∈ taken then some i else h.parent? j

variable {taken left : List Nat}

/-- Such an exchange on a consistent heap, of nodes that may become children of the node. -/
structure SoundExchange (h : Heap) (gone : Finset Nat) (i : Nat) (taken left : List Nat)
    (h' : Heap) : Prop where
  consistent : h.Consistent gone
  live : h.Live gone i
  insertable : ∀ c ∈ taken, h.Insertable gone i c
  nodup : taken.Nodup
  exchanged : Exchanged h i taken left h'

namespace SoundExchange

variable (he : SoundExchange h gone i taken left h')

include he

theorem live_iff : h'.Live gone c ↔ h.Live gone c := by
  rw [Live, Live, he.exchanged.size_eq]

theorem nodup_append : (left ++ (h'.content i).children).Nodup := by
  refine he.exchanged.perm.nodup_iff.mpr (he.nodup.append (he.consistent.nodup he.live) ?_)
  exact fun c htaken hchild => (he.insertable c htaken).loose.2 i he.live hchild

theorem mem_or : c ∈ left ∨ c ∈ (h'.content i).children ↔
    c ∈ taken ∨ c ∈ (h.content i).children := by
  rw [← List.mem_append, he.exchanged.perm.mem_iff, List.mem_append]

theorem not_mem_left (hc : c ∈ (h'.content i).children) : c ∉ left :=
  fun hleft => (List.nodup_append.mp he.nodup_append).2.2 c hleft c hc rfl

/-- What is a child of the node afterwards has been live before. -/
theorem live_of_mem (hc : c ∈ taken ∨ c ∈ (h.content i).children) : h.Live gone c := by
  rcases hc with htaken | hchild
  · exact (he.insertable c htaken).loose.1
  · exact he.consistent.closed he.live hchild

theorem parent?_of_mem (hc : c ∈ (h'.content i).children) : h'.parent? c = some i := by
  rw [he.exchanged.parent?_eq, if_neg (he.not_mem_left hc)]
  split
  · rfl
  · next htaken =>
    have hchild := (he.mem_or.mp (.inr hc)).resolve_left htaken
    exact (he.consistent.linked he.live (he.consistent.closed he.live hchild)).mp hchild

/-- What is not a child afterwards has been let go, or has the parent it had. -/
theorem parent?_of_not_mem (hc : c ∉ (h'.content i).children) :
    h'.parent? c = none ∧ c ∈ left ∨ h'.parent? c = h.parent? c ∧ c ∉ left ∧
      c ∉ (h.content i).children := by
  rw [he.exchanged.parent?_eq]
  by_cases hleft : c ∈ left
  · exact .inl ⟨if_pos hleft, hleft⟩
  · have hout : ¬ (c ∈ taken ∨ c ∈ (h.content i).children) := fun hmem =>
      (he.mem_or.mpr hmem).elim hleft hc
    rw [if_neg hleft, if_neg fun htaken => hout (.inl htaken)]
    exact .inr ⟨rfl, hleft, fun hchild => hout (.inr hchild)⟩

/-- What the node has had to do with was no other live node's child. -/
theorem parent?_ne {n : Nat} (hn : h.Live gone n) (hni : n ≠ i)
    (hc : c ∈ taken ∨ c ∈ (h.content i).children) : h.parent? c ≠ some n := by
  intro hp
  have hlive := he.live_of_mem hc
  rcases hc with htaken | hold
  · exact (he.insertable c htaken).loose.2 n hn ((he.consistent.linked hn hlive).mpr hp)
  · have hparent := (he.consistent.linked he.live hlive).mp hold
    exact hni (Option.some.inj (hp.symm.trans hparent))

theorem linked {n : Nat} (hn : h.Live gone n) (hc : h.Live gone c) :
    c ∈ (h'.content n).children ↔ h'.parent? c = some n := by
  by_cases hni : n = i
  · subst hni
    refine ⟨he.parent?_of_mem, fun hp => ?_⟩
    by_contra hout
    rcases he.parent?_of_not_mem hout with ⟨hnone, -⟩ | ⟨hsame, -, hold⟩
    · rw [hnone] at hp
      cases hp
    · exact hold ((he.consistent.linked hn hc).mpr (hsame.symm.trans hp))
  · rw [he.exchanged.content_eq n hni, he.consistent.linked hn hc]
    by_cases hmem : c ∈ (h'.content i).children
    · rw [he.parent?_of_mem hmem]
      exact iff_of_false (he.parent?_ne hn hni (he.mem_or.mp (.inr hmem)))
        fun heq => hni (Option.some.inj heq).symm
    · rcases he.parent?_of_not_mem hmem with ⟨hnone, hleft⟩ | ⟨hsame, -⟩
      · rw [hnone]
        exact iff_of_false (he.parent?_ne hn hni (he.mem_or.mp (.inl hleft))) nofun
      · rw [hsame]

theorem grounded : WellFounded (h'.ParentOf gone) := by
  refine wellFounded_of_taken (i := i) he.consistent.grounded fun p c hp => ?_
  have hc := he.live_iff.mp hp.1
  obtain ⟨hparent, hgone⟩ := liveParent?_eq_some.mp hp.2
  by_cases hmem : c ∈ (h'.content i).children
  · obtain rfl := Option.some.inj ((he.parent?_of_mem hmem).symm.trans hparent)
    rcases he.mem_or.mp (.inr hmem) with htaken | hold
    · have hinsert := he.insertable c htaken
      exact .inr ⟨rfl, hinsert.ne, hinsert.not_above⟩
    · exact .inl ⟨hc, liveParent?_eq_some.mpr ⟨(he.consistent.linked he.live hc).mp hold, hgone⟩⟩
  · rcases he.parent?_of_not_mem hmem with ⟨hnone, -⟩ | ⟨hsame, -⟩
    · rw [hnone] at hparent
      cases hparent
    · exact .inl ⟨hc, liveParent?_eq_some.mpr ⟨hsame.symm.trans hparent, hgone⟩⟩

/-- An exchange of children leaves the heap consistent. -/
theorem consistent_after (htidy : (h'.content i).Tidy) : h'.Consistent gone where
  gone_lt j hj := he.exchanged.size_eq ▸ he.consistent.gone_lt j hj
  parent_live {c p} hp := by
    rw [he.live_iff]
    by_cases hmem : c ∈ (h'.content i).children
    · obtain rfl := Option.some.inj ((he.parent?_of_mem hmem).symm.trans hp)
      exact he.live
    · rcases he.parent?_of_not_mem hmem with ⟨hnone, -⟩ | ⟨hsame, -⟩
      · rw [hnone] at hp
        cases hp
      · exact he.consistent.parent_live (hsame.symm.trans hp)
  closed {n c} hn hc := by
    rw [he.live_iff] at hn ⊢
    by_cases hni : n = i
    · subst hni
      exact he.live_of_mem (he.mem_or.mp (.inr hc))
    · rw [he.exchanged.content_eq n hni] at hc
      exact he.consistent.closed hn hc
  linked hn hc := he.linked (he.live_iff.mp hn) (he.live_iff.mp hc)
  nodup {n} hn := by
    by_cases hni : n = i
    · subst hni
      exact (List.nodup_append.mp he.nodup_append).2.1
    · rw [he.exchanged.content_eq n hni]
      exact he.consistent.nodup (he.live_iff.mp hn)
  grounded := he.grounded
  tidy n := by
    by_cases hni : n = i
    · exact hni ▸ htidy
    · rw [he.exchanged.content_eq n hni]
      exact he.consistent.tidy n

end SoundExchange

end Exchanges

end Heap

end TreePath

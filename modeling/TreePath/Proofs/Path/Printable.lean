import TreePath.Proofs.Json.RoundTrip
import TreePath.Proofs.Path.Selectors

namespace TreePath

open Decimal

mutual

/-- The segment shows in its text: no slice in it has a step of zero, no named union is empty, no
alternative is the empty path, and the values in its queries can be read again. -/
def Segment.Printable : Segment → Prop
  | .slice s => s.step ≠ some 0
  | .predicate query => QueryPrintable query
  | .union alternatives named =>
    (named = true → alternatives ≠ []) ∧ AlternativesPrintable alternatives
  | .tuple members => PathPrintable members
  | _ => True

def PathPrintable : List Segment → Prop
  | [] => True
  | s :: rest => s.Printable ∧ PathPrintable rest

def AlternativesPrintable : List (List Segment) → Prop
  | [] => True
  | p :: rest => p ≠ [] ∧ PathPrintable p ∧ AlternativesPrintable rest

def QueryPrintable : List (List Segment × Expected) → Prop
  | [] => True
  | (p, e) :: rest => PathPrintable p ∧ e.Printable ∧ QueryPrintable rest

/-- Floats and deep nesting get lost on the way through the text of a value. -/
def Expected.Printable : Expected → Prop
  | .value v => v.FloatFree ∧ v.WellFormed ∧ v.nesting < 128
  | .query q => QueryPrintable q

end

/-- The text of one entry of a query. -/
def entryText (entry : Path × Expected) : List Char :=
  queryKey entry.1 (renderPath entry.1) ++ ':' :: ' ' :: entry.2.render

theorem renderPaths_eq (ps : List Path) : renderPaths ps = commas (ps.map renderPath) := by
  induction ps with
  | nil => rfl
  | cons p ps ih =>
    cases ps with
    | nil => rfl
    | cons q rest => rw [renderPaths, ih]; rfl

theorem renderMembers_eq (members : List Segment) :
    renderMembers members = commas (members.map Segment.render) := by
  induction members with
  | nil => rfl
  | cons s members ih =>
    cases members with
    | nil => rfl
    | cons t rest => rw [renderMembers, ih]; rfl

theorem renderEntries_eq (q : Query) : renderEntries q = commas (q.map entryText) := by
  induction q with
  | nil => rfl
  | cons entry q ih =>
    obtain ⟨p, e⟩ := entry
    cases q with
    | nil => rfl
    | cons next rest =>
      rw [renderEntries, ih]
      simp [commas, entryText]

namespace Segment

/-- The text of a bracketed segment without its brackets. -/
def inner : Segment → List Char
  | .slice s => s.render
  | .predicate query => '{' :: (renderEntries query ++ ['}'])
  | .union alternatives true => '{' :: (renderPaths alternatives ++ ['}'])
  | .union alternatives false => '[' :: (renderPaths alternatives ++ [']'])
  | .tuple members => '(' :: (renderMembers members ++ [')'])
  | _ => []

theorem render_bracketed {s : Segment} (h : s.isBracketed = true) :
    s.render = '[' :: (s.inner ++ [']']) := by
  match s, h with
  | .slice _, _ => rfl
  | .predicate _, _ => simp [render, inner]
  | .union _ true, _ => simp [render, inner]
  | .union _ false, _ => simp [render, inner]
  | .tuple _, _ => simp [render, inner]

/-- The text of a hop outside of brackets starts with neither a separator nor a bracket. -/
theorem starts_render {s : Segment} (h : s.isBracketed = false) :
    ∃ c rest, s.render = c :: rest ∧ Text.isBlank c = false ∧ c ∉ ['/', '[', '@'] := by
  have htoken {text : List Char} (hne : text ≠ []) (htext : ∀ c ∈ text, IsTokenChar c) :
      ∃ c rest, text = c :: rest ∧ Text.isBlank c = false ∧ c ∉ ['/', '[', '@'] := by
    obtain ⟨c, rest, rfl⟩ := List.exists_cons_of_ne_nil hne
    obtain ⟨hspecial, hblank⟩ := htext c (by simp)
    refine ⟨c, rest, rfl, hblank, fun hc => hspecial ?_⟩
    have hsub : ∀ d ∈ ['/', '[', '@'], d ∈ specials := forall_mem_of_all (by decide)
    exact hsub c hc
  cases s with
  | key name =>
    rw [render, Key.render]
    cases hq : Key.needsQuotes name.toList with
    | true => exact ⟨'\'', _, rfl, by decide, by decide⟩
    | false =>
      obtain ⟨hne, -, hbare⟩ := needsQuotes_eq_false hq
      exact htoken hne fun c hc => isTokenChar_of_isBareChar (hbare c hc)
  | index i =>
    exact htoken (intText_ne_nil _)
      fun c hc => isTokenChar_of_isNumeral (isNumeral_of_mem_intText hc)
  | tag t => cases t <;> exact ⟨_, _, rfl, by decide, by decide⟩
  | slice | predicate | union | tuple => simp [isBracketed] at h

end Segment

namespace Json

/-- The text of a value other than an object cannot be taken for a query or for quoted text. -/
theorem starts_render {v : Json} (hf : v.FloatFree) (hobj : ∀ fields, v ≠ .obj fields) :
    ∃ c rest, v.render = c :: rest ∧ c ∉ ['?', '{', '=', '\''] := by
  cases v with
  | num n =>
    cases n with
    | int n =>
      obtain ⟨c, cs, hc⟩ := List.exists_cons_of_ne_nil (intText_ne_nil n.value)
      have hnum : isNumeral c = true := isNumeral_of_mem_intText (n := n.value) (by simp [hc])
      refine ⟨c, cs, hc, fun hmem => ?_⟩
      have hnot : ∀ d ∈ ['?', '{', '=', '\''], isNumeral d = false := forall_mem_of_all (by decide)
      rw [hnot c hmem] at hnum
      exact absurd hnum (by decide)
    | double d => exact absurd hf id
  | obj fields => exact absurd rfl (hobj fields)
  | bool b => cases b <;> exact ⟨_, _, rfl, by decide⟩
  | null | str | arr => exact ⟨_, _, rfl, by decide⟩

theorem edged_render (v : Json) (hf : v.FloatFree) : Edged v.render := by
  cases v with
  | num n =>
    cases n with
    | int n => exact (solid_intText n.value).edged
    | double d => exact absurd hf id
  | bool b => cases b <;> exact .ofVisible (by decide) (forall_mem_of_all (by decide))
  | null => exact .ofVisible (by decide) (forall_mem_of_all (by decide))
  | str s => exact .enclosed (by decide) (by decide) _
  | arr | obj => exact .enclosed (by decide) (by decide) _

theorem solid_render (v : Json) (hf : v.FloatFree) : Solid v.render :=
  ⟨v.edged_render hf, v.balanced_render hf⟩

end Json

end TreePath

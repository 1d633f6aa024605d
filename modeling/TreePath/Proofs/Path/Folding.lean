import TreePath.Proofs.Path.Shown

namespace TreePath

/-- Whether the alternatives leave no text between the brackets. -/
def isBlankList : List Path → Bool
  | [] | [[]] => true
  | _ => false

mutual

/-- The segment with one list of alternatives in the place of all that have no text. -/
def Segment.folded : Segment → Segment
  | .predicate query => .predicate (foldedQuery query)
  | .union alternatives named =>
    if isBlankList alternatives then if named then .predicate [] else .union [] false
    else .union (foldedPaths alternatives) named
  | .tuple members => .tuple (foldedPath members)
  | s => s

def foldedPath : List Segment → List Segment
  | [] => []
  | s :: rest => s.folded :: foldedPath rest

def foldedPaths : List (List Segment) → List (List Segment)
  | [] => []
  | p :: rest => foldedPath p :: foldedPaths rest

def foldedQuery : List (List Segment × Expected) → List (List Segment × Expected)
  | [] => []
  | (p, e) :: rest => (foldedPath p, e.folded) :: foldedQuery rest

def Expected.folded : Expected → Expected
  | .value v => .value v
  | .query q => .query (foldedQuery q)

end

theorem foldedPath_eq (p : Path) : foldedPath p = p.map Segment.folded := by
  induction p with
  | nil => rfl
  | cons s p ih => rw [foldedPath, ih, List.map_cons]

theorem foldedPaths_eq (ps : List Path) : foldedPaths ps = ps.map foldedPath := by
  induction ps with
  | nil => rfl
  | cons p ps ih => rw [foldedPaths, ih, List.map_cons]

theorem foldedQuery_eq (q : Query) :
    foldedQuery q = q.map fun entry => (foldedPath entry.1, entry.2.folded) := by
  induction q with
  | nil => rfl
  | cons entry q ih =>
    obtain ⟨p, e⟩ := entry
    rw [foldedQuery, ih, List.map_cons]

theorem isBlankList_folded (ps : List Path) : isBlankList (foldedPaths ps) = isBlankList ps := by
  match ps with
  | [] | [[]] | [_ :: _] | [] :: _ :: _ | (_ :: _) :: _ :: _ => rfl

theorem union_folded_congr {ps qs : List Path} (h : foldedPaths ps = foldedPaths qs)
    (named : Bool) : (Segment.union ps named).folded = (Segment.union qs named).folded := by
  have hblank : isBlankList ps = isBlankList qs := by
    rw [← isBlankList_folded ps, h, isBlankList_folded]
  rw [Segment.folded, Segment.folded, hblank, h]

theorem Segment.isBracketed_folded (s : Segment) : s.folded.isBracketed = s.isBracketed := by
  cases s with
  | union ps named =>
    rw [folded]
    split
    · cases named <;> rfl
    · rfl
  | _ => rfl

theorem Segment.folded_eq_tag {s : Segment} {t : Tag} : s.folded = .tag t ↔ s = .tag t := by
  cases s with
  | union ps named =>
    rw [folded]
    split
    · cases named <;> simp
    · simp
  | _ => simp [folded]

theorem renderHops_folded {p : Path} (hp : ∀ s ∈ p, s.folded.render = s.render) :
    renderHops (foldedPath p) = renderHops p := by
  induction p with
  | nil => rfl
  | cons s rest ih =>
    obtain ⟨hs, hrest⟩ := List.forall_mem_cons.mp hp
    rw [foldedPath, renderHops, renderHops, s.isBracketed_folded, hs, ih hrest]

theorem renderPath_folded {p : Path} (hp : ∀ s ∈ p, s.folded.render = s.render) :
    renderPath (foldedPath p) = renderPath p := by
  match p with
  | [] => rfl
  | s :: rest =>
    obtain ⟨hs, hrest⟩ := List.forall_mem_cons.mp hp
    rw [foldedPath]
    by_cases hroot : s = .tag .root
    · subst hroot
      cases rest with
      | nil => rfl
      | cons t rest =>
        obtain ⟨ht, hrest⟩ := List.forall_mem_cons.mp hrest
        simp only [Segment.folded, renderPath, foldedPath, renderRelative, ht,
          renderHops_folded hrest]
    · have hfolded : s.folded ≠ .tag .root := fun h => hroot (Segment.folded_eq_tag.mp h)
      rw [renderPath_cons hfolded, renderPath_cons hroot, hs, renderHops_folded hrest]

theorem entryText_folded {p : Path} {e : Expected} (hp : ∀ s ∈ p, s.folded.render = s.render)
    (he : e.folded.render = e.render) : entryText (foldedPath p, e.folded) = entryText (p, e) := by
  have hkey : queryKey (foldedPath p) (renderPath p) = queryKey p (renderPath p) := by
    match p with
    | [] => rfl
    | [s] =>
      by_cases hs : s = .tag .current
      · subst hs
        rfl
      · have hfolded : s.folded ≠ .tag .current := fun h => hs (Segment.folded_eq_tag.mp h)
        rw [queryKey_eq_text (by simp [foldedPath]) (by simpa [foldedPath] using hfolded),
          queryKey_eq_text (by simp) (by simpa using hs)]
    | s :: t :: rest =>
      rw [queryKey_eq_text (by simp [foldedPath]) (by simp [foldedPath]),
        queryKey_eq_text (by simp) (by simp)]
  simp only [entryText, renderPath_folded hp, hkey, he]

mutual

theorem Segment.render_folded (s : Segment) : s.folded.render = s.render := by
  match s with
  | .key _ | .index _ | .tag _ | .slice _ => rfl
  | .predicate q =>
    have hentries := List.map_congr_left (entryTexts_folded q)
    simp only [Segment.folded, Segment.render, renderEntries_eq, foldedQuery_eq, List.map_map]
    rw [← hentries]
    rfl
  | .union ps named =>
    cases hblank : isBlankList ps with
    | true =>
      match ps, named, hblank with
      | [], true, _ | [], false, _ | [[]], true, _ | [[]], false, _ => rfl
    | false =>
      have hpaths := List.map_congr_left (renderPaths_folded ps)
      cases named <;>
        simp only [Segment.folded, hblank, Bool.false_eq_true, if_false, Segment.render,
          renderPaths_eq, foldedPaths_eq, List.map_map] <;>
        rw [← hpaths] <;> rfl
  | .tuple members =>
    have hmembers := List.map_congr_left (renderMembers_folded members)
    simp only [Segment.folded, Segment.render, renderMembers_eq, foldedPath_eq, List.map_map]
    rw [← hmembers]
    rfl

theorem renderMembers_folded (p : List Segment) : ∀ s ∈ p, s.folded.render = s.render := by
  match p with
  | [] => simp
  | s :: rest => exact List.forall_mem_cons.mpr ⟨s.render_folded, renderMembers_folded rest⟩

theorem renderPaths_folded (ps : List (List Segment)) :
    ∀ p ∈ ps, renderPath (foldedPath p) = renderPath p := by
  match ps with
  | [] => simp
  | p :: rest =>
    exact List.forall_mem_cons.mpr
      ⟨renderPath_folded (renderMembers_folded p), renderPaths_folded rest⟩

theorem entryTexts_folded (q : List (List Segment × Expected)) :
    ∀ entry ∈ q, entryText (foldedPath entry.1, entry.2.folded) = entryText entry := by
  match q with
  | [] => simp
  | (p, e) :: rest =>
    exact List.forall_mem_cons.mpr
      ⟨entryText_folded (renderMembers_folded p) e.render_folded, entryTexts_folded rest⟩

theorem Expected.render_folded (e : Expected) : e.folded.render = e.render := by
  match e with
  | .value v => rfl
  | .query q =>
    have hentries := List.map_congr_left (entryTexts_folded q)
    simp only [Expected.folded, Expected.render, renderEntries_eq, foldedQuery_eq, List.map_map]
    rw [← hentries]
    rfl

end

end TreePath

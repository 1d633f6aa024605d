import TreePath.Resolver.Basic

namespace TreePath

namespace Resolver

variable {α β ν τ : Type} [TreeAccess ν] [TreeUpdate τ]

section Writes

/-- Nothing is written along a path that cannot be compiled. -/
theorem writeAt_of_error {source : PathSource} {e : PathError} {r r' : Resolver}
    (h : (compile source).run.run r = (.error e, r')) (t : τ) (patch : Patch) :
    (writeAt t source patch).run r = ((.error e, t), r') := by
  unfold writeAt
  rw [StateT.run_bind, h]
  rfl

theorem writeAt_of_ok {source : PathSource} {p : Path} {r r' : Resolver}
    (h : (compile source).run.run r = (.ok p, r')) (t : τ) (patch : Patch) :
    (writeAt t source patch).run r = (writePath t p patch).run r' := by
  unfold writeAt
  rw [StateT.run_bind, h]
  rfl

end Writes

section Quiet

/-- Nothing is changed that the compiling of texts rests on or counts. -/
structure SameTexts (r r' : Resolver) : Prop where
  config_eq : r'.config = r.config
  cache_eq : r'.cache = r.cache
  parses_eq : r'.stats.parses = r.stats.parses
  cacheHits_eq : r'.stats.cacheHits = r.stats.cacheHits

theorem SameTexts.refl (r : Resolver) : SameTexts r r := ⟨rfl, rfl, rfl, rfl⟩

theorem SameTexts.trans {r r' r'' : Resolver} (h : SameTexts r r') (h' : SameTexts r' r'') :
    SameTexts r r'' where
  config_eq := h'.config_eq.trans h.config_eq
  cache_eq := h'.cache_eq.trans h.cache_eq
  parses_eq := h'.parses_eq.trans h.parses_eq
  cacheHits_eq := h'.cacheHits_eq.trans h.cacheHits_eq

/-- A step that has nothing to do with texts. -/
def Quiet (x : StateM Resolver α) : Prop := ∀ r, SameTexts r (x r).2

theorem Quiet.pure (a : α) : Quiet (pure a) := .refl

theorem Quiet.bind {x : StateM Resolver α} {f : α → StateM Resolver β} (hx : Quiet x)
    (hf : ∀ a, Quiet (f a)) : Quiet (x >>= f) := fun r => (hx r).trans (hf _ _)

theorem Quiet.lift {x : StateM Resolver α} (hx : Quiet x) : Quiet (x : Resolving α).run := hx

theorem Quiet.liftMap {x : StateM Resolver α} (hx : Quiet x) (f : α → β) :
    Quiet (do return f (← x) : Resolving β).run := hx

theorem quiet_countLookup : Quiet (count Stats.countLookup) := fun _ => ⟨rfl, rfl, rfl, rfl⟩

theorem quiet_guarded (f : Config → Guarded α) : Quiet (guarded f) := fun _ => ⟨rfl, rfl, rfl, rfl⟩

theorem quiet_resolve (n : ν) (p : Path) (operation : Operation) (default : Option Json) :
    Quiet (resolve n p operation default) :=
  quiet_countLookup.bind fun _ => (quiet_guarded _).bind fun _ => .pure _

theorem quiet_reach (n : ν) (p : Path) : Quiet (reach n p) :=
  quiet_countLookup.bind fun _ => quiet_guarded _

theorem quiet_isMatch (n : ν) (query : Query) : Quiet (isMatch n query) := quiet_guarded _

theorem quiet_writePath (t : τ) (p : Path) (patch : Patch) : Quiet (writePath t p patch) :=
  fun _ => ⟨rfl, rfl, rfl, rfl⟩

/-- What is done with a path once it is compiled. -/
theorem sameTexts_compile {source : PathSource} {f : Path → Resolving α}
    (hf : ∀ p, Quiet (f p).run) (r : Resolver) :
    SameTexts (compile source r).2 ((compile source >>= f) r).2 := by
  change SameTexts (compile source r).2 (ExceptT.bindCont f (compile source r).1 _).2
  cases (compile source r).1 with
  | ok p => exact hf p _
  | error e => exact .refl _

theorem sameTexts_writeAt (t : τ) (source : PathSource) (patch : Patch) (r : Resolver) :
    SameTexts (compile source r).2 (writeAt t source patch r).2 := by
  rcases hcompile : compile source r with ⟨e | p, r'⟩
  · have hwrite : writeAt t source patch r = ((.error e, t), r') :=
      writeAt_of_error hcompile t patch
    rw [hwrite]
    exact .refl _
  · have hwrite : writeAt t source patch r = writePath t p patch r' :=
      writeAt_of_ok hcompile t patch
    rw [hwrite]
    exact quiet_writePath t p patch r'

end Quiet

/-- What a resolver is asked to do for the tree that it is given. -/
inductive Call : Type 1 where
  | compile (source : PathSource)
  | resolve {ν : Type} [TreeAccess ν] (n : ν) (p : Path) (operation : Operation)
      (default : Option Json)
  | find {ν : Type} [TreeAccess ν] (n : ν) (source : PathSource)
  | getD {ν : Type} [TreeAccess ν] (n : ν) (source : PathSource) (default : Json)
  | has {ν : Type} [TreeAccess ν] (n : ν) (source : PathSource)
  | countAt {ν : Type} [TreeAccess ν] (n : ν) (source : PathSource)
  | keys {ν : Type} [TreeAccess ν] (n : ν) (source : PathSource)
  | search {ν : Type} [TreeAccess ν] (n : ν) (source : PathSource) (query : Query)
  | call {ν : Type} [TreeAccess ν] (n : ν) (source : PathSource) (args : List Json)
  | entries {ν : Type} [TreeAccess ν] (n : ν) (source : PathSource)
  | locate {ν : Type} [TreeAccess ν] (n : ν) (source : PathSource)
  | isMatch {ν : Type} [TreeAccess ν] (n : ν) (query : Query)
  | writePath {τ : Type} [TreeUpdate τ] (t : τ) (p : Path) (patch : Patch)
  | writeAt {τ : Type} [TreeUpdate τ] (t : τ) (source : PathSource) (patch : Patch)
  | update {τ : Type} [TreeUpdate τ] (t : τ) (source : PathSource) (v : Json)
  | insert {τ : Type} [TreeUpdate τ] (t : τ) (source : PathSource) (v : Json)
  | remove {τ : Type} [TreeUpdate τ] (t : τ) (source : PathSource)

namespace Call

/-- What is compiled. -/
def source? : Call → Option PathSource
  | resolve .. | isMatch .. | writePath .. => none
  | compile source | find _ source | getD _ source _ | has _ source | countAt _ source
  | keys _ source | search _ source _ | call _ source _ | entries _ source | locate _ source
  | writeAt _ source _ | update _ source _ | insert _ source _ | remove _ source => some source

/-- The resolver when the call has been answered. -/
def after (c : Call) (r : Resolver) : Resolver :=
  match c with
  | compile source => (Resolver.compile source r).2
  | resolve n p operation default => (Resolver.resolve n p operation default r).2
  | find n source => (Resolver.find n source r).2
  | getD n source default => (Resolver.getD n source default r).2
  | has n source => (Resolver.has n source r).2
  | countAt n source => (Resolver.countAt n source r).2
  | keys n source => (Resolver.keys n source r).2
  | search n source query => (Resolver.search n source query r).2
  | call n source args => (Resolver.call n source args r).2
  | entries n source => (Resolver.entries n source r).2
  | locate n source => (Resolver.locate n source r).2
  | isMatch n query => (Resolver.isMatch n query r).2
  | writePath t p patch => (Resolver.writePath t p patch r).2
  | writeAt t source patch => (Resolver.writeAt t source patch r).2
  | update t source v => (Resolver.update t source v r).2
  | insert t source v => (Resolver.insert t source v r).2
  | remove t source => (Resolver.remove t source r).2

/-- The resolver when the source of the call has been compiled. -/
def compiled (c : Call) (r : Resolver) : Resolver :=
  match c.source? with
  | some source => (Resolver.compile source r).2
  | none => r

/-- Only the compiling at its start makes a call differ from one that has nothing to do with
texts. -/
theorem sameTexts_compiled (c : Call) (r : Resolver) : SameTexts (c.compiled r) (c.after r) := by
  cases c with
  | compile source => exact .refl _
  | resolve n p operation default => exact quiet_resolve n p operation default r
  | find n source => exact sameTexts_compile (fun p => (quiet_resolve n p _ _).lift) r
  | getD n source default => exact sameTexts_compile (fun p => (quiet_resolve n p _ _).liftMap _) r
  | has n source => exact sameTexts_compile (fun p => (quiet_resolve n p _ _).liftMap _) r
  | countAt n source => exact sameTexts_compile (fun p => (quiet_resolve n p _ _).liftMap _) r
  | keys n source => exact sameTexts_compile (fun p => (quiet_resolve n p _ _).liftMap _) r
  | search n source query => exact sameTexts_compile (fun p => (quiet_resolve n p _ _).lift) r
  | call n source args => exact sameTexts_compile (fun p => (quiet_resolve n p _ _).lift) r
  | entries n source => exact sameTexts_compile (fun p => (quiet_reach n p).liftMap _) r
  | locate n source => exact sameTexts_compile (fun p => (quiet_reach n p).liftMap _) r
  | isMatch n query => exact quiet_isMatch n query r
  | writePath t p patch => exact quiet_writePath t p patch r
  | writeAt t source patch => exact sameTexts_writeAt t source patch r
  | update t source v => exact sameTexts_writeAt t source _ r
  | insert t source v => exact sameTexts_writeAt t source _ r
  | remove t source => exact sameTexts_writeAt t source _ r

end Call

end Resolver

end TreePath

import Mathlib.Data.List.Induction
import TreePath.Proofs.Resolver.Cache
import TreePath.Request

namespace TreePath

/-- The path that a source stands for. -/
def PathSource.parsed : PathSource → Except PathError Path
  | .text t => Path.parse t
  | .path p => .ok p

namespace Resolver

variable {α β ν τ : Type} [TreeAccess ν] [TreeUpdate τ]

section Settings

/-- A step whose answer, and whose settings afterwards, rest on nothing but the settings. -/
def ByConfig (x : StateM Resolver α) : Prop :=
  ∀ r r', r'.config = r.config → (x r').1 = (x r).1 ∧ (x r').2.config = (x r).2.config

theorem ByConfig.pure (a : α) : ByConfig (pure a) := fun _ _ h => ⟨rfl, h⟩

theorem ByConfig.bind {x : StateM Resolver α} {f : α → StateM Resolver β} (hx : ByConfig x)
    (hf : ∀ a, ByConfig (f a)) : ByConfig (x >>= f) := by
  intro r r' h
  obtain ⟨hvalue, hconfig⟩ := hx r r' h
  have hrest := hf (x r).1 (x r).2 (x r').2 hconfig
  change (f (x r').1 (x r').2).1 = _ ∧ (f (x r').1 (x r').2).2.config = _
  rw [hvalue]
  exact hrest

theorem ByConfig.lift {x : StateM Resolver α} (hx : ByConfig x) :
    ByConfig (x : Resolving α).run := by
  intro r r' h
  obtain ⟨hvalue, hconfig⟩ := hx r r' h
  exact ⟨congrArg Except.ok hvalue, hconfig⟩

theorem ByConfig.liftMap {x : StateM Resolver α} (hx : ByConfig x) (f : α → β) :
    ByConfig (do return f (← x) : Resolving β).run := by
  intro r r' h
  obtain ⟨hvalue, hconfig⟩ := hx r r' h
  exact ⟨congrArg (fun a => Except.ok (f a)) hvalue, hconfig⟩

theorem byConfig_guarded (f : Config → Guarded α) : ByConfig (guarded f) := by
  intro r r' h
  exact ⟨congrArg (fun c => (f c).value) h, h⟩

theorem byConfig_count (f : Stats → Stats) : ByConfig (count f) := fun _ _ h => ⟨rfl, h⟩

theorem byConfig_resolve (n : ν) (p : Path) (operation : Operation) (default : Option Json) :
    ByConfig (resolve n p operation default) :=
  (byConfig_count _).bind fun _ => (byConfig_guarded _).bind fun _ => .pure _

theorem byConfig_reach (n : ν) (p : Path) : ByConfig (reach n p) :=
  (byConfig_count _).bind fun _ => byConfig_guarded _

theorem byConfig_isMatch (n : ν) (query : Query) : ByConfig (isMatch n query) := byConfig_guarded _

theorem byConfig_writePath (t : τ) (p : Path) (patch : Patch) : ByConfig (writePath t p patch) := by
  intro r r' h
  exact ⟨congrArg (fun c => ((write c p patch t).result, (write c p patch t).tree)) h, h⟩

/-- Whether there is a node at a path, and it matches a query. -/
def matchAt (n : ν) (query : Query) (p : Path) : StateM Resolver (Except PathError Bool) := do
  match (← reach n p).node? with
  | some m => return .ok (← isMatch m query)
  | none => return .ok false

theorem byConfig_matchAt (n : ν) (query : Query) (p : Path) : ByConfig (matchAt n query p) := by
  refine (byConfig_reach n p).bind fun found => ?_
  cases found.node? with
  | some m => exact (byConfig_isMatch m query).bind fun _ => .pure _
  | none => exact .pure _

theorem value_matchAt (n : ν) (query : Query) (p : Path) (r : Resolver) :
    (matchAt n query p r).1 =
      .ok ((reach n p r).1.node?.any fun m => (isMatch m query r).1) := by
  have hreach := (quiet_reach n p r).config_eq
  change ((match (reach n p r).1.node? with
    | some m => (do return .ok (← isMatch m query) : StateM Resolver (Except _ Bool))
    | none => return .ok false) (reach n p r).2).1 = _
  cases (reach n p r).1.node? with
  | some m => exact congrArg Except.ok (byConfig_isMatch m query _ _ hreach).1
  | none => rfl

/-- The default comes in where there is no answer. -/
theorem getD_resolve (n : ν) (p : Path) (operation : Operation) (default : Json) (r : Resolver) :
    (resolve n p operation none r).1.getD default =
      (resolve n p operation (some default) r).1.getD .null := by
  change (Option.or _ none).getD default = (Option.or _ (some default)).getD .null
  rw [Option.or_none]
  cases Guarded.value _ <;> rfl

end Settings

section Likeness

/-- Two resolvers with the same settings, of which the second one has nothing wrong in its cache. -/
structure Alike (r r' : Resolver) : Prop where
  config_eq : r'.config = r.config
  wellFormed : r'.cache.WellFormed

variable {r r' : Resolver}

theorem Alike.new (c : Config) : Alike (.new c) (.new c) := ⟨rfl, .new _ _ _⟩

/-- A text is compiled to its parse, and the resolver stays what it is. -/
theorem Alike.compile (h : Alike r r') (source : PathSource) :
    (compile source r').1 = source.parsed ∧ Alike r (compile source r').2 := by
  cases source with
  | path p => exact ⟨rfl, h⟩
  | text t =>
    refine ⟨compile_eq_parse h.wellFormed t, ?_⟩
    rw [compile_text]
    cases r'.cache.get? t with
    | some p => exact ⟨h.config_eq, h.wellFormed⟩
    | none =>
      cases hparse : Path.parse t with
      | ok p => exact ⟨h.config_eq, h.wellFormed.insert hparse⟩
      | error e => exact h

end Likeness

end Resolver

variable {ι σ : Type} [Shares ι σ]

section Meaning

/-- What a link makes of the path. A path starts anew, also after an error; a continuation that is
wrong itself does not replace an error that is there already. -/
def Link.pathAfter (p : Except PathError Path) : Link ι → Except PathError Path
  | .path source => source.parsed
  | .join source =>
    match p, source.parsed with
    | .error e, _ => .error e
    | .ok _, .error e => .error e
    | .ok p, .ok suffix => .ok (p ++ suffix)
  | _ => p

def Link.config? : Link ι → Option Config
  | .config c => some c
  | _ => none

def Link.idempotent? : Link ι → Option Bool
  | .idempotent b => some b
  | _ => none

/-- The first thing that is wrong with the settings. -/
def Config.error? (c : Config) : Option ConfigError :=
  match c.validate with
  | .ok _ => none
  | .error e => some e

/-- The resolver that a link provides: a new one with its settings, or with the default ones when
something is wrong with them; or a shared one. -/
def Link.handle? : Link ι → Option (Handle ι)
  | .config c => some (.own (.new (if c.error?.isNone then c else .default)))
  | .resolver i => some (.shared i)
  | _ => none

variable (links : List (Link ι)) (s : σ)

def pathOf : Except PathError Path := links.foldl Link.pathAfter (.ok [])

/-- What is wrong with the last settings. -/
def configErrorOf : Option ConfigError :=
  (links.filterMap Link.config?).getLast?.bind Config.error?

def idempotentOf? : Option Bool := (links.filterMap Link.idempotent?).getLast?

/-- The last resolver, or else one with the default settings. -/
def handleOf : Handle ι := (links.filterMap Link.handle?).getLast?.getD (.own (.new .default))

def Handle.resolver (h : Handle ι) (s : σ) : Resolver :=
  match h with
  | .own r => r
  | .shared i => Shares.get i s

/-- The resolver of the links, where the shared ones are in a state `s`. -/
def resolverOf : Resolver := (handleOf links).resolver s

/-- Whether merges replace: what the links say last about it, or else the settings. -/
def idempotentOf : Bool := (idempotentOf? links).getD (resolverOf links s).config.idempotent

/-- What the links give for an operation: what is wrong with the last settings, or else with the
path, or else the answer of the resolver at the path. -/
def answerOf {α : Type} (x : Path → Resolving α) : Except PathError α :=
  match configErrorOf links, pathOf links with
  | some e, _ => .error (.config e)
  | none, .error e => .error e
  | none, .ok p => (x p (resolverOf links s)).1

/-- The same for a write, which leaves the tree as it is if something is wrong with the links. -/
def writtenOf {τ : Type} (t : τ) (x : Path → StateM Resolver (Written τ Nat)) : Written τ Nat :=
  match configErrorOf links, pathOf links with
  | some e, _ => (.error (.config e), t)
  | none, .error e => (.error e, t)
  | none, .ok p => (x p (resolverOf links s)).1

end Meaning

section Appending

variable (links : List (Link ι)) (l : Link ι)

theorem getLast?_filterMap_snoc {α β : Type} (f : α → Option β) (xs : List α) (x : α) :
    ((xs ++ [x]).filterMap f).getLast? = (f x).or (xs.filterMap f).getLast? := by
  cases hx : f x <;> simp [List.filterMap_append, hx]

theorem pathOf_snoc : pathOf (links ++ [l]) = l.pathAfter (pathOf links) := by
  simp [pathOf]

theorem configErrorOf_snoc : configErrorOf (links ++ [l]) =
    ((Link.config? l).map Config.error?).getD (configErrorOf links) := by
  rw [configErrorOf, getLast?_filterMap_snoc]
  cases Link.config? l <;> rfl

theorem idempotentOf?_snoc :
    idempotentOf? (links ++ [l]) = (Link.idempotent? l).or (idempotentOf? links) :=
  getLast?_filterMap_snoc _ _ _

theorem handleOf_snoc : handleOf (links ++ [l]) = (Link.handle? l).getD (handleOf links) := by
  rw [handleOf, getLast?_filterMap_snoc]
  cases Link.handle? l <;> rfl

end Appending

namespace Request

/-- A request is what its links say, and the shared resolvers are still what they were at the
start. -/
structure Meets (links : List (Link ι)) (s : σ) (q : Request ι) (s' : σ) : Prop where
  path_eq : q.path = pathOf links
  configError_eq : q.configError = configErrorOf links
  idempotent_eq : q.idempotent = idempotentOf? links
  resolver : Resolver.Alike (resolverOf links s) (q.handle.resolver s')
  shared : ∀ i : ι, Resolver.Alike (Shares.get i s) (Shares.get i s')

section Linking

variable {links : List (Link ι)} {s s' : σ} {q : Request ι}

theorem Meets.start (hs : ∀ i : ι, (Shares.get i s).cache.WellFormed) :
    Meets [] s (start : Request ι) s where
  path_eq := rfl
  configError_eq := rfl
  idempotent_eq := rfl
  resolver := .new .default
  shared i := ⟨rfl, hs i⟩

/-- Compiling at a request gives the parse of the source, and the request is what it was. -/
theorem Meets.compile (h : Meets links s q s') (source : PathSource) :
    (q.run (Resolver.compile source).run s').1.1 = source.parsed ∧
      Meets links s (q.run (Resolver.compile source).run s').1.2
        (q.run (Resolver.compile source).run s').2 := by
  obtain ⟨handle, path, configError, idempotent, debug⟩ := q
  have ⟨hparsed, hcompiled⟩ := h.resolver.compile source
  refine ⟨?_, ?_⟩
  · cases handle <;> exact hparsed
  · cases handle with
    | own r =>
      exact ⟨h.path_eq, h.configError_eq, h.idempotent_eq, hcompiled, h.shared⟩
    | shared i =>
      refine ⟨h.path_eq, h.configError_eq, h.idempotent_eq, ?_, fun j => ?_⟩
      · change Resolver.Alike _ (Shares.get i (Shares.put i _ s'))
        rw [Shares.get_put]
        exact hcompiled
      · change Resolver.Alike _ (Shares.get j (Shares.put i _ s'))
        by_cases hj : j = i
        · subst hj
          rw [Shares.get_put]
          exact ((h.shared j).compile source).2
        · rw [Shares.get_put_of_ne _ _ hj]
          exact h.shared j

theorem joined_eq (p suffix : Except PathError Path) : joined p suffix =
    match p, suffix with
    | .error e, _ => .error e
    | .ok _, .error e => .error e
    | .ok p, .ok suffix => .ok (p ++ suffix) := by
  cases p <;> cases suffix <;> rfl

theorem link_config (q : Request ι) (c : Config) (s : σ) : q.link (.config c) s =
    ({ q with
      handle := .own (.new (if c.error?.isNone then c else .default))
      configError := c.error? }, s) := by
  cases hc : c.validate <;> simp only [Request.link, Config.error?, hc] <;> rfl

/-- One more link makes of the request what it says. -/
theorem Meets.link (h : Meets links s q s') (l : Link ι) :
    Meets (links ++ [l]) s (q.link l s').1 (q.link l s').2 := by
  have hpath := pathOf_snoc links l
  have hconfigError := configErrorOf_snoc links l
  have hidempotent := idempotentOf?_snoc links l
  have hresolver : resolverOf (links ++ [l]) s =
      ((Link.handle? l).getD (handleOf links)).resolver s :=
    congrArg (Handle.resolver · s) (handleOf_snoc links l)
  cases l with
  | path source =>
    obtain ⟨hparsed, hran⟩ := h.compile source
    refine ⟨?_, ?_, ?_, ?_, hran.shared⟩
    · exact hparsed.trans hpath.symm
    · exact hran.configError_eq.trans hconfigError.symm
    · exact hran.idempotent_eq.trans hidempotent.symm
    · exact hresolver ▸ hran.resolver
  | join source =>
    obtain ⟨hparsed, hran⟩ := h.compile source
    refine ⟨?_, ?_, ?_, ?_, hran.shared⟩
    · change joined (q.run (Resolver.compile source).run s').1.2.path
        (q.run (Resolver.compile source).run s').1.1 = _
      rw [hparsed, hran.path_eq, hpath, joined_eq]
      rfl
    · exact hran.configError_eq.trans hconfigError.symm
    · exact hran.idempotent_eq.trans hidempotent.symm
    · exact hresolver ▸ hran.resolver
  | config c =>
    rw [link_config]
    refine ⟨h.path_eq.trans hpath.symm, hconfigError.symm, h.idempotent_eq.trans hidempotent.symm,
      ?_, h.shared⟩
    rw [hresolver]
    exact .new _
  | resolver i =>
    exact ⟨h.path_eq.trans hpath.symm, h.configError_eq.trans hconfigError.symm,
      h.idempotent_eq.trans hidempotent.symm, hresolver ▸ h.shared i, h.shared⟩
  | debug =>
    exact ⟨h.path_eq.trans hpath.symm, h.configError_eq.trans hconfigError.symm,
      h.idempotent_eq.trans hidempotent.symm, hresolver ▸ h.resolver, h.shared⟩
  | idempotent b =>
    exact ⟨h.path_eq.trans hpath.symm, h.configError_eq.trans hconfigError.symm,
      hidempotent.symm, hresolver ▸ h.resolver, h.shared⟩

theorem ofLinks_snoc (links : List (Link ι)) (l : Link ι) (s : σ) :
    ofLinks (links ++ [l]) s = (ofLinks links s).1.link l (ofLinks links s).2 := by
  rw [ofLinks, List.foldlM_append]
  rfl

/-- Put together from its links, the request is what they say. -/
theorem meets_ofLinks (links : List (Link ι)) (s : σ)
    (hs : ∀ i : ι, (Shares.get i s).cache.WellFormed) :
    Meets links s (ofLinks links s).1 (ofLinks links s).2 := by
  induction links using List.reverseRecOn with
  | nil => exact .start hs
  | append_singleton links l ih =>
    rw [ofLinks_snoc]
    exact ih.link l

end Linking

section Terminals

variable {links : List (Link ι)} {s s' : σ} {q : Request ι} {α : Type}

/-- A step with the resolver of a request gives what it gives with the resolver of its links. -/
theorem Meets.run (h : Meets links s q s') {x : StateM Resolver α} (hx : Resolver.ByConfig x) :
    (q.run x s').1.1 = (x (resolverOf links s)).1 := by
  have hvalue : (q.run x s').1.1 = (x (q.handle.resolver s')).1 := by
    obtain ⟨handle, path, configError, idempotent, debug⟩ := q
    cases handle <;> rfl
  exact hvalue.trans (hx _ _ h.resolver.config_eq).1

theorem Meets.target (h : Meets links s q s') : q.target =
    match configErrorOf links, pathOf links with
    | some e, _ => .error (.config e)
    | none, .error e => .error e
    | none, .ok p => .ok p := by
  rw [Request.target, h.configError_eq, h.path_eq]
  cases configErrorOf links <;> cases pathOf links <;> rfl

theorem Meets.config (h : Meets links s q s') :
    (q.config s').1 = (resolverOf links s).config := by
  have hvalue : (q.config s').1 = (q.handle.resolver s').config := by
    obtain ⟨handle, path, configError, idempotent, debug⟩ := q
    cases handle <;> rfl
  exact hvalue.trans h.resolver.config_eq

theorem Meets.act (h : Meets links s q s') {x : Path → Resolving α}
    (hx : ∀ p, Resolver.ByConfig (x p).run) : (q.act x s').1 = answerOf links s x := by
  have htarget := h.target
  rw [answerOf]
  revert htarget
  cases configErrorOf links with
  | some e =>
    intro htarget
    have hact : q.act x s' = (.error (.config e), s') := by
      rw [Request.act, htarget]
      rfl
    rw [hact]
  | none =>
    cases pathOf links with
    | error e =>
      intro htarget
      have hact : q.act x s' = (.error e, s') := by
        rw [Request.act, htarget]
        rfl
      rw [hact]
    | ok p =>
      intro htarget
      have hact : (q.act x s').1 = (q.run (x p).run s').1.1 := by
        rw [Request.act, htarget]
        rfl
      rw [hact]
      exact h.run (hx p)

variable {κ ν τ : Type} [TreeAccess ν] [TreeUpdate τ]

theorem Meets.ask (h : Meets links s q s') (n : ν) (operation : Operation) :
    (q.ask n operation s').1 =
      answerOf links s fun p => (Resolver.resolve n p operation none : Resolving (Option Json)) :=
  h.act fun p => (Resolver.byConfig_resolve n p operation none).lift

theorem Meets.getD (h : Meets links s q s') (n : ν) (default : Json) :
    (q.getD n default s').1 = answerOf links s fun p => Resolver.getD n (.path p) default := by
  have hgetD : (q.getD n default s').1 = (q.ask n .fetch s').1.map (·.getD default) := by
    rw [Request.getD, Request.find]
    change (ExceptT.bindCont (m := StateM σ) (fun found => pure (found.getD default))
      (q.ask n .fetch s').1 (q.ask n .fetch s').2).1 = _
    cases (q.ask n .fetch s').1 <;> rfl
  rw [hgetD, h.ask, answerOf, answerOf]
  cases configErrorOf links with
  | some e => rfl
  | none =>
    cases pathOf links with
    | error e => rfl
    | ok p => exact congrArg Except.ok (Resolver.getD_resolve n p .fetch default _)

theorem Meets.isMatch (h : Meets links s q s') (n : ν) (query : Query) :
    (q.isMatch n query s').1 =
      (answerOf links s fun p => Resolver.locate n (.path p)).map fun found =>
        found.any fun m => (Resolver.isMatch m query (resolverOf links s)).1 := by
  have hact : (q.isMatch n query s').1 = answerOf links s (Resolver.matchAt n query) :=
    h.act (Resolver.byConfig_matchAt n query)
  rw [hact, answerOf, answerOf]
  cases configErrorOf links with
  | some e => rfl
  | none =>
    cases pathOf links with
    | error e => rfl
    | ok p => exact Resolver.value_matchAt n query p _

theorem Meets.port (h : Meets links s q s') (node : κ) :
    q.port node = answerOf links s fun p => pure (Port.bound node p) := by
  rw [Request.port, h.target, answerOf]
  cases configErrorOf links <;> cases pathOf links <;> rfl

theorem Meets.patch (h : Meets links s q s') (t : τ) (patch : Patch) :
    (q.patch t patch s').1 =
      writtenOf links s t fun p => Resolver.writeAt t (.path p) patch := by
  have htarget := h.target
  rw [writtenOf]
  revert htarget
  cases configErrorOf links with
  | some e =>
    intro htarget
    rw [Request.patch, htarget]
    rfl
  | none =>
    cases pathOf links with
    | error e =>
      intro htarget
      rw [Request.patch, htarget]
      rfl
    | ok p =>
      intro htarget
      have hpatch : (q.patch t patch s').1 = (q.run (Resolver.writePath t p patch) s').1.1 := by
        rw [Request.patch, htarget]
        rfl
      rw [hpatch]
      exact h.run (Resolver.byConfig_writePath t p patch)

theorem Meets.write (h : Meets links s q s') (t : τ) (v : Json) (policy : MergePolicy) :
    (q.write t v policy s').1 = writtenOf links s t fun p =>
      Resolver.writeAt t (.path p)
        ((Patch.ofValue v policy).withIdempotent (idempotentOf links s)) := by
  have hidempotent : q.idempotent.getD (q.config s').1.idempotent = idempotentOf links s := by
    rw [h.config, h.idempotent_eq, idempotentOf]
  have hconfig : (q.config s').2 = s' := by
    obtain ⟨handle, path, configError, idempotent, debug⟩ := q
    cases handle <;> rfl
  have hwrite : q.write t v policy s' = q.patch t ((Patch.ofValue v policy).withIdempotent
      (q.idempotent.getD (q.config s').1.idempotent)) (q.config s').2 := rfl
  rw [hwrite, hidempotent, hconfig]
  exact h.patch t _

end Terminals

section Answers

variable {κ ν τ : Type} [TreeAccess ν] [TreeUpdate τ]

/-- Each way to read by a request answers what the resolver of its links answers. -/
structure Reads (links : List (Link ι)) (s : σ) (q : Request ι) (s' : σ) (n : ν) : Prop where
  find_eq : (q.find n s').1 = answerOf links s fun p => Resolver.find n (.path p)
  getD_eq : ∀ default, (q.getD n default s').1 =
    answerOf links s fun p => Resolver.getD n (.path p) default
  get_eq : (q.get n s').1 = answerOf links s fun p => Resolver.getD n (.path p) .null
  has_eq : (q.has n s').1 = answerOf links s fun p => Resolver.has n (.path p)
  count_eq : (q.count n s').1 = answerOf links s fun p => Resolver.countAt n (.path p)
  keys_eq : (q.keys n s').1 = answerOf links s fun p => Resolver.keys n (.path p)
  search_eq : ∀ query, (q.search n query s').1 =
    answerOf links s fun p => Resolver.search n (.path p) query
  call_eq : ∀ args, (q.call n args s').1 =
    answerOf links s fun p => Resolver.call n (.path p) args
  apply_eq : ∀ f, (q.apply n f s').1 =
    answerOf links s fun p => Resolver.resolve n p (.apply f) none
  entries_eq : (q.entries n s').1 = answerOf links s fun p => Resolver.entries n (.path p)
  locate_eq : (q.locate n s').1 = answerOf links s fun p => Resolver.locate n (.path p)
  isMatch_eq : ∀ query, (q.isMatch n query s').1 =
    (answerOf links s fun p => Resolver.locate n (.path p)).map fun found =>
      found.any fun m => (Resolver.isMatch m query (resolverOf links s)).1

/-- Each way to write by a request leaves what the resolver of its links leaves. Merges take the
request's own say on replacing; where it has none, a merge is the resolver's own. -/
structure Writes (links : List (Link ι)) (s : σ) (q : Request ι) (s' : σ) (t : τ) : Prop where
  patch_eq : ∀ patch, (q.patch t patch s').1 =
    writtenOf links s t fun p => Resolver.writeAt t (.path p) patch
  update_eq : ∀ v, (q.update t v s').1 = writtenOf links s t fun p =>
    Resolver.writeAt t (.path p) ((Patch.merge v).withIdempotent (idempotentOf links s))
  update_eq_update : idempotentOf? links = none → ∀ v, (q.update t v s').1 =
    writtenOf links s t fun p => Resolver.update t (.path p) v
  extend_eq : ∀ v, (q.extend t v s').1 = writtenOf links s t fun p =>
    Resolver.writeAt t (.path p) ((Patch.extend v).withIdempotent (idempotentOf links s))
  overwrite_eq : ∀ v, (q.overwrite t v s').1 = writtenOf links s t fun p =>
    Resolver.writeAt t (.path p) ((Patch.overwrite v).withIdempotent (idempotentOf links s))
  insert_eq : ∀ v, (q.insert t v s').1 =
    writtenOf links s t fun p => Resolver.insert t (.path p) v
  remove_eq : (q.remove t s').1 = writtenOf links s t fun p => Resolver.remove t (.path p)

variable {links : List (Link ι)} {s s' : σ} {q : Request ι}

theorem Meets.reads (h : Meets links s q s') (n : ν) : Reads links s q s' n where
  find_eq := h.ask n .fetch
  getD_eq := h.getD n
  get_eq := h.getD n .null
  has_eq := h.act fun p =>
    (Resolver.byConfig_resolve n p .exists none).liftMap
      fun found => (found.bind Json.asBool?).getD false
  count_eq := h.act fun p =>
    (Resolver.byConfig_resolve n p .count none).liftMap
      fun found => (found.bind Json.asNat?).getD 0
  keys_eq := h.act fun p =>
    (Resolver.byConfig_resolve n p .keys none).liftMap
      fun found => (found.bind Json.asArray?).getD []
  search_eq query := h.ask n (.search query)
  call_eq args := h.ask n (.call args)
  apply_eq f := h.ask n (.apply f)
  entries_eq := h.act fun p => (Resolver.byConfig_reach n p).liftMap _
  locate_eq := h.act fun p => (Resolver.byConfig_reach n p).liftMap _
  isMatch_eq := h.isMatch n

theorem Meets.writes (h : Meets links s q s') (t : τ) : Writes links s q s' t where
  patch_eq := h.patch t
  update_eq v := h.write t v .merge
  update_eq_update hnone v := by
    have hidempotent : idempotentOf links s = (resolverOf links s).config.idempotent := by
      rw [idempotentOf, hnone, Option.getD_none]
    rw [Request.update, h.write, hidempotent, writtenOf, writtenOf]
    rfl
  extend_eq v := h.write t v .extend
  overwrite_eq v := h.write t v .overwrite
  insert_eq v := h.patch t (.append v)
  remove_eq := h.patch t .remove

/-- However a request is put together, it reads, writes and makes ports as its links say: by the
resolver that the last link with one provides, at the path that the links fold to, unless something
is wrong with the last settings or else with the path, which is then the answer to everything. The
caches of the shared resolvers hold parses of their texts, as those of all resolvers do that come
from new ones by calls. -/
theorem answers_ofLinks (links : List (Link ι)) (s : σ)
    (hs : ∀ i : ι, (Shares.get i s).cache.WellFormed) :
    (∀ n : ν, Reads links s (ofLinks links s).1 (ofLinks links s).2 n) ∧
    (∀ t : τ, Writes links s (ofLinks links s).1 (ofLinks links s).2 t) ∧
    (∀ node : κ, (ofLinks links s).1.port node =
      answerOf links s fun p => pure (Port.bound node p)) := by
  have h := meets_ofLinks links s hs
  exact ⟨h.reads, h.writes, h.port⟩

/-- A malformed path is replaced by a later one, settings that are valid by a shared resolver, and
an update collects since the request says so. -/
theorem answers_ofLinks_shared :
    let s : Vector Resolver 2 := #v[.new .default, .new .uncached]
    let links : List (Link (Fin 2)) := [.path (.text "a/["), .config .uncached, .path (.text "a"),
      .resolver 1, .join (.text "b"), .idempotent false]
    let t := Json.obj [("a", .obj [("b", .str "x")])]
    (∀ i : Fin 2, (Shares.get i s).cache.WellFormed) ∧
      ((ofLinks links s).1.update t (.str "y") (ofLinks links s).2).1 =
        (.ok 1, .obj [("a", .obj [("b", .arr [.str "x", .str "y"])])]) := by
  intro s links t
  have hs : ∀ i : Fin 2, (Shares.get i s).cache.WellFormed := by
    intro i
    fin_cases i <;> exact .new _ _ _
  obtain ⟨-, hwrites, -⟩ := @answers_ofLinks _ _ _ Unit Json Json _ _ links s hs
  refine ⟨hs, ?_⟩
  rw [(hwrites t).update_eq]
  cbv

end Answers

end Request

end TreePath

import Splice.Proofs.Build.Emittable
import Splice.Proofs.Build.Renaming
import Splice.Proofs.Build.Sharing

/-!
# What builds fail for

A build fails only for what is wrong with its sources (`Failure.Anticipated`).  All that
could go wrong besides has been ruled out phase by phase: discovery leads every reference
somewhere and every tree is bound, so analysis and linking find what they look for, and
then everything that is emitted can be loaded.  Since the phases up to linking do not look
at the output options, except for the numbers of names, and the phases after it do not
fail, it does not depend on these options whether a build fails, and how.

Imports may be nested without end, where a location is opened again and again.  So builds
are looked at within any bound on the depth of visits: an answer that is given within some
bound is given within every larger one (`Program.buildWithin_eq_of_le`), and is then what
the build comes to (`Program.ComesTo`).
-/

namespace Splice.Program

variable {p q p₀ : Program} {loader : Loader} {workingDir entry stdPath : Text}
  {o o' : BuildOptions} {depth depth' : Nat} {e : Failure} {readPattern : PatternReader}

def findPhasesWithin (depth : Nat) (loader : Loader) (stdPath entry : Text) :
    Linking Discovery := do
  let d ← Linking.phase "discovery" (discoverWithin depth loader false stdPath entry)
  Linking.phase "enums" assignEnumValues
  return d

/-- The phases of a build up to linking, with the numbers of names and the trees. -/
def linkPhasesWithin (depth : Nat) (loader : Loader) (o : BuildOptions) (entry : Text) :
    Linking (List MangleEntry × List Tree) := do
  let d ← findPhasesWithin depth loader o.stdPath entry
  let symbols ← mangleIfAsked o d.order
  let trees ← analysePhases d
  return (symbols, trees)

/-- A build with visits nested no deeper than a bound. -/
def buildWithin (depth : Nat) (loader : Loader) (workingDir : Text) (o : BuildOptions)
    (entry : Text) (readPattern : PatternReader) : Except Failure BuildResult := do
  let p ← create workingDir o.retain readPattern
  outcome ((linkPhasesWithin depth loader o entry >>= fun x => emitPhases o x.1 x.2) p)

theorem build_eq_buildWithin (loader : Loader) (workingDir : Text) (o : BuildOptions)
    (entry : Text) (readPattern : PatternReader) :
    build loader workingDir false o entry readPattern =
      buildWithin (discoveryFuel loader) loader workingDir o entry readPattern := by
  unfold build buildWithin
  rw [buildPhases_eq]
  rfl

theorem buildWithin_eq (hcreate : create workingDir o.retain readPattern = .ok p₀) :
    buildWithin depth loader workingDir o entry readPattern =
      outcome ((linkPhasesWithin depth loader o entry >>= fun x => emitPhases o x.1 x.2) p₀) := by
  rw [buildWithin, hcreate]
  rfl

/-- An action that gives up where another one may go on; up to then they are the same. -/
def Approximates {α : Type} (x y : Linking α) : Prop :=
  ∀ p, y p = x p ∨ ∃ q, x p = .error tooDeep q

section

variable {α β : Type}

theorem Approximates.refl (x : Linking α) : Approximates x x := fun _ => Or.inl rfl

theorem Approximates.bind {x y : Linking α} {f g : α → Linking β} (hx : Approximates x y)
    (hf : ∀ a, Approximates (f a) (g a)) : Approximates (x >>= f) (y >>= g) := by
  intro p
  change EStateM.bind y g p = EStateM.bind x f p ∨ ∃ q, EStateM.bind x f p = _
  unfold EStateM.bind
  rcases hx p with hsame | ⟨q, hdeep⟩
  · rw [hsame]
    cases x p with
    | ok a q => exact hf a q
    | error e q => exact Or.inl rfl
  · rw [hdeep]
    exact Or.inr ⟨q, rfl⟩

theorem Approximates.foldlM {f g : β → α → Linking β} (h : ∀ b a, Approximates (f b a) (g b a))
    (xs : List α) (b : β) : Approximates (xs.foldlM f b) (xs.foldlM g b) := by
  induction xs generalizing b with
  | nil => exact Approximates.refl _
  | cons x rest ih =>
      rw [List.foldlM_cons, List.foldlM_cons]
      exact (h b x).bind ih

theorem Approximates.phase {x y : Linking α} (h : Approximates x y) (name : Text) :
    Approximates (Linking.phase name x) (Linking.phase name y) := by
  intro p
  unfold Linking.phase Linking.mapFailure
  rcases h p with hsame | ⟨q, hdeep⟩
  · rw [hsame]
    exact Or.inl rfl
  · rw [hdeep]
    exact Or.inr ⟨q, rfl⟩

end

theorem approximates_visit (h : depth ≤ depth') (n : NamespaceId) (d : Discovery) :
    Approximates (visit loader false depth n d) (visit loader false depth' n d) := by
  induction depth generalizing depth' n d with
  | zero => exact fun p => Or.inr ⟨p, rfl⟩
  | succ depth ih =>
      obtain ⟨depth', rfl⟩ := Nat.exists_eq_add_of_le' (Nat.lt_of_lt_of_le (Nat.succ_pos depth) h)
      rw [visit_succ, visit_succ]
      unfold visitStep
      by_cases hseen : d.isSeen n = true
      · rw [if_pos hseen, if_pos hseen]
        exact Approximates.refl _
      rw [if_neg hseen, if_neg hseen, if_neg Bool.false_ne_true, if_neg Bool.false_ne_true]
      refine (Approximates.refl _).bind fun tree => (Approximates.refl _).bind fun p => ?_
      refine (Approximates.refl _).bind fun _ => ?_
      refine Approximates.bind ?_ fun d => Approximates.refl _
      refine Approximates.foldlM (fun d i => (Approximates.refl _).bind fun target => ?_) _ _
      exact ih (Nat.le_of_succ_le_succ h) target d

theorem approximates_linkPhases (h : depth ≤ depth') :
    Approximates (linkPhasesWithin depth loader o entry)
      (linkPhasesWithin depth' loader o entry) := by
  have hdiscover : Approximates (discoverWithin depth loader false o.stdPath entry)
      (discoverWithin depth' loader false o.stdPath entry) := by
    refine (Approximates.refl _).bind fun std => (Approximates.refl _).bind fun _ => ?_
    refine (approximates_visit h std {}).bind fun d => (Approximates.refl _).bind fun opened => ?_
    exact approximates_visit h opened.1 d
  refine Approximates.bind ?_ fun d => Approximates.refl _
  exact (hdiscover.phase "discovery").bind fun d => Approximates.refl _

/-- A build that is not given up within a bound has the same answer within every larger
one. -/
theorem buildWithin_eq_of_le (hcreate : create workingDir o.retain readPattern = .ok p₀)
    (h : depth ≤ depth')
    (hends : buildWithin depth loader workingDir o entry readPattern ≠ .error tooDeep) :
    buildWithin depth' loader workingDir o entry readPattern =
      buildWithin depth loader workingDir o entry readPattern := by
  rw [buildWithin_eq hcreate] at hends
  rw [buildWithin_eq hcreate, buildWithin_eq hcreate]
  have hruns : Approximates
      (linkPhasesWithin depth loader o entry >>= fun x => emitPhases o x.1 x.2)
      (linkPhasesWithin depth' loader o entry >>= fun x => emitPhases o x.1 x.2) :=
    (approximates_linkPhases h).bind fun x => Approximates.refl _
  rcases hruns p₀ with hsame | ⟨q, hdeep⟩
  · rw [hsame]
  · rw [hdeep] at hends
    exact absurd rfl hends

theorem fresh_create {patterns : List Text} (h : create workingDir patterns readPattern = .ok p₀)
    (m : NamespaceId) : (p₀.spaceAt m).stage = .created ∧ (p₀.spaceAt m).references = [] := by
  rw [spaceAt_of_size_le (by rw [size_create h]; exact Nat.zero_le m)]
  exact ⟨rfl, rfl⟩

theorem sameLeads_assignEnumValues (h : assignEnumValues p = .ok () q) : SameLeads p q := by
  have hsame := yields_assignEnumValues () q h
  exact ⟨hsame.references, hsame.std, hsame.spaceReferences, hsame.imports⟩

theorem sameEnumNames_assignEnumValues (h : assignEnumValues p = .ok () q) (n : NamespaceId) :
    SameEnumNames n p q := by
  have hnames := yields_assignEnumValues_names () q h n
  intro name
  rw [Bool.eq_iff_iff, Option.isSome_iff_ne_none, Option.isSome_iff_ne_none, ne_eq, ne_eq,
    enum?_eq_none_iff, enum?_eq_none_iff, hnames]

/-- The phases up to linking fail because of the sources, or are given up; if they do not
fail, everything can be emitted. -/
theorem ends_linkPhases {cramped : Prop} (hcreate : create workingDir o.retain readPattern = .ok p₀)
    (hroom : cramped ∨ (p₀.Confined loader ∧ discoveryFuel loader ≤ depth)) :
    Ends (linkPhasesWithin depth loader o entry) p₀
      (fun e => e.Anticipated ∨ (cramped ∧ e = tooDeep)) fun x p => Emittable p x.2 := by
  have hphase : ∀ (name : Text) (e : Failure), e.Anticipated →
      ((e.updateContext? "phase" name).getD e).Anticipated ∨ (cramped ∧
        (e.updateContext? "phase" name).getD e = tooDeep) :=
    fun name e he => Or.inl (he.updateContext "phase" name)
  obtain ⟨hpristine, huntargeted⟩ := pristine_create hcreate
  simp only [linkPhasesWithin, findPhasesWithin, analysePhases, Linking.phase, ends_bind,
    ends_pure, ends_mapFailure]
  refine (((ends_discover o.stdPath entry hpristine huntargeted (content_create hcreate)
    (fresh_create hcreate) hroom).expecting ?_).and_yields (yields_self _)).mono ?_
  · rintro e (he | ⟨hcramped, rfl⟩)
    · exact hphase _ e he
    · exact Or.inr ⟨hcramped, rfl⟩
  rintro d q ⟨hcharted, hdiscover⟩
  obtain ⟨-, hfound⟩ := surveys_of_discover hcreate hdiscover
  refine ((ends_assignEnumValues.expecting (hphase _)).and_yields (yields_self _)).mono ?_
  rintro _ p₁ ⟨-, hassign⟩
  have hdiscovers := hfound.sameNames (yields_assignEnumValues () p₁ hassign)
  have hstages := yields_assignEnumValues_part Namespace.stage (fun _ _ _ => rfl) () p₁ hassign
  refine ((ends_mangleIfAsked o d.order).and_yields (yields_self _)).mono ?_
  rintro symbols p₂ ⟨-, hmangle⟩
  obtain ⟨⟨table, rfl⟩, -⟩ := yields_mangleIfAsked hdiscovers o symbols p₂ hmangle
  -- What symbols are written as matters neither to analysis nor to linking.
  have hleads : SameLeads q (p₁.withSymbols table) :=
    (sameLeads_assignEnumValues hassign).trans ⟨rfl, rfl, fun _ => rfl, fun _ => rfl⟩
  have hbound : ∀ t ∈ d.orderedTrees, BoundTree (p₁.withSymbols table) t := by
    intro t ht
    obtain ⟨n, -, hn⟩ := List.mem_filterMap.mp ht
    exact (hcharted.bound t (List.mem_of_find?_eq_some hn)).retains
      (hleads.retains (sameEnumNames_assignEnumValues hassign t.owner))
  have hstage : ∀ m, ((p₁.withSymbols table).spaceAt m).stage.rank ≤ Stage.analyzed.rank := by
    intro m
    change (p₁.spaceAt m).stage.rank ≤ _
    rw [hstages m]
    exact (hcharted.stage m).trans (by decide)
  have hledger : (p₁.withSymbols table).ledger.WellFormed := by
    change p₁.ledger.WellFormed
    rw [hdiscovers.pristine.ledger]
    exact Ledger.wellFormed_empty
  refine (((ends_checkAll d.orderedTrees hbound hledger hstage).expecting (hphase _)).and_yields
    (yields_self _)).mono ?_
  rintro trees p₃ ⟨⟨hleads₃, howners, hchecked⟩, hcheck⟩
  have hready := linkReady_of_checkAll hcreate hdiscover hassign hmangle hcheck
  have hled : ∀ t ∈ trees, p₃.Led t.owner := by
    intro t ht
    have hmem : t.owner ∈ d.order := by
      rw [← hdiscovers.map_owner_orderedTrees, ← howners]
      exact List.mem_map_of_mem ht
    exact (hleads.trans hleads₃).led (hcharted.led t.owner hmem)
  refine (((hready.ends_anticipated hled).expecting (hphase _)).and_yields (yields_self _)).mono ?_
  rintro _ p₄ ⟨-, hlink⟩
  exact hready.emittable hchecked hlink

theorem emittable_of_linkPhases (hcreate : create workingDir o.retain readPattern = .ok p₀)
    {symbols : List MangleEntry} {trees : List Tree}
    (hrun : linkPhasesWithin depth loader o entry p₀ = .ok (symbols, trees) p) :
    Emittable p trees :=
  (ends_linkPhases hcreate (Or.inl trivial)).yields _ _ hrun

/-! ## Whole builds -/

/-- A build fails if its phases up to linking do, and as they do. -/
theorem buildWithin_eq_error_iff (hcreate : create workingDir o.retain readPattern = .ok p₀) :
    buildWithin depth loader workingDir o entry readPattern = .error e ↔
      ∃ q, linkPhasesWithin depth loader o entry p₀ = .error e q := by
  rw [buildWithin_eq hcreate]
  cases hlink : linkPhasesWithin depth loader o entry p₀ with
  | error e' q =>
      simp only [bind, EStateM.bind, hlink, outcome, Except.error.injEq,
        EStateM.Result.error.injEq, exists_and_left, exists_eq', and_true]
  | ok x p =>
      obtain ⟨r, p', hemit⟩ := (emittable_of_linkPhases hcreate hlink).emitPhases o x.1
      simp only [bind, EStateM.bind, hlink, hemit, outcome, reduceCtorEq, exists_false]

theorem mangleIfAsked_eq (o : BuildOptions) (order : List NamespaceId) (p : Program) :
    ∃ symbols table, mangleIfAsked o order p = .ok symbols (p.withSymbols table) := by
  unfold mangleIfAsked
  split
  · refine ⟨(p.mangle order).1, (p.mangle order).2.symbols, ?_⟩
    rw [← mangle_eq_withSymbols, get_bind_eq]
    rfl
  · exact ⟨[], p.symbols, rfl⟩

theorem Agree.error_iff {α β : Type} {symbols : Array Symbol} {R : α → β → Prop}
    {x : EStateM.Result Failure Program α} {y : EStateM.Result Failure Program β}
    (h : Agree symbols R x y) : (∃ q, y = .error e q) ↔ ∃ q, x = .error e q := by
  cases x with
  | ok a p =>
      cases y with
      | ok b q => simp
      | error e' q => cases h
  | error e' p =>
      cases y with
      | ok b q => cases h
      | error e'' q => simp [h.1]

/-- The output options have no part in how the phases up to linking fail. -/
theorem linkPhases_eq_error_iff :
    (∃ q, linkPhasesWithin depth loader o entry p = .error e q) ↔
      ∃ q, (findPhasesWithin depth loader o.stdPath entry >>= analysePhases) p = .error e q := by
  cases hfind : findPhasesWithin depth loader o.stdPath entry p with
  | error e' p₁ =>
      simp only [linkPhasesWithin, bind, EStateM.bind, hfind, EStateM.Result.error.injEq]
  | ok d p₁ =>
      obtain ⟨symbols, table, hmangle⟩ := mangleIfAsked_eq o d.order p₁
      have hblind : Blind table (analysePhases d) := blind_analysePhases d
      rw [linkPhasesWithin, bind_eq_of_eq_ok hfind, bind_eq_of_eq_ok hfind,
        bind_eq_of_eq_ok hmangle, ← (hblind p₁).error_iff]
      cases hanalyse : analysePhases d (p₁.withSymbols table) with
      | ok trees p₂ => simp [bind, EStateM.bind, hanalyse, pure, EStateM.pure]
      | error e' p₂ => simp [bind, EStateM.bind, hanalyse]

theorem buildWithin_eq_error_congr (hcreate : create workingDir o.retain readPattern = .ok p₀)
    (hretain : o'.retain = o.retain) (hstd : o'.stdPath = o.stdPath) :
    buildWithin depth loader workingDir o entry readPattern = .error e ↔
      buildWithin depth loader workingDir o' entry readPattern = .error e := by
  have hcreate' : create workingDir o'.retain readPattern = .ok p₀ := by rw [hretain, hcreate]
  rw [buildWithin_eq_error_iff hcreate, buildWithin_eq_error_iff hcreate',
    linkPhases_eq_error_iff, linkPhases_eq_error_iff, hstd]

/-- What a build comes to: its answer within all bounds that are large enough. -/
def ComesTo (loader : Loader) (workingDir : Text) (o : BuildOptions) (entry : Text)
    (readPattern : PatternReader) (answer : Except Failure BuildResult) : Prop :=
  answer ≠ .error tooDeep ∧
    ∃ depth, ∀ deeper, depth ≤ deeper →
      buildWithin deeper loader workingDir o entry readPattern = answer

theorem comesTo_of_ne (hcreate : create workingDir o.retain readPattern = .ok p₀)
    (hends : buildWithin depth loader workingDir o entry readPattern ≠ .error tooDeep) :
    ComesTo loader workingDir o entry readPattern
      (buildWithin depth loader workingDir o entry readPattern) :=
  ⟨hends, depth, fun _ hle => buildWithin_eq_of_le hcreate hle hends⟩

/-- A build comes to one answer at most. -/
theorem ComesTo.unique {answer answer' : Except Failure BuildResult}
    (h : ComesTo loader workingDir o entry readPattern answer)
    (h' : ComesTo loader workingDir o entry readPattern answer') : answer = answer' := by
  obtain ⟨-, depth, hdepth⟩ := h
  obtain ⟨-, depth', hdepth'⟩ := h'
  rw [← hdepth _ (Nat.le_max_left depth depth'), hdepth' _ (Nat.le_max_right depth depth')]

theorem ComesTo.anticipated (hcreate : create workingDir o.retain readPattern = .ok p₀)
    (h : ComesTo loader workingDir o entry readPattern (.error e)) : e.Anticipated := by
  obtain ⟨hends, depth, hdepth⟩ := h
  obtain ⟨q, hlink⟩ := (buildWithin_eq_error_iff hcreate).mp (hdepth depth le_rfl)
  have hexpected := (ends_linkPhases hcreate (Or.inl trivial)).expected_of_eq_error hlink
  refine hexpected.resolve_right ?_
  rintro ⟨-, rfl⟩
  exact hends rfl

theorem ComesTo.congr {answer : Except Failure BuildResult}
    (hcreate : create workingDir o.retain readPattern = .ok p₀) (hretain : o'.retain = o.retain)
    (hstd : o'.stdPath = o.stdPath) (h : ComesTo loader workingDir o entry readPattern answer) :
    ∃ answer', ComesTo loader workingDir o' entry readPattern answer' ∧
      ∀ e, answer = .error e ↔ answer' = .error e := by
  obtain ⟨hends, depth, hdepth⟩ := h
  have hiff : ∀ e, answer = .error e ↔
      buildWithin depth loader workingDir o' entry readPattern = .error e := by
    intro e
    rw [← hdepth depth le_rfl]
    exact buildWithin_eq_error_congr hcreate hretain hstd
  have hends' : buildWithin depth loader workingDir o' entry readPattern ≠ .error tooDeep :=
    fun hdeep => hends ((hiff tooDeep).mpr hdeep)
  exact ⟨_, comesTo_of_ne (by rw [hretain, hcreate]) hends', hiff⟩

/-- Where locations have one namespace each, builds are not given up. -/
theorem build_ne_tooDeep (hcreate : create workingDir o.retain readPattern = .ok p₀)
    (hconfined : p₀.Confined loader) :
    build loader workingDir false o entry readPattern ≠ .error tooDeep := by
  rw [build_eq_buildWithin]
  intro hdeep
  obtain ⟨q, hlink⟩ := (buildWithin_eq_error_iff hcreate).mp hdeep
  have hroom : False ∨ (p₀.Confined loader ∧ discoveryFuel loader ≤ discoveryFuel loader) :=
    Or.inr ⟨hconfined, le_rfl⟩
  rcases (ends_linkPhases hcreate hroom).expected_of_eq_error hlink with hsources | ⟨hcramped, -⟩
  · exact hsources
  · exact hcramped

/-- Builds fail only for what is wrong with their sources: whatever error a build comes to
is a diagnostic of a source, a source that cannot be loaded, a conflict of enum values or a
name that is not defined.  Once the phases up to linking have succeeded, those after it
succeed as well, whatever they are asked for; so builds that differ in the output options
only succeed or fail alike.  What is given as the answer of a build is what it comes to,
unless imports are nested too deeply; they are not, where each location is opened once. -/
theorem build_fails_for_sources (loader : Loader) (workingDir entry : Text) (o : BuildOptions)
    (hcreate : create workingDir o.retain readPattern = .ok p₀) :
    (∀ e, ComesTo loader workingDir o entry readPattern (.error e) → e.Anticipated) ∧
    (build loader workingDir false o entry readPattern ≠ .error tooDeep →
      ComesTo loader workingDir o entry readPattern
        (build loader workingDir false o entry readPattern)) ∧
    (Path.isAbsolute workingDir = true → p₀.StableLocations loader →
      build loader workingDir false o entry readPattern ≠ .error tooDeep) ∧
    (∀ depth symbols trees p, linkPhasesWithin depth loader o entry p₀ = .ok (symbols, trees) p →
      ∀ o' symbols', ∃ r p', emitPhases o' symbols' trees p = .ok r p') ∧
    ∀ o' : BuildOptions, o'.retain = o.retain → o'.stdPath = o.stdPath →
      (∀ answer, ComesTo loader workingDir o entry readPattern answer →
        ∃ answer', ComesTo loader workingDir o' entry readPattern answer' ∧
          ∀ e, answer = .error e ↔ answer' = .error e) ∧
      ∀ e, build loader workingDir false o entry readPattern = .error e ↔
        build loader workingDir false o' entry readPattern = .error e := by
  refine ⟨fun e he => he.anticipated hcreate, ?_, ?_, ?_, ?_⟩
  · rw [build_eq_buildWithin]
    exact comesTo_of_ne hcreate
  · intro hdir hstable
    exact build_ne_tooDeep hcreate (confined_create hcreate hdir hstable)
  · intro depth symbols trees p hrun o' symbols'
    exact (emittable_of_linkPhases hcreate hrun).emitPhases o' symbols'
  · intro o' hretain hstd
    refine ⟨fun answer h => h.congr hcreate hretain hstd, ?_⟩
    intro e
    rw [build_eq_buildWithin, build_eq_buildWithin]
    exact buildWithin_eq_error_congr hcreate hretain hstd

/-- A program that reads a name which its import does not define. -/
def brokenSources : List (Text × Text) :=
  [("/s.wv", "let a = 1\n"), ("/l.wv", "let b = 2\n"),
    ("/m.wv", "import l from \"l.wv\"\nlet x = a\nlet y = l.c\n")]

def everyOutput : BuildOptions where
  mangle := true
  removeDeadCode := true
  prunePassLimit := 1
  analyseAst := true
  analyseSymbols := true
  includeEnumLookup := true
  stdPath := "/s.wv"

set_option maxRecDepth 100000 in
/-- A program that links is emitted in every way, and one that does not fails alike. -/
theorem build_fails_for_sources_sample :
    ∃ p₀, create "/" [] = .ok p₀ ∧
      (∃ symbols trees p,
        linkPhasesWithin 9 (.ofSources crossedSources) { stdPath := "/s.wv" } "/m.wv" p₀ =
          .ok (symbols, trees) p ∧
        ∃ r p', emitPhases everyOutput symbols trees p = .ok r p') ∧
      ∃ e, build (.ofSources brokenSources) "/" false { stdPath := "/s.wv" } "/m.wv" = .error e ∧
        e.Anticipated ∧
        ComesTo (.ofSources brokenSources) "/" { stdPath := "/s.wv" } "/m.wv" Glob.reader
          (.error e) ∧
        build (.ofSources brokenSources) "/" false everyOutput "/m.wv" = .error e := by
  have hcreate := create_nil "/" Glob.reader
  refine ⟨_, hcreate, ?_, ?_⟩
  · have hruns : succeeds (linkPhasesWithin 9 (.ofSources crossedSources) { stdPath := "/s.wv" }
        "/m.wv" { workingDir := "/" }) = true := by
      decide +kernel
    cases hlink : linkPhasesWithin 9 (.ofSources crossedSources) { stdPath := "/s.wv" } "/m.wv"
        { workingDir := "/" } with
    | error e p =>
        rw [hlink] at hruns
        cases hruns
    | ok x p =>
        obtain ⟨-, -, -, hemits, -⟩ := build_fails_for_sources (.ofSources crossedSources) "/"
          "/m.wv" { stdPath := "/s.wv" } hcreate
        exact ⟨x.1, x.2, p, rfl, hemits 9 x.1 x.2 p hlink everyOutput x.1⟩
  · have hruns : (build (.ofSources brokenSources) "/" false { stdPath := "/s.wv" }
        "/m.wv").isOk = false := by
      decide +kernel
    have hstable : Program.StableLocations { workingDir := "/" } (.ofSources brokenSources) :=
      stableLocations_of_sources (by decide) (by decide +kernel)
    obtain ⟨hsources, hanswer, hroom, -, halike⟩ := build_fails_for_sources
      (.ofSources brokenSources) "/" "/m.wv" { stdPath := "/s.wv" } hcreate
    have hcomes := hanswer (hroom (by decide) hstable)
    obtain ⟨-, hbuild⟩ := halike everyOutput rfl rfl
    cases hrun : build (.ofSources brokenSources) "/" false { stdPath := "/s.wv" } "/m.wv" with
    | ok r =>
        rw [hrun] at hruns
        cases hruns
    | error e =>
        rw [hrun] at hcomes
        exact ⟨e, rfl, hsources e hcomes, hcomes, (hbuild e).mp hrun⟩

end Splice.Program

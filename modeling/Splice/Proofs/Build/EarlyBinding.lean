import Splice.Proofs.Build.Identities

/-!
# References are bound early to what they denote

The references of a namespace are bound when its imports are done, while other namespaces may
still wait for theirs.  Every reference then leads to a namespace that has been read, and
nothing adds an enum or a reference to one of those later (`Moment.Lasts`), so binding tells
entries of enums from values as linking does.  After linking, a reference without a target is
an entry, and any other one is its target (`Program.bound_early`).
-/

namespace Splice.Program

variable {p p' q : Program} {n m : NamespaceId} {d d' : Discovery} {r : ReferenceId}
  {ms : List Moment} {x : Moment} {readPattern : PatternReader}

/-- References that can be bound lead to other namespaces. -/
theorem led_of_bindReferences (hp : p.Pristine) (hn : p.Untargeted n)
    (h : bindReferences n p = .ok () p') : p.Led n := by
  refine (yields_bindReferences_of (fun done _ => ∀ r ∈ done,
    (p.importTarget? n (p.reference r).qualifier).isSome = true) hp hn (List.forall_mem_nil _) ?_
    () p' h).2
  intro before r q q' hq hr hstep hdone
  rw [List.forall_mem_append, List.forall_mem_singleton]
  refine ⟨hdone, ?_⟩
  have hown : r ∈ (p.spaceAt n).references := hq.ownReferences ▸ hr
  have hsame : q.importTarget? n (q.reference r).qualifier =
      p.importTarget? n (p.reference r).qualifier := by
    rw [(hq.grows.named r (hp.reference_lt n r hown)).1, importTarget?_congr hq.std hq.ownImports]
  rw [← hsame]
  cases hstep with
  | kept htarget =>
      obtain ⟨s, hs⟩ := Option.isSome_iff_exists.mp htarget
      obtain ⟨m, hm, -⟩ := hq.targeted r hr s hs
      rw [hm]
      rfl
  | enum hm => rw [hm]; rfl
  | bound hm => rw [hm]; rfl

/-- At a moment at which references are bound, each of them leads to a namespace that was read
by then. -/
def Moment.Ready (x : Moment) : Prop :=
  ∀ r ∈ (x.program.spaceAt x.space).references,
    ∃ m, x.program.importTarget? x.space (x.program.reference r).qualifier = some m ∧
      m ∈ x.trees.map Tree.owner

/-- What was found at a moment, and is so later: the trees, the enums and the references of the
namespaces that were read by then, and where the references lead that were bound. -/
structure Moment.Lasts (x : Moment) (p : Program) (d : Discovery) : Prop where
  own : x.space ∈ x.trees.map Tree.owner
  placed : x.space ∈ d.order
  trees : x.trees ⊆ d.trees
  enums : ∀ m ∈ x.trees.map Tree.owner, (p.spaceAt m).enums = (x.program.spaceAt m).enums
  references : ∀ m ∈ x.trees.map Tree.owner,
    (p.spaceAt m).references = (x.program.spaceAt m).references
  leads : ∀ qualifier, p.importTarget? x.space qualifier = x.program.importTarget? x.space qualifier
  named : ∀ r ∈ (x.program.spaceAt x.space).references,
    (p.reference r).qualifier = (x.program.reference r).qualifier ∧
      (p.reference r).name = (x.program.reference r).name

namespace Moment.Lasts

/-- A step that leaves the namespaces alone that were read. -/
theorem step (h : x.Lasts p d) (hplaced : d.order ⊆ d'.order)
    (htrees : d.trees ⊆ d'.trees)
    (henums : ∀ m ∈ d.trees.map Tree.owner, (p'.spaceAt m).enums = (p.spaceAt m).enums)
    (hreferences : ∀ m ∈ d.trees.map Tree.owner,
      (p'.spaceAt m).references = (p.spaceAt m).references)
    (hleads : ∀ qualifier, p'.importTarget? x.space qualifier = p.importTarget? x.space qualifier)
    (hnamed : ∀ r ∈ (p.spaceAt x.space).references,
      (p'.reference r).qualifier = (p.reference r).qualifier ∧
        (p'.reference r).name = (p.reference r).name) : x.Lasts p' d' where
  own := h.own
  placed := hplaced h.placed
  trees := List.Subset.trans h.trees htrees
  enums m hm := (henums m (List.map_subset _ h.trees hm)).trans (h.enums m hm)
  references m hm := (hreferences m (List.map_subset _ h.trees hm)).trans (h.references m hm)
  leads qualifier := (hleads qualifier).trans (h.leads qualifier)
  named r hr := by
    obtain ⟨hqualifier, hname⟩ := hnamed r (h.references _ h.own ▸ hr)
    obtain ⟨hqualifier', hname'⟩ := h.named r hr
    exact ⟨hqualifier.trans hqualifier', hname.trans hname'⟩

theorem opens (h : x.Lasts p d) (hopens : Opens p p') (hsteady : Steady p p' d) :
    x.Lasts p' d := by
  refine h.step (List.Subset.refl _) (List.Subset.refl _)
    (fun m _ => hopens.part Namespace.enums (fun _ _ _ => rfl) (fun _ _ _ _ => rfl) m)
    (fun m _ => hopens.part Namespace.references (fun _ _ _ => rfl) (fun _ _ _ _ => rfl) m)
    (hsteady x.space h.placed) fun r _ => ?_
  rw [reference, hopens.same.2]
  exact ⟨rfl, rfl⟩

theorem read {t : Tree} (h : x.Lasts p d) (hd : Discovers p d)
    (hseen : t.owner ∉ d.trees.map Tree.owner) (hadds : Adds t.owner p p')
    (hfills : Fills t.owner p p') : x.Lasts p' { d with trees := d.trees ++ [t] } := by
  have hne : ∀ m ∈ d.trees.map Tree.owner, m ≠ t.owner := fun m hm heq => hseen (heq ▸ hm)
  exact h.step (List.Subset.refl _) (List.subset_append_left _ _)
    (fun m hm => congrArg (fun c => c.2.2) (hfills.content (hne m hm)))
    (fun m hm => hadds.references m (hne m hm))
    (fun qualifier => importTarget?_congr hadds.std
      (hadds.imports _ (hne _ (hd.seen _ h.placed))) qualifier)
    fun r hr => hadds.grows.named r (hd.pristine.reference_lt _ r hr)

/-- Binding the references of a namespace leaves all enums, lists of references and aliases. -/
theorem bind (h : x.Lasts p d) (hp : p.Pristine) (hretargets : Retargets n p p')
    (hfiles : p.SameFiles p') : x.Lasts p' d := by
  refine h.step (List.Subset.refl _) (List.Subset.refl _) (fun m _ => hfiles.enums m) ?_
    (fun qualifier => importTarget?_congr hretargets.std (hfiles.imports _) qualifier)
    fun r hr => hretargets.grows.named r (hp.reference_lt _ r hr)
  intro m _
  by_cases hm : m = n
  · rw [hm, hretargets.ownReferences]
  · exact hretargets.references m hm

end Moment.Lasts

/-- The moments that were noted by now: one for each namespace in the build order. -/
structure Chronicle (ms : List Moment) (p : Program) (d : Discovery) : Prop where
  spaces : ms.map Moment.space = d.order
  ready : ∀ x ∈ ms, x.Ready
  lasts : ∀ x ∈ ms, x.Lasts p d

theorem chronicled_chronicle : Chronicled Chronicle where
  opens hopens hsteady h :=
    ⟨h.spaces, h.ready, fun x hx => (h.lasts x hx).opens hopens hsteady⟩
  read {ms p p' d n t} hn hseen hparse h := by
    obtain ⟨hadds, rfl, -, hreads⟩ := yields_parse hn.discovers.pristine hn.lt t p' hparse
    exact ⟨h.spaces, h.ready,
      fun x hx => (h.lasts x hx).read hn.discovers hseen hadds hreads.fills⟩
  place {ms p p' d n} hn hbind h := by
    have huntargeted := hn.discovers.untargeted n hn.open_
    have hretargets := yields_bindReferences hn.discovers.pristine huntargeted () p' hbind
    have hfiles := sameFiles_bindReferences () p' hbind
    refine ⟨?_, ?_, ?_⟩
    · rw [List.map_append, h.spaces]
      rfl
    · refine List.forall_mem_append.mpr ⟨h.ready, List.forall_mem_singleton.mpr fun r hr => ?_⟩
      have hled := led_of_bindReferences hn.discovers.pristine huntargeted hbind r hr
      obtain ⟨m, hm⟩ := Option.isSome_iff_exists.mp hled
      exact ⟨m, hm, hn.targets _ m hm⟩
    · have hnew : Moment.Lasts ⟨n, p, d.trees⟩ p { d with order := d.order ++ [n] } :=
        ⟨hn.seen, List.mem_append_right _ List.mem_cons_self, List.Subset.refl _, fun _ _ => rfl,
          fun _ _ => rfl, fun _ => rfl, fun _ _ => ⟨rfl, rfl⟩⟩
      have hold : ∀ x ∈ ms, x.Lasts p { d with order := d.order ++ [n] } := fun x hx =>
        (h.lasts x hx).step (List.subset_append_left _ _)
          (List.Subset.refl _) (fun _ _ => rfl) (fun _ _ => rfl) (fun _ => rfl)
          fun _ _ => ⟨rfl, rfl⟩
      exact List.forall_mem_append.mpr ⟨fun x hx => (hold x hx).bind hn.discovers.pristine
        hretargets hfiles, List.forall_mem_singleton.mpr
          (hnew.bind hn.discovers.pristine hretargets hfiles)⟩

/-- What binding did at a moment, as seen after discovery: exactly the references whose names
were no enums then have targets. -/
structure Moment.Decides (x : Moment) (p : Program) (d : Discovery) : Prop where
  ready : x.Ready
  lasts : x.Lasts p d
  decided : ∀ r ∈ (x.program.spaceAt x.space).references, ∀ m,
    x.program.importTarget? x.space (x.program.reference r).qualifier = some m →
      (p.reference r).target.isSome =
        ((x.program.spaceAt m).enum? (x.program.reference r).name).isNone

theorem Chronicle.decides (h : Chronicle ms p d) (haimed : Aimed p d) (hx : x ∈ ms) :
    x.Decides p d where
  ready := h.ready x hx
  lasts := h.lasts x hx
  decided r hr m hm := by
    have hlasts := h.lasts x hx
    obtain ⟨hqualifier, hname⟩ := hlasts.named r hr
    have hseen : m ∈ x.trees.map Tree.owner := by
      obtain ⟨m', hm', hseen⟩ := h.ready x hx r hr
      cases hm.symm.trans hm'
      exact hseen
    have hown : r ∈ (p.spaceAt x.space).references := hlasts.references _ hlasts.own ▸ hr
    have hlead : p.importTarget? x.space (p.reference r).qualifier = some m := by
      rw [hqualifier, hlasts.leads, hm]
    have haims := haimed.aims x.space hlasts.placed r hown m hlead
    rw [haims, hname, Namespace.enum?, hlasts.enums m hseen, Namespace.enum?]

/-! ## What references denote -/

/-- The symbols of a namespace are among those that are given numbers. -/
theorem Pristine.exists_mem_manglePool (hp : p.Pristine) {spaces : List NamespaceId}
    (hm : m ∈ spaces) {name : Text} {s : SymbolId}
    (hs : s ∈ p.symbolsOf m name) :
    ∃ g ∈ p.manglePool spaces, g.space = (p.spaceAt m).id ∧ g.name = name ∧ s ∈ g.members := by
  refine ⟨⟨(p.spaceAt m).id, name, p.symbolsOf m name⟩, ?_, rfl, rfl, hs⟩
  have hsymbols : ∀ s ∈ p.symbolsOf m name,
      p.symbol s = ⟨name, (p.spaceAt m).id, .namespaced, false, none⟩ :=
    fun s hs => hp.symbol_eq_namespaced hs
  refine mem_manglePool.mpr ⟨mem_nameGroups.mpr (Or.inl ⟨m, hm, rfl, ?_⟩), ?_⟩
  · exact Groups.mem_of_members (hp.groups_nodup m) hs
  · rw [isMangled_eq hsymbols hs]
    rfl

section

variable {loader : Loader} {workingDir : Text} {o : BuildOptions} {entry : Text}
  {p₀ p₁ p₂ p₃ p₄ : Program} {symbols : List MangleEntry} {trees : List Tree}

/-- After linking, a reference of a namespace has the target that it was given early.  If it
has none it denotes an entry of an enum, and otherwise it denotes the target, which was among
the symbols that were given numbers. -/
structure DenotesTarget (d : Discovery) (p₁ p₂ q : Program) (n : NamespaceId) (r : ReferenceId) :
    Prop where
  placed : n ∈ d.order
  target : (q.reference r).target = (p₁.reference r).target
  entry_iff : (q.reference r).target = none ↔ ∃ space enum name value,
    (q.reference r).resolution = .entry space enum name value
  value : ∀ s, (q.reference r).target = some s → (q.reference r).resolution = .value s
  pooled : ∀ s, (q.reference r).target = some s → ∃ m,
    q.importTarget? n (q.reference r).qualifier = some m ∧
      ∃ g ∈ p₂.manglePool d.order, g.space = (p₂.spaceAt m).id ∧
        g.name = (q.reference r).name ∧ s ∈ g.members

theorem LinkRun.denotesTarget (h : LinkRun loader o entry p₀ d p₁ p₂ p₃ p₄ symbols trees q)
    (hcreate : create workingDir o.retain readPattern = .ok p₀)
    (hr : r ∈ (q.spaceAt n).references) :
    DenotesTarget d p₁ p₂ q n r := by
  obtain ⟨table, hp₃, hproceeds, howners, -⟩ := h.checks hcreate
  obtain ⟨hsurveys, hfound⟩ := surveys_of_discover hcreate h.discover
  obtain ⟨std, root, hstd, -, -, horder⟩ := hsurveys.sequence
  have hready := linkReady_of_checkAll hcreate h.discover h.assign h.mangle h.check
  have hlinks := hready.proceeds h.link
  have hsame := yields_assignEnumValues () p₂ h.assign
  have hdiscovers := h.discovers hcreate
  rw [hlinks.part Namespace.references fun _ _ _ => rfl] at hr
  have hown : r ∈ (p₂.spaceAt n).references := by
    rw [hproceeds.part Namespace.references (fun _ _ _ => rfl), hp₃] at hr
    exact hr
  have hn : n ∈ d.order := by
    refine horder.parsed.subset ?_
    by_contra hseen
    rw [hsame.spaceReferences, ((h.charted hcreate).fresh n hseen).2] at hown
    cases hown
  obtain ⟨haims, _, href⟩ := h.aimsAt hcreate hn hr
  obtain ⟨t, ht, rfl⟩ := List.mem_map.mp (howners.symm ▸ hn)
  obtain ⟨_, hlinked⟩ := hlinks.reference r
  have htarget : (q.reference r).target = (p₄.reference r).target := by rw [hlinked]
  have hcases := hready.bound h.link ht hr haims
  rw [← htarget] at hcases
  refine ⟨hn, by rw [htarget, href], ?_, ?_, ?_⟩
  · rcases hcases with ⟨hnone, hentry⟩ | ⟨s, hs, hvalue⟩
    · exact iff_of_true hnone hentry
    · refine iff_of_false (by simp [hs]) ?_
      rintro ⟨space, enum, name, value, hentry⟩
      cases hvalue.symm.trans hentry
  · intro s hs
    rcases hcases with ⟨hnone, -⟩ | ⟨s', hs', hvalue⟩
    · cases hnone.symm.trans hs
    · cases hs'.symm.trans hs
      exact hvalue
  · intro s hs
    have hsame₂ : (p₂.reference r).target = some s ∧
        (q.reference r).qualifier = (p₂.reference r).qualifier ∧
          (q.reference r).name = (p₂.reference r).name := by
      rw [htarget, href] at hs
      rw [hlinked, href, show p₂.reference r = p₁.reference r from by
        rw [reference, hsame.references, reference]]
      exact ⟨hs, rfl, rfl⟩
    obtain ⟨htarget₂, hqualifier, hname⟩ := hsame₂
    obtain ⟨m, hm, hmember⟩ := hdiscovers.targeted t.owner hn r hown s htarget₂
    have hlead : q.importTarget? t.owner (q.reference r).qualifier = some m := by
      rw [hqualifier, hlinks.importTarget?, hproceeds.importTarget?, hp₃]
      exact hm
    have hm₁ : p₁.importTarget? t.owner (p₂.reference r).qualifier = some m :=
      (importTarget?_congr hsame.std (hsame.imports _) _).symm.trans hm
    obtain ⟨g, hg, hspace, hgname, hmem⟩ := hdiscovers.pristine.exists_mem_manglePool
      (horder.mem_of_importTarget? hstd hn hm₁) hmember
    exact ⟨m, hlead, g, hg, hspace, hgname.trans hname.symm, hmem⟩

end

/-- Early binding agrees with linking.  A discovery can note the moments at which references are
bound and finds the same, and if it succeeds there is one for each namespace of the build order:
every reference leads to a namespace that was read by then and has all the enums it will have,
so exactly the references whose names are no enums get targets.  If linking succeeds as well, a
reference denotes its target if it has one, and an entry of an enum otherwise. -/
theorem bound_early {loader : Loader} {workingDir : Text} {cancelled : Bool} {o : BuildOptions}
    {entry : Text} {p₀ p₁ : Program} (hcreate : create workingDir o.retain readPattern = .ok p₀)
    (hdiscover : discover loader cancelled o.stdPath entry p₀ = .ok d p₁) :
    Prod.fst <$> discoverNoted (discoveryFuel loader) loader cancelled o.stdPath entry =
      discover loader cancelled o.stdPath entry ∧
    (∃ ms, discoverNoted (discoveryFuel loader) loader cancelled o.stdPath entry p₀ =
        .ok (d, ms) p₁ ∧
      ms.map Moment.space = d.order ∧ ∀ x ∈ ms, x.Decides p₁ d) ∧
    ∀ symbols trees q, linkPhases loader cancelled o entry p₀ = .ok (symbols, trees) q →
      ∃ p₂, assignEnumValues p₁ = .ok () p₂ ∧
        ∀ n, ∀ r ∈ (q.spaceAt n).references, DenotesTarget d p₁ p₂ q n r := by
  obtain ⟨hpristine, huntargeted⟩ := pristine_create hcreate
  have hcontent := content_create hcreate
  refine ⟨fst_discoverNoted _ loader cancelled o.stdPath entry, ?_, ?_⟩
  · obtain ⟨ms, hnoted⟩ := exists_discoverNoted hdiscover
    have hchronicle := chronicled_chronicle.discover _ cancelled o.stdPath entry hpristine
      huntargeted hcontent ⟨rfl, List.forall_mem_nil _, List.forall_mem_nil _⟩ _ p₁ hnoted
    have haimed := lasting_aimed.discover _ cancelled o.stdPath entry hpristine huntargeted
      hcontent ⟨fun n hn => (nomatch hn), fun n hn => nomatch hn⟩ d p₁ hdiscover
    exact ⟨ms, hnoted, hchronicle.spaces, fun x hx => hchronicle.decides haimed hx⟩
  · intro symbols trees q hlink
    obtain ⟨rfl, d', p₁', p₂, p₃, p₄, hrun⟩ := exists_linkRun hlink
    cases hdiscover.symm.trans hrun.discover
    exact ⟨p₂, hrun.assign, fun n r hr => hrun.denotesTarget hcreate hr⟩

/-- A standard library with an import that reads it, and two files that import each other and
read names and entries of each other. -/
def knottedSources : List (Text × Text) :=
  [("/s.wv", "import u from \"u.wv\"\nlet a = u.b\n"), ("/u.wv", "let b = 1\n$p(a)\n"),
    ("/m.wv", "import l from \"l.wv\"\nenum E { X }\n$p(l.f, a, l.K.Y)\n"),
    ("/l.wv", "import m from \"m.wv\"\nenum K { Y }\nlet f = m.E.X\n")]

set_option maxRecDepth 100000 in
theorem bound_early_knotted :
    ∃ p₀ d p₁ ms symbols trees p₂ q, create "/" [] = .ok p₀ ∧
      discover (.ofSources knottedSources) false "/s.wv" "/m.wv" p₀ = .ok d p₁ ∧
      d.order = [1, 0, 3, 2] ∧
      discoverNoted (discoveryFuel (.ofSources knottedSources)) (.ofSources knottedSources) false
        "/s.wv" "/m.wv" p₀ = .ok (d, ms) p₁ ∧
      ms.map Moment.space = [1, 0, 3, 2] ∧ (∀ x ∈ ms, x.Decides p₁ d) ∧
      linkPhases (.ofSources knottedSources) false { stdPath := "/s.wv" } "/m.wv" p₀ =
        .ok (symbols, trees) q ∧
      assignEnumValues p₁ = .ok () p₂ ∧
      (q.references.toList.map fun r : Reference => r.target.isSome) =
        [true, true, true, false, true, false] ∧
      ∀ n, ∀ r ∈ (q.spaceAt n).references, DenotesTarget d p₁ p₂ q n r := by
  have horder : (answer? (discover (.ofSources knottedSources) false "/s.wv" "/m.wv"
      { workingDir := "/" })).map (fun x => x.1.order) = some [1, 0, 3, 2] := by
    decide +kernel
  have htargets : (answer? (linkPhases (.ofSources knottedSources) false { stdPath := "/s.wv" }
      "/m.wv" { workingDir := "/" })).map
        (fun x => x.2.references.toList.map fun r : Reference => r.target.isSome) =
      some [true, true, true, false, true, false] := by
    decide +kernel
  obtain ⟨d, p₁, hdiscover, hplaces⟩ := exists_of_answer? horder
  obtain ⟨result, q, hlink, hsettled⟩ := exists_of_answer? htargets
  have hcreate : create "/" ({ stdPath := "/s.wv" } : BuildOptions).retain =
      .ok { workingDir := "/" } := rfl
  obtain ⟨-, ⟨ms, hnoted, hspaces, hdecides⟩, hlinked⟩ := bound_early hcreate hdiscover
  obtain ⟨p₂, hassign, hall⟩ := hlinked _ _ _ hlink
  exact ⟨_, d, p₁, ms, _, _, p₂, q, rfl, hdiscover, hplaces, hnoted, hspaces.trans hplaces,
    hdecides, hlink, hassign, hsettled, hall⟩

end Splice.Program

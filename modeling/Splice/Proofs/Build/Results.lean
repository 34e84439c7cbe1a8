import Splice.Proofs.Build.Confluence
import Splice.Proofs.Build.Emission

/-!
# What a build returns

The phases after the assignment of enum values change neither the identifiers of the
namespaces nor their enums, and they keep the build order.  So the namespaces of the
result are those of the build order, and the registered enum entries are some of the
entries that were declared, in the same order.
-/

namespace Splice

def Namespace.entryNames (ns : Namespace) : List Text :=
  ns.enums.flatMap fun e => e.entries.map fun entry => ns.entryName e.name entry.name

namespace Program

variable {p p' : Program} {trees : List Tree} {d : Discovery} {readPattern : PatternReader}

theorem entryNames_congr {ns ns' : Namespace} (hid : ns'.id = ns.id)
    (henums : ns'.enums = ns.enums) : ns'.entryNames = ns.entryNames := by
  simp only [Namespace.entryNames, Namespace.entryName, hid, henums]

theorem map_name_enumRows (p : Program) (trees : List Tree) :
    (p.enumRows trees).map EnumRow.name =
      (trees.map Tree.owner).flatMap fun n => (p.spaceAt n).entryNames := by
  simp only [enumRows, Namespace.entryNames, List.map_flatMap, List.flatMap_map, List.map_map,
    Function.comp_def]

theorem map_owner_afterPasses (k : Nat) (trees : List Tree) (p : Program) :
    (afterPasses k (trees, p)).1.map Tree.owner = trees.map Tree.owner := by
  induction k generalizing trees p with
  | zero => rfl
  | succ k ih => exact (ih _ _).trans (map_owner_pruneAll trees p)

theorem map_owner_pruned (o : BuildOptions) (trees : List Tree) (p : Program) :
    (pruned o trees p).1.1.map Tree.owner = trees.map Tree.owner := by
  obtain ⟨passes, hpasses⟩ := exists_passes o trees p
  rw [show (pruned o trees p).1.1 = (afterPasses passes (trees, p)).1 from
    congrArg Prod.fst hpasses]
  exact map_owner_afterPasses passes trees p

/-- What the result of a build shows of the program it comes from. -/
structure Shows (order : List NamespaceId) (p : Program) (r : BuildResult) : Prop where
  namespaces : r.namespaces.map NamespaceCode.id = order.map fun n => (p.spaceAt n).id
  enums : (r.enumTable.map Prod.fst).Sublist (order.flatMap fun n => (p.spaceAt n).entryNames)

theorem Shows.congr {order : List NamespaceId} {r : BuildResult} (h : Shows order p r)
    (hid : ∀ n, (p.spaceAt n).id = (p'.spaceAt n).id)
    (henums : ∀ n, (p.spaceAt n).enums = (p'.spaceAt n).enums) : Shows order p' r where
  namespaces := by
    rw [h.namespaces]
    exact List.map_congr_left fun n _ => hid n
  enums := by
    have hnames : ∀ n, (p.spaceAt n).entryNames = (p'.spaceAt n).entryNames :=
      fun n => entryNames_congr (hid n) (henums n)
    simpa only [hnames] using h.enums

theorem yields_emitPhases_shows (o : BuildOptions) (symbols : List MangleEntry)
    (h : p.ledger.WellFormed) :
    Yields (emitPhases o symbols trees) p fun r _ => Shows (trees.map Tree.owner) p r := by
  simp only [emitPhases, yields_bind]
  refine (yields_pruneIfAsked o trees).mono ?_
  intro x p₁ hx
  have hkeeps : p.Settles p₁ := by
    rw [show p₁ = (pruned o trees p).2 from congrArg Prod.snd hx]
    exact settles_pruned h o trees
  have howners : x.1.map Tree.owner = trees.map Tree.owner := by
    rw [show x = (pruned o trees p).1 from congrArg Prod.fst hx]
    exact map_owner_pruned o trees p
  simp only [yields_get]
  refine (yields_mapFailure (yields_emitAll x.1)).mono ?_
  rintro codes p₂ ⟨hcodes, hsame⟩
  simp only [yields_pure]
  constructor
  · rw [hcodes, List.map_map, ← howners, List.map_map]
    exact List.map_congr_left fun t _ => hkeeps.id t.owner
  · have hnames : ∀ n, (p₂.spaceAt n).entryNames = (p.spaceAt n).entryNames := by
      intro n
      exact entryNames_congr ((hsame.id n).trans (hkeeps.id n))
        ((hsame.enums n).trans (hkeeps.enums n))
    have hrows : ((p₂.enumRows x.1).map EnumRow.name) =
        (trees.map Tree.owner).flatMap fun n => (p.spaceAt n).entryNames := by
      rw [map_name_enumRows, howners]
      simp only [hnames]
    rw [← hrows, List.map_map]
    refine List.Sublist.trans (List.Sublist.map EnumRow.name List.filter_sublist) ?_
    split
    · exact List.Sublist.refl _
    · exact List.nil_sublist _

theorem exists_of_findPhases {loader : Loader} {cancelled : Bool} {o : BuildOptions}
    {entry : Text} (h : findPhases loader cancelled o entry p = .ok d p') :
    ∃ q, discover loader cancelled o.stdPath entry p = .ok d q ∧
      assignEnumValues q = .ok () p' := by
  obtain ⟨e, q, hdiscover, hrest⟩ := exists_of_bind_eq_ok h
  obtain ⟨_, q', hassign, hdone⟩ := exists_of_bind_eq_ok hrest
  cases hdone
  exact ⟨q, yields_mapFailure (yields_self _) d q hdiscover,
    yields_mapFailure (yields_self _) _ p' hassign⟩

/-- A build that succeeds has discovered its files and assigned the values of their
enums, and its result shows what came of that. -/
theorem exists_shows_of_build {loader : Loader} {workingDir : Text} {cancelled : Bool}
    {o : BuildOptions} {entry : Text} {r : BuildResult}
    (h : build loader workingDir cancelled o entry readPattern = .ok r) :
    ∃ p₀ d p₁ p₂, create workingDir o.retain readPattern = .ok p₀ ∧
      discover loader cancelled o.stdPath entry p₀ = .ok d p₁ ∧
      assignEnumValues p₁ = .ok () p₂ ∧ Shows d.order p₂ r := by
  obtain ⟨p₀, symbols, trees, p, p', hcreate, hlink, hemit⟩ := exists_run_of_build h
  obtain ⟨hpristine, huntargeted⟩ := pristine_create hcreate
  obtain ⟨d, p₂, hfind, hrest⟩ := exists_of_bind_eq_ok hlink
  obtain ⟨p₁, hdiscover, hassign⟩ := exists_of_findPhases hfind
  have hdiscovers := yields_findPhases loader cancelled o entry hpristine huntargeted d p₂ hfind
  obtain ⟨symbols', q, hmangle, hrest⟩ := exists_of_bind_eq_ok hrest
  obtain ⟨⟨table, rfl⟩, -⟩ := yields_mangleIfAsked hdiscovers o symbols' q hmangle
  obtain ⟨trees', q, hanalyse, hdone⟩ := exists_of_bind_eq_ok hrest
  cases hdone
  obtain ⟨horder, hkeeps, howners⟩ := yields_analysePhases hdiscovers table trees p hanalyse
  have hshows := yields_emitPhases_shows o symbols horder.wellFormed r p' hemit
  rw [howners] at hshows
  exact ⟨p₀, d, p₁, p₂, hcreate, hdiscover, hassign, hshows.congr hkeeps.id hkeeps.enums⟩

end Program

end Splice

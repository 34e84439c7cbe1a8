import Splice.Proofs.Build.Pruning
import Splice.Proofs.Program.Mangling

/-!
# Reader accounting of whole builds

The phases of a build up to linking lead to a program in order, whatever the sources
and the options are.  Passes of dead code removal keep it in order, so between any
two of them every record lists exactly the reads that are left in the trees.
-/

namespace Splice.Program

variable {p p' : Program} {trees : List Tree} {d : Discovery} {readPattern : PatternReader}

/-- The phases of a build before names are given numbers. -/
def findPhases (loader : Loader) (cancelled : Bool) (o : BuildOptions) (entry : Text) :
    Linking Discovery := do
  let d ← Linking.phase "discovery" (discover loader cancelled o.stdPath entry)
  Linking.phase "enums" assignEnumValues
  return d

def analysePhases (d : Discovery) : Linking (List Tree) := do
  let trees ← Linking.phase "analysis" (checkAll d.orderedTrees)
  Linking.phase "link" (linkAll trees)
  return trees

/-- The phases of a build up to linking, with the numbers of names and the trees. -/
def linkPhases (loader : Loader) (cancelled : Bool) (o : BuildOptions) (entry : Text) :
    Linking (List MangleEntry × List Tree) := do
  let d ← findPhases loader cancelled o entry
  let symbols ← mangleIfAsked o d.order
  let trees ← analysePhases d
  return (symbols, trees)

def emitPhases (o : BuildOptions) (symbols : List MangleEntry) (trees : List Tree) :
    Linking BuildResult := do
  let (trees, prunePasses) ← pruneIfAsked o trees
  let treeReports := (← get).reports o trees
  let namespaces ← Linking.phase "emit" (emitAll trees)
  let p ← get
  let rows := if o.includeEnumLookup then p.enumRows trees else []
  let enumTable := (rows.filter (isRegistered o)).map fun row => (row.name, row.value)
  let enumReports := if o.analyseSymbols then rows.map (enumReport o) else []
  return {
    code := (enumTable.flatMap fun (name, value) => Code.enum name value) ++
      namespaces.flatMap (·.code)
    enumTable
    namespaces
    symbols
    prunePasses
    reports := treeReports ++ enumReports }

theorem buildPhases_eq (loader : Loader) (cancelled : Bool) (o : BuildOptions) (entry : Text) :
    buildPhases loader cancelled o entry = (do
      let (symbols, trees) ← linkPhases loader cancelled o entry
      emitPhases o symbols trees) := by
  simp only [buildPhases, linkPhases, findPhases, analysePhases, emitPhases, bind_assoc,
    pure_bind]

/-- All symbols of a name of a namespace are written the same way. -/
def Uniform (p : Program) : Prop :=
  ∀ n name, ∀ s ∈ p.symbolsOf n name, ∀ t ∈ p.symbolsOf n name, p.operand s = p.operand t

theorem Pristine.uniform (hp : p.Pristine) : p.Uniform := by
  intro n name s hs t ht
  rw [operand, operand, hp.symbol_eq n name s hs, hp.symbol_eq n name t ht]

theorem Keeps.uniform (h : p.Keeps p') (hp : p.Uniform) : p'.Uniform := by
  intro n name s hs t ht
  rw [h.symbolsOf] at hs ht
  have hsymbol : ∀ x, p'.operand x = p.operand x := by
    intro x
    rw [operand, operand, symbol, symbol, h.symbols]
  rw [hsymbol, hsymbol]
  exact hp n name s hs t ht

theorem Discovers.sameNames (h : Discovers p d) (hsame : SameNames p p') : Discovers p' d :=
  h.adds h.size_not_mem (hsame.adds h.pristine)

theorem grows_withSymbols (p : Program) (symbols : Array Symbol) :
    p.Grows (p.withSymbols symbols) := by
  constructor <;> simp [withSymbols, symbolsOf, spaceAt, reference]

theorem yields_mangleIfAsked (h : Discovers p d) (o : BuildOptions) :
    Yields (mangleIfAsked o d.order) p fun _ p' =>
      (∃ symbols, p' = p.withSymbols symbols) ∧ p'.Uniform := by
  have hspaces : ∀ n ∈ d.order, n < p.namespaces.size := fun n hn => h.lt (h.seen n hn)
  simp only [mangleIfAsked]
  split
  · simp only [yields_bind, yields_get, yields_set, yields_pure]
    have hmangled := exists_mangleGroups_eq p (p.manglePool d.order).zipIdx
    refine ⟨hmangled, ?_⟩
    intro n name s hs t ht
    obtain ⟨symbols, hsymbols⟩ := hmangled
    have hgroups : ∀ name, (p.mangle d.order).2.symbolsOf n name = p.symbolsOf n name := by
      intro name
      rw [mangle_snd, hsymbols]
      rfl
    rw [hgroups] at hs ht
    rw [operand, operand, h.pristine.symbol_mangle_eq hspaces h.order hs ht]
  · simp only [yields_pure]
    exact ⟨⟨p.symbols, rfl⟩, h.pristine.uniform⟩

theorem nodup_placedReads (howners : (trees.map Tree.owner).Nodup)
    (hplaces : ∀ t ∈ trees, (t.reads.map Read.offset).Nodup) :
    ((placedReads trees).map PlacedRead.reader).Nodup := by
  rw [placedReads, List.map_flatMap, List.nodup_flatMap]
  constructor
  · intro t ht
    have hinjective : Function.Injective (Reader.mk t.owner) := by
      intro a b hab
      cases hab
      rfl
    have hnodup := (hplaces t ht).map hinjective
    simpa [Function.comp_def, PlacedRead.reader] using hnodup
  · rw [List.Nodup, List.pairwise_map] at howners
    refine howners.imp ?_
    intro t u hne x hx hx'
    simp only [List.map_map, List.mem_map, Function.comp_apply, PlacedRead.reader] at hx hx'
    obtain ⟨r, -, rfl⟩ := hx
    obtain ⟨r', -, heq⟩ := hx'
    exact hne (congrArg Reader.file heq).symm

theorem Analysed.linkable {q : Program} (h : Analysed p trees) (hq : Discovers q d)
    {symbols : Array Symbol} (hkeeps : (q.withSymbols symbols).Keeps p)
    (hreferences : p.references = q.references)
    (howners : trees.map Tree.owner = d.order) : Linkable p trees := by
  have hreference : ∀ r, p.reference r = q.reference r := by
    intro r
    rw [reference, hreferences]
    rfl
  constructor
  · exact h.wellFormed
  · exact h.accounts
  · exact h.sound
  · intro n root hroot
    exact (h.rooted n root hroot).2
  · exact h.distinct
  · intro n r hr
    rw [hkeeps.spaceReferences] at hr
    rw [hreferences]
    exact hq.pristine.reference_lt n r hr
  · intro n m r hn hm
    rw [hkeeps.spaceReferences] at hn hm
    exact hq.pristine.reference_owner n m r hn hm
  · intro t ht r hr s hs
    have horder : t.owner ∈ d.order := by
      rw [← howners]
      exact List.mem_map_of_mem ht
    rw [hkeeps.spaceReferences] at hr
    rw [hreference] at hs ⊢
    obtain ⟨m, hm, hmem⟩ := hq.targeted t.owner horder r hr s hs
    refine ⟨m, ?_, ?_⟩
    · rw [importTarget?_congr hkeeps.std (hkeeps.imports _)]
      exact hm
    · rw [hkeeps.symbolsOf]
      exact hmem
  · intro n r hr
    left
    rw [hreference]
    exact hq.pristine.unresolved r
  · intro n root hroot s hs hchain f hf
    exact Or.inl (h.unlinked.loose f)

theorem yields_findPhases (loader : Loader) (cancelled : Bool) (o : BuildOptions) (entry : Text)
    (hp : p.Pristine) (huntargeted : ∀ n, p.Untargeted n) :
    Yields (findPhases loader cancelled o entry) p fun d p' => Discovers p' d := by
  simp only [findPhases, yields_bind]
  refine (yields_mapFailure (yields_discover _ loader cancelled o.stdPath entry hp
    huntargeted)).mono ?_
  intro d p₁ hdiscovers
  refine (yields_mapFailure yields_assignEnumValues).mono ?_
  intro _ p₂ hsame
  simp only [yields_pure]
  exact hdiscovers.sameNames hsame

/-- Analysis and linking put a program in order, whatever its symbols are written as. -/
theorem yields_analysePhases {q : Program} (hq : Discovers q d) (table : Array Symbol) :
    Yields (analysePhases d) (q.withSymbols table) fun trees p' =>
      InOrder p' Check.always trees ∧ (q.withSymbols table).Keeps p' ∧
        trees.map Tree.owner = d.order := by
  simp only [analysePhases, yields_bind]
  have hstart : Analysed (q.withSymbols table) [] :=
    analysed_nil hq.pristine.ledger hq.pristine.root
  have hfound : ∀ t ∈ d.orderedTrees, Found (q.withSymbols table) t := by
    intro t ht
    exact (hq.found_orderedTrees ht).mono (grows_withSymbols _ _)
  have hordered := hq.map_owner_orderedTrees
  refine (yields_mapFailure (yields_checkAll d.orderedTrees hstart hfound ?_)).mono ?_
  · rw [hordered]
    exact hq.order
  · rintro trees p₁ ⟨hkeeps, howners, hreferences, hanalysed⟩
    rw [hordered] at howners
    have hlinkable := hanalysed.linkable hq hkeeps hreferences howners
    refine (yields_mapFailure (yields_linkAll hlinkable fun t ht => ht)).mono ?_
    rintro _ p₂ ⟨hsettles, hlinkable₂, hlinked⟩
    simp only [yields_pure]
    have hnodup : (trees.map Tree.owner).Nodup := by
      rw [howners]
      exact hq.order
    have hplaces := nodup_placedReads hnodup hanalysed.places
    exact ⟨hlinkable₂.inOrder hlinked hplaces, hkeeps.trans hsettles.toKeeps, howners⟩

/-- A build that passes the link phase has a program in order. -/
theorem yields_linkPhases (loader : Loader) (cancelled : Bool) (o : BuildOptions)
    (entry : Text) (hp : p.Pristine) (huntargeted : ∀ n, p.Untargeted n) :
    Yields (linkPhases loader cancelled o entry) p fun result p' =>
      InOrder p' Check.always result.2 ∧ p'.Uniform := by
  simp only [linkPhases, yields_bind]
  refine (yields_findPhases loader cancelled o entry hp huntargeted).mono ?_
  intro d p₁ hdiscovers
  refine (yields_mangleIfAsked hdiscovers o).mono ?_
  rintro symbols p₂ ⟨⟨table, rfl⟩, huniform⟩
  refine (yields_analysePhases hdiscovers table).mono ?_
  rintro trees p₃ ⟨horder, hkeeps, -⟩
  simp only [yields_pure]
  exact ⟨horder, hkeeps.uniform huniform⟩

/-! ## Between the passes -/

/-- A place where a node of some trees reads a binding: by its own record, or by a
foreign name that has been tied to the binding. -/
def ReadAt (p : Program) (trees : List Tree) (u : UsageId) (x : Reader) : Prop :=
  ∃ t ∈ trees, ∃ node ∈ t.nodes, ∃ r, node.read? = some r ∧ x = ⟨t.owner, r.offset⟩ ∧
    (r.usage = some u ∨
      ∃ f, r.record = some f ∧ (p.ledger.foreignUsage f).resolved = some u)

/-- A place where a node of some trees is attached to a record of a foreign name. -/
def AttachedAt (trees : List Tree) (f : ForeignId) (x : Reader) : Prop :=
  ∃ t ∈ trees, ∃ node ∈ t.nodes, ∃ r, node.read? = some r ∧ x = ⟨t.owner, r.offset⟩ ∧
    r.record = some f

/-- Every record lists the places that read it, each once.  No two reading nodes share
a place, so that a place stands for a node. -/
structure Accounted (p : Program) (trees : List Tree) : Prop where
  places : (trees.flatMap fun t =>
    (t.nodes.filterMap Node.read?).map fun r => (⟨t.owner, r.offset⟩ : Reader)).Nodup
  usage_nodup : ∀ u, (p.ledger.usage u).readers.Nodup
  usage : ∀ u x, x ∈ (p.ledger.usage u).readers ↔ p.ReadAt trees u x
  foreign_nodup : ∀ f, (p.ledger.foreignUsage f).readers.Nodup
  foreign : ∀ f x, x ∈ (p.ledger.foreignUsage f).readers ↔ AttachedAt trees f x
  isRead : ∀ u, (p.ledger.usage u).isRead = true ↔ ∃ x, p.ReadAt trees u x

theorem mem_placedReads {e : PlacedRead} :
    e ∈ placedReads trees ↔
      ∃ t ∈ trees, ∃ node ∈ t.nodes, node.read? = some e.read ∧ e.file = t.owner := by
  simp only [placedReads, List.mem_flatMap, List.mem_map, Tree.reads_eq, List.mem_filterMap]
  constructor
  · rintro ⟨t, ht, r, ⟨node, hnode, hr⟩, rfl⟩
    exact ⟨t, ht, node, hnode, hr, rfl⟩
  · rintro ⟨t, ht, node, hnode, hr, hfile⟩
    refine ⟨t, ht, e.read, ⟨node, hnode, hr⟩, ?_⟩
    rw [← hfile]

theorem mem_readersOf {u : UsageId} {x : Reader} :
    x ∈ p.ledger.readersOf u (placedReads trees) ↔ p.ReadAt trees u x := by
  simp only [Ledger.readersOf, List.mem_map, List.mem_filter, mem_placedReads]
  constructor
  · rintro ⟨e, ⟨⟨t, ht, node, hnode, hread, hfile⟩, hresolves⟩, rfl⟩
    refine ⟨t, ht, node, hnode, e.read, hread, ?_, ?_⟩
    · rw [PlacedRead.reader, hfile]
    · simpa [Ledger.resolves, Option.any_eq_true] using hresolves
  · rintro ⟨t, ht, node, hnode, r, hread, rfl, hresolves⟩
    refine ⟨⟨t.owner, r⟩, ⟨⟨t, ht, node, hnode, hread, rfl⟩, ?_⟩, rfl⟩
    simpa [Ledger.resolves, Option.any_eq_true] using hresolves

theorem mem_foreignReadersOf {f : ForeignId} {x : Reader} :
    x ∈ Ledger.foreignReadersOf f (placedReads trees) ↔ AttachedAt trees f x := by
  simp only [Ledger.foreignReadersOf, List.mem_map, List.mem_filter, mem_placedReads]
  constructor
  · rintro ⟨e, ⟨⟨t, ht, node, hnode, hread, hfile⟩, hrecord⟩, rfl⟩
    refine ⟨t, ht, node, hnode, e.read, hread, ?_, by simpa using hrecord⟩
    rw [PlacedRead.reader, hfile]
  · rintro ⟨t, ht, node, hnode, r, hread, rfl, hrecord⟩
    exact ⟨⟨t.owner, r⟩, ⟨⟨t, ht, node, hnode, hread, rfl⟩, by simpa using hrecord⟩, rfl⟩

theorem InOrder.accounted {live : UsageId → Prop} (h : InOrder p live trees) :
    p.Accounted trees := by
  have husage : ∀ u x, x ∈ (p.ledger.usage u).readers ↔ p.ReadAt trees u x := by
    intro u x
    rw [(h.accounts.usage u).mem_iff]
    exact mem_readersOf
  -- The readers of one record are some of the places of all reads.
  have hsub : ∀ keep : PlacedRead → Bool,
      (((placedReads trees).filter keep).map PlacedRead.reader).Nodup := by
    intro keep
    exact (List.Sublist.map PlacedRead.reader List.filter_sublist).nodup h.places
  constructor
  · simpa [placedReads, Tree.reads_eq, List.map_flatMap, Function.comp_def,
      PlacedRead.reader] using h.places
  · intro u
    exact (h.accounts.usage u).nodup_iff.mpr (hsub _)
  · exact husage
  · intro f
    exact (h.accounts.foreign f).nodup_iff.mpr (hsub _)
  · intro f x
    rw [(h.accounts.foreign f).mem_iff]
    exact mem_foreignReadersOf
  · intro u
    rw [Usage.isRead, Bool.not_eq_true', List.isEmpty_eq_false_iff, ne_eq,
      List.eq_nil_iff_forall_not_mem]
    push Not
    simp only [husage]

theorem pristine_create {workingDir : Text} {patterns : List Text}
    (h : create workingDir patterns readPattern = .ok p) : p.Pristine ∧ ∀ n, p.Untargeted n := by
  obtain ⟨globs, rfl⟩ := exists_create_eq h
  refine ⟨pristine_empty _ _, ?_⟩
  intro n r hr
  simp [spaceAt] at hr

/-- Reader accounting: in every build that passes the link phase, after any number of
passes of dead code removal, the records list exactly the reads that are left. -/
theorem accounted_after_passes (loader : Loader) (workingDir : Text) (cancelled : Bool)
    (o : BuildOptions) (entry : Text) {p₀ p : Program} {symbols : List MangleEntry}
    {trees : List Tree} (hcreate : create workingDir o.retain readPattern = .ok p₀)
    (hlink : linkPhases loader cancelled o entry p₀ = .ok (symbols, trees) p) (passes : Nat) :
    (afterPasses passes (trees, p)).2.Accounted (afterPasses passes (trees, p)).1 := by
  obtain ⟨hpristine, huntargeted⟩ := pristine_create hcreate
  obtain ⟨horder, -⟩ :=
    yields_linkPhases loader cancelled o entry hpristine huntargeted _ _ hlink
  have hread : InOrder p p.IsRead trees := horder.mono fun _ _ => trivial
  exact (hread.afterPasses passes).accounted

def succeeds {α : Type} : EStateM.Result Failure Program α → Bool
  | .ok _ _ => true
  | .error _ _ => false

def sampleSources : List (Text × Text) :=
  [("/s.wv", "let a = 1\n"), ("/m.wv", "let y = a\nlet x = y\n")]

set_option maxRecDepth 100000 in
theorem accounted_sample :
    ∃ p₀ p symbols trees, create "/" [] = .ok p₀ ∧
      linkPhases (.ofSources sampleSources) false { stdPath := "/s.wv" } "/m.wv" p₀ =
        .ok (symbols, trees) p ∧
      (afterPasses 2 (trees, p)).2.Accounted (afterPasses 2 (trees, p)).1 := by
  have hcreate := create_nil "/" Glob.reader
  have hruns : succeeds (linkPhases (.ofSources sampleSources) false { stdPath := "/s.wv" }
      "/m.wv" { workingDir := "/" }) = true := by decide +kernel
  cases hlink : linkPhases (.ofSources sampleSources) false { stdPath := "/s.wv" } "/m.wv"
      { workingDir := "/" } with
  | error e p =>
      rw [hlink] at hruns
      cases hruns
  | ok result p =>
      exact ⟨_, p, result.1, result.2, hcreate, hlink,
        accounted_after_passes (.ofSources sampleSources) "/" false { stdPath := "/s.wv" }
          "/m.wv" hcreate hlink 2⟩

end Splice.Program

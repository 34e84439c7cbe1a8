import Splice.Proofs.Build.Failures
import Splice.Proofs.Build.Resolution
import Splice.Proofs.Build.Termination

/-!
# Discovery fails only because of sources

A namespace that was not seen is as it was created, so its source can be read.  Its
references lead to the standard library or through aliases of its imports, and all its
imports are opened before its references are bound; so every reference leads somewhere.
While other namespaces are visited, one that was seen stays as it is, except for the
symbols that others bind in it (`Program.Spares`).  What is left are failures to read or
to load a source, and visits that are nested too deeply.
-/

namespace Splice.Program

variable {p p' p'' : Program} {n m : NamespaceId} {d d' : Discovery} {loader : Loader}
  {t : Tree} {spared other : NamespaceId → Prop} {expected : Failure → Prop}

/-- Some namespaces stay where they are and have the references they had, and every
reference asks for what it asked for. -/
structure Spares (spared : NamespaceId → Prop) (p p' : Program) : Prop where
  stage : ∀ m, spared m → (p'.spaceAt m).stage = (p.spaceAt m).stage
  references : ∀ m, spared m → (p'.spaceAt m).references = (p.spaceAt m).references
  references_le : p.references.size ≤ p'.references.size
  named : ∀ r < p.references.size,
    (p'.reference r).qualifier = (p.reference r).qualifier ∧
      (p'.reference r).name = (p.reference r).name ∧
      (p'.reference r).member = (p.reference r).member

theorem Spares.refl (p : Program) : Spares spared p p :=
  ⟨fun _ _ => rfl, fun _ _ => rfl, le_rfl, fun _ _ => ⟨rfl, rfl, rfl⟩⟩

theorem Spares.mono (h : Spares spared p p') (himp : ∀ m, other m → spared m) :
    Spares other p p' :=
  ⟨fun m hm => h.stage m (himp m hm), fun m hm => h.references m (himp m hm), h.references_le,
    h.named⟩

theorem Spares.trans (h : Spares spared p p') (h' : Spares spared p' p'') :
    Spares spared p p'' where
  stage m hm := (h'.stage m hm).trans (h.stage m hm)
  references m hm := (h'.references m hm).trans (h.references m hm)
  references_le := h.references_le.trans h'.references_le
  named r hr := by
    obtain ⟨hqualifier, hname, hmember⟩ := h.named r hr
    obtain ⟨hqualifier', hname', hmember'⟩ := h'.named r (hr.trans_le h.references_le)
    exact ⟨hqualifier'.trans hqualifier, hname'.trans hname, hmember'.trans hmember⟩

theorem Spares.of_references (hreferences : p'.references = p.references)
    (hstage : ∀ m, spared m → (p'.spaceAt m).stage = (p.spaceAt m).stage)
    (hspace : ∀ m, spared m → (p'.spaceAt m).references = (p.spaceAt m).references) :
    Spares spared p p' where
  stage := hstage
  references := hspace
  references_le := by rw [hreferences]
  named r _ := by
    rw [reference, hreferences]
    exact ⟨rfl, rfl, rfl⟩

theorem Spares.retains (h : Spares spared p p')
    (henums : (p'.spaceAt n).enums = (p.spaceAt n).enums) : Retains n p p' :=
  ⟨.of_enums henums, h.references_le, h.named⟩

theorem spares_modifySpace (p : Program) (n : NamespaceId) {f : Namespace → Namespace}
    (hstage : ∀ ns, (f ns).stage = ns.stage)
    (hreferences : ∀ ns, (f ns).references = ns.references) :
    Spares (fun _ => True) p (p.modifySpace n f) :=
  .of_references rfl (fun m _ => spaceAt_modifySpace_same p n m f Namespace.stage hstage)
    fun m _ => spaceAt_modifySpace_same p n m f Namespace.references hreferences

theorem spares_advanced (p : Program) (n : NamespaceId) (stage : Stage) :
    Spares (· ≠ n) p (p.modifySpace n fun ns => { ns with stage }) := by
  refine .of_references rfl ?_ fun m _ =>
    spaceAt_modifySpace_same p n m _ Namespace.references fun _ => rfl
  intro m hm
  rw [spaceAt_modifySpace, if_neg fun h => hm h.1.symm]

theorem spares_openAt {location : Text} {opened : NamespaceId × Bool}
    (h : openAt (some loader) location p = .ok opened p') : Spares (fun _ => True) p p' := by
  refine .of_references ?_ (fun m _ => part_openAt Namespace.stage (fun _ _ _ => rfl) h m)
    fun m _ => part_openAt Namespace.references (fun _ _ _ => rfl) h m
  obtain ⟨-, -, rfl⟩ | ⟨-, text, -, -, rfl⟩ := openAt_cases h
  · rfl
  · rfl

theorem spares_openImport {i : PendingImport} (h : openImport loader n i p = .ok m p') :
    Spares (fun _ => True) p p' := by
  obtain ⟨opened, q, hopen, rfl, rfl⟩ := openImport_cases h
  exact (spares_openAt hopen).trans (spares_modifySpace q n (fun _ => rfl) fun _ => rfl)

theorem enums_openImport {i : PendingImport} {k : NamespaceId}
    (h : openImport loader n i p = .ok m p') : (p'.spaceAt k).enums = (p.spaceAt k).enums := by
  obtain ⟨opened, q, hopen, rfl, rfl⟩ := openImport_cases h
  have hbind : ((q.bindImport n i.qualifier opened.1).spaceAt k).enums = (q.spaceAt k).enums :=
    spaceAt_modifySpace_same _ n k _ Namespace.enums fun _ => rfl
  rw [hbind]
  exact part_openAt Namespace.enums (fun _ _ _ => rfl) hopen k

theorem spares_openUnit (p : Program) (unit : SourceUnit) :
    Spares (fun _ => True) p (p.openUnit unit).2 := by
  unfold openUnit
  split
  · exact Spares.refl p
  · refine .of_references rfl ?_ ?_
    all_goals
      intro m _
      rw [spaceAt_register]
      split
      · next hm =>
          rw [hm, spaceAt_of_size_le le_rfl]
      · rfl

theorem spares_openStd {stdPath : Text} (h : openStd loader stdPath p = .ok n p') :
    Spares (fun _ => True) p p' := by
  obtain ⟨isNew, hopen⟩ | ⟨-, rfl, rfl⟩ := openStd_cases h
  · exact spares_openAt hopen
  · exact spares_openUnit p _

theorem spares_retarget (p : Program) (r : ReferenceId) (s : SymbolId) :
    Spares (fun _ => True) p (p.retarget r s) where
  stage _ _ := rfl
  references _ _ := rfl
  references_le := by simp [retarget]
  named q _ :=
    ⟨reference_retarget_same p r q s Reference.qualifier fun _ _ => rfl,
      reference_retarget_same p r q s Reference.name fun _ _ => rfl,
      reference_retarget_same p r q s Reference.member fun _ _ => rfl⟩

theorem spares_addSymbol (p : Program) (n : NamespaceId) (name : Text) :
    Spares (fun _ => True) p (p.addSymbol n name).2 :=
  .of_references rfl
    (fun m _ => spaceAt_addSymbol_same p n m name Namespace.stage fun _ _ => rfl)
    fun m _ => spaceAt_addSymbol_same p n m name Namespace.references fun _ _ => rfl

theorem stage_enactOne (p : Program) (n m : NamespaceId) (d : Declaration) :
    ((enactOne n p d).spaceAt m).stage = (p.spaceAt m).stage := by
  cases d with
  | symbol name => exact spaceAt_addSymbol_same p n m name Namespace.stage fun _ _ => rfl
  | property name => rfl
  | reference qualifier name member offset =>
      exact spaceAt_modifySpace_same _ n m _ Namespace.stage fun _ => rfl
  | import_ qualifier path offset =>
      exact spaceAt_modifySpace_same p n m _ Namespace.stage fun _ => rfl
  | generatedAlias => rfl
  | enum name offset => exact spaceAt_modifySpace_same p n m _ Namespace.stage fun _ => rfl
  | entry enum entry => exact spaceAt_modifySpace_same p n m _ Namespace.stage fun _ => rfl
  | retain name =>
      rw [enactOne, retainProperty_eq]
      rfl

theorem stage_enact (p : Program) (n m : NamespaceId) (ds : List Declaration) :
    ((p.enact n ds).spaceAt m).stage = (p.spaceAt m).stage := by
  induction ds generalizing p with
  | nil => rfl
  | cons d rest ih => exact (ih (enactOne n p d)).trans (stage_enactOne p n m d)

/-- Declarations add references behind those that are there. -/
theorem reference_enactOne {r : ReferenceId} (hr : r < p.references.size) (d : Declaration) :
    (enactOne n p d).reference r = p.reference r ∧ r < (enactOne n p d).references.size := by
  cases d with
  | reference qualifier name member offset =>
      refine ⟨?_, ?_⟩
      · exact (reference_addReference p n qualifier name member offset r).trans (if_neg hr.ne)
      · exact hr.trans (by simp [enactOne, addReference, modifySpace])
  | symbol name => exact ⟨rfl, hr⟩
  | property name => exact ⟨rfl, hr⟩
  | import_ qualifier path offset => exact ⟨rfl, hr⟩
  | generatedAlias => exact ⟨rfl, hr⟩
  | enum name offset => exact ⟨rfl, hr⟩
  | entry enum entry => exact ⟨rfl, hr⟩
  | retain name =>
      rw [enactOne, retainProperty_eq]
      exact ⟨rfl, hr⟩

theorem reference_enact {r : ReferenceId} (hr : r < p.references.size) (ds : List Declaration) :
    (p.enact n ds).reference r = p.reference r := by
  induction ds generalizing p with
  | nil => rfl
  | cons d rest ih =>
      obtain ⟨hsame, hlt⟩ := reference_enactOne (n := n) hr d
      exact (ih hlt).trans hsame

theorem yields_parseStatements_enact :
    Yields (parseStatements n) p fun _ p' => ∃ ds, p' = p.enact n ds := by
  simp only [parseStatements, yields_bind, yields_get]
  split
  · simp
  · split
    · simp only [yields_bind, yields_set, yields_pure]
      exact ⟨_, rfl⟩
    · simp

/-- A source can be read if its namespace is as it was created. -/
theorem ends_parse (hp : p.Pristine) (hn : n < p.namespaces.size)
    (hstage : (p.spaceAt n).stage = .created) (htidy : (p.spaceAt n).Tidy)
    (hblank : (p.spaceAt n).references = []) :
    Ends (parse n) p Failure.Anticipated fun t p' =>
      (t.owner = n ∧ BoundTree p' t) ∧ (p'.spaceAt n).stage = .parsed ∧ Anchored p' n ∧
        Spares (· ≠ n) p p' := by
  have hmain : Ends (parse n) p Failure.Anticipated fun _ p' =>
      (p'.spaceAt n).stage = .parsed ∧ Anchored p' n ∧
        (∀ m ≠ n, (p'.spaceAt m).stage = (p.spaceAt m).stage) ∧
        ∀ r < p.references.size,
          (p'.reference r).qualifier = (p.reference r).qualifier ∧
            (p'.reference r).name = (p.reference r).name ∧
            (p'.reference r).member = (p.reference r).member := by
    simp only [parse_eq, ends_bind, ends_get, ends_set, ends_pure]
    refine (ends_parseStatements.and_yields
      ((yields_parseStatements hp hn).and yields_parseStatements_enact)).mono ?_
    rintro ss p₁ ⟨-, ⟨hadds, hbindable, -, -, hanchored⟩, ds, rfl⟩
    have hn₁ := hn.trans_le hadds.grows.spaces_le
    have hanchored := (hanchored htidy).2 hblank
    have hbinds := bindStmts_spec (Stmt.declaredNames ss) ss hadds.pristine hn₁ hbindable
    have hsites := bindStmts_sites (n := n) (tells_declaredNames ss 0) 1 ss (p.enact n ds)
    generalize (bindStmts n (Stmt.declaredNames ss) ss (p.enact n ds)).2 = p₂ at hbinds hsites ⊢
    have hstage₂ : ∀ m, (p₂.spaceAt m).stage = (p.spaceAt m).stage :=
      fun m => (hsites.stage m).trans (stage_enact p n m ds)
    have hn₂ := hn₁.trans_le hbinds.adds.grows.spaces_le
    have hcreated : (p₂.spaceAt n).stage.rank ≤ Stage.parsed.rank := by
      rw [hstage₂, hstage]
      decide
    refine (ends_advance hcreated).mono ?_
    rintro _ _ rfl
    refine ⟨?_, ?_, ?_, ?_⟩
    · rw [spaceAt_modifySpace, if_pos ⟨rfl, hn₂⟩]
    · intro r hr
      have hpart := fun {α : Type} (part : Namespace → α)
          (h : ∀ ns stage, part { ns with stage } = part ns) =>
        spaceAt_modifySpace_same p₂ n n (fun ns => { ns with stage := .parsed }) part
          fun ns => h ns .parsed
      have hr₂ : r ∈ (p₂.spaceAt n).references := by
        rw [← hpart Namespace.references fun _ _ => rfl]
        exact hr
      rw [hpart Namespace.aliases fun _ _ => rfl,
        hbinds.files.part Namespace.aliases (fun _ => rfl) n]
      change (p₂.reference r).qualifier = [] ∨ (p₂.reference r).qualifier ∈ _
      rcases hsites.added r hr₂ with hold | hnew
      · rw [(hsites.retains.named r (hadds.pristine.reference_lt n r hold)).1]
        exact hanchored r hold
      · exact Or.inl (hsites.unqualified r hnew)
    · intro m hm
      rw [spaceAt_modifySpace, if_neg fun h => hm h.1.symm, hstage₂]
    · intro r hr
      have hr₁ := hr.trans_le hadds.grows.references_le
      have hnamed := hsites.retains.named r hr₁
      rw [reference_enact hr ds] at hnamed
      exact hnamed
  refine (hmain.and_yields ((yields_parse hp hn).and parse_bound)).mono ?_
  rintro t p' ⟨⟨hparsed, hanchored, hstages, hnamed⟩, ⟨hadds, -⟩, hbound⟩
  exact ⟨hbound, hparsed, hanchored, hstages, hadds.references, hadds.grows.references_le, hnamed⟩

def Led (p : Program) (n : NamespaceId) : Prop :=
  ∀ r ∈ (p.spaceAt n).references,
    (p.importTarget? n (p.reference r).qualifier).isSome = true

theorem Led.mono (h : p.Led n) (hp : p.Pristine) (hspares : Spares spared p p')
    (hn : spared n) (hstd : p'.std = p.std)
    (himports : (p'.spaceAt n).imports = (p.spaceAt n).imports) : p'.Led n := by
  intro r hr
  rw [hspares.references n hn] at hr
  rw [(hspares.named r (hp.reference_lt n r hr)).1, importTarget?_congr hstd himports]
  exact h r hr

/-- References that lead to other namespaces can be bound there. -/
theorem ends_bindReferences (hp : p.Pristine) (hled : p.Led n) :
    Ends (bindReferences n) p expected fun _ p' => Spares (fun _ => True) p p' := by
  simp only [bindReferences, ends_bind, ends_get, ends_pure]
  refine (Ends.forIn_list (fun _ p' =>
    p.SameFiles p' ∧ p'.std = p.std ∧ Spares (fun _ => True) p p') ?_ ?_).mono
      fun _ _ h => h.2.2
  · rintro before r after hsplit p₁ ⟨hfiles, hstd, hspares⟩
    have hr : r ∈ (p.spaceAt n).references := by
      rw [hsplit]
      simp
    have hsome : (p₁.importTarget? n (p₁.reference r).qualifier).isSome = true := by
      rw [(hspares.named r (hp.reference_lt n r hr)).1,
        importTarget?_congr hstd (hfiles.imports n)]
      exact hled r hr
    simp only [ends_bind, ends_get]
    split
    · simp only [ends_bind, ends_get]
      refine ((ends_importTarget _).expecting fun _ hnone => ?_).mono ?_
      · rw [hnone] at hsome
        cases hsome
      rintro m p₂ ⟨rfl, htarget⟩
      split
      · simp only [ends_bind, ends_set, ends_pure, true_and]
        have hadd := sameFiles_addSymbol p₂ m (p₂.reference r).name
        have hsymbol := spares_addSymbol p₂ m (p₂.reference r).name
        refine ⟨hfiles.trans ⟨hadd.workingDir, hadd.size, hadd.file⟩, hstd, ?_⟩
        exact (hspares.trans hsymbol).trans (spares_retarget _ r _)
      · simp only [ends_pure, true_and]
        exact ⟨hfiles, hstd, hspares⟩
    · simp only [ends_pure, true_and]
      exact ⟨hfiles, hstd, hspares⟩
  · exact ⟨SameFiles.refl p, rfl, Spares.refl p⟩

/-! ## Visits -/

theorem BoundTree.retains (h : BoundTree p t) (hretains : Retains t.owner p p') :
    BoundTree p' t where
  root := h.root
  regular := h.regular
  bound root e he := (h.bound root e he).retains hretains

/-- How far the namespaces have come between any two steps of discovery. -/
structure Charted (p : Program) (d : Discovery) : Prop where
  fresh : ∀ m, m ∉ d.trees.map Tree.owner →
    (p.spaceAt m).stage = .created ∧ (p.spaceAt m).references = []
  stage : ∀ m, (p.spaceAt m).stage.rank ≤ Stage.importsResolved.rank
  led : ∀ n ∈ d.order, p.Led n
  bound : ∀ t ∈ d.trees, BoundTree p t

/-- Steps that move no namespace forward. -/
theorem Charted.keep (h : Charted p d) (hp : p.Pristine) (hspares : Spares (fun _ => True) p p')
    (hstd : p'.std = p.std) (henums : ∀ m, (p'.spaceAt m).enums = (p.spaceAt m).enums)
    (himports : ∀ m ∈ d.order, (p'.spaceAt m).imports = (p.spaceAt m).imports) :
    Charted p' d where
  fresh m hm := by
    rw [hspares.stage m trivial, hspares.references m trivial]
    exact h.fresh m hm
  stage m := by
    rw [hspares.stage m trivial]
    exact h.stage m
  led m hm := (h.led m hm).mono hp hspares trivial hstd (himports m hm)
  bound t ht := (h.bound t ht).retains (hspares.retains (henums t.owner))

/-- Reading a namespace that was not seen. -/
theorem Charted.read (h : Charted p d) (hd : Discovers p d)
    (hseen : t.owner ∉ d.trees.map Tree.owner) (hspares : Spares (· ≠ t.owner) p p')
    (hfills : Fills t.owner p p') (hstd : p'.std = p.std)
    (hparsed : (p'.spaceAt t.owner).stage = .parsed) (hbound : BoundTree p' t) :
    Charted p' { d with trees := d.trees ++ [t] } where
  fresh m hm := by
    simp only [List.map_append, List.map_cons, List.map_nil, List.mem_append,
      List.mem_singleton, not_or] at hm
    rw [hspares.stage m hm.2, hspares.references m hm.2]
    exact h.fresh m hm.1
  stage m := by
    by_cases hm : m = t.owner
    · rw [hm, hparsed]
      decide
    · rw [hspares.stage m hm]
      exact h.stage m
  led m hm := by
    have hne : m ≠ t.owner := fun heq => hseen (heq ▸ hd.seen m hm)
    exact (h.led m hm).mono hd.pristine hspares hne hstd (hfills.imports m)
  bound u hu := by
    rcases List.mem_append.mp hu with hold | hnew
    · have hne : u.owner ≠ t.owner := fun heq => hseen (heq ▸ List.mem_map_of_mem hold)
      have henums : (p'.spaceAt u.owner).enums = (p.spaceAt u.owner).enums :=
        congrArg (fun c => c.2.2) (hfills.content hne)
      exact (h.bound u hold).retains (hspares.retains henums)
    · rw [List.mem_singleton.mp hnew]
      exact hbound

/-- A namespace whose references are bound takes its place. -/
theorem Charted.place (h : Charted p d) (hled : p.Led n)
    (hseen : n ∈ d.trees.map Tree.owner) :
    Charted (p.modifySpace n fun ns => { ns with stage := .importsResolved })
      { d with order := d.order ++ [n] } := by
  have hspares := spares_advanced p n .importsResolved
  have hpart := fun {α : Type} (part : Namespace → α)
      (h : ∀ ns stage, part { ns with stage } = part ns) m =>
    spaceAt_modifySpace_same p n m (fun ns => { ns with stage := .importsResolved }) part
      fun ns => h ns .importsResolved
  have hstd : (p.modifySpace n fun ns => { ns with stage := .importsResolved }).std = p.std := rfl
  have hall : ∀ m, p.Led m →
      (p.modifySpace n fun ns => { ns with stage := .importsResolved }).Led m := by
    intro m hm r hr
    rw [hpart Namespace.references fun _ _ => rfl] at hr
    have himports := hpart Namespace.imports (fun _ _ => rfl) m
    rw [importTarget?_congr hstd himports]
    exact hm r hr
  constructor
  · intro m hm
    have hne : m ≠ n := fun heq => hm (heq ▸ hseen)
    rw [hspares.stage m hne, hspares.references m hne]
    exact h.fresh m hm
  · intro m
    rw [spaceAt_modifySpace]
    split
    · exact le_rfl
    · exact h.stage m
  · intro m hm
    rcases List.mem_append.mp hm with hold | hlast
    · exact hall m (h.led m hold)
    · rw [List.mem_singleton.mp hlast]
      exact hall n hled
  · intro t ht
    have henums := hpart Namespace.enums (fun _ _ => rfl) t.owner
    exact (h.bound t ht).retains (hspares.retains henums)

/-- Opening an import of a namespace that has no place yet moves no namespace forward. -/
theorem Charted.openImport (h : Charted p d) (hp : p.Pristine) (hplace : n ∉ d.order)
    {i : PendingImport} (hopen : Program.openImport loader n i p = .ok m p') :
    Charted p' d := by
  refine h.keep hp (spares_openImport hopen) (std_openImport hopen)
    (fun _ => enums_openImport hopen) ?_
  intro k hk
  have hne : k ≠ n := fun heq => hplace (heq ▸ hk)
  exact congrArg Prod.fst (content_openImport_ne hopen hne)

/-- What a visit does once all imports were visited: the references are bound, and the
namespace takes its place. -/
theorem ends_place (h : Charted p d) (hp : p.Pristine) (hled : p.Led n)
    (huntargeted : p.Untargeted n) (hseen : n ∈ d.trees.map Tree.owner) (id : Text) :
    Ends (do
        (bindReferences n).mapFailure fun e => e.addContext "namespace" id
        advance n .importsResolved
        return { d with order := d.order ++ [n] }) p expected fun d' p' =>
      Charted p' d' ∧ Spares (· ≠ n) p p' := by
  simp only [ends_bind, ends_mapFailure, ends_pure]
  refine ((ends_bindReferences hp hled).and_yields
    ((yields_bindReferences hp huntargeted).and sameFiles_bindReferences)).mono ?_
  rintro _ p₁ ⟨hbinds, hretargets, hfiles⟩
  have hcharted := h.keep hp hbinds hretargets.std hfiles.enums fun m _ => hfiles.imports m
  have hled₁ := hled.mono hp hbinds trivial hretargets.std (hfiles.imports n)
  refine (ends_advance (hcharted.stage n)).mono ?_
  rintro _ _ rfl
  exact ⟨hcharted.place hled₁ hseen,
    (hbinds.mono fun _ _ => trivial).trans (spares_advanced p₁ n .importsResolved)⟩

def tooDeep : Failure := .plain "imports are nested too deeply"

/-- When all its imports are open, every reference of a namespace leads to one. -/
theorem Anchored.led (h : Anchored p n) (hp : p.Pristine) (hspares : Spares spared p p')
    (hn : spared n) (hstd : p'.std.isSome = true)
    (himports : (p'.spaceAt n).imports.map Prod.fst = (p.spaceAt n).aliases) : p'.Led n := by
  intro r hr
  rw [hspares.references n hn] at hr
  rw [(hspares.named r (hp.reference_lt n r hr)).1]
  unfold importTarget?
  split
  · exact hstd
  · next hempty =>
      have hmem := (h r hr).resolve_left fun hnil => hempty (by rw [hnil]; rfl)
      rw [← himports] at hmem
      obtain ⟨i, hi, heq⟩ := List.mem_map.mp hmem
      rw [Namespace.import?, Option.isSome_map, List.find?_isSome]
      exact ⟨i, hi, by rw [heq, beq_self_eq_true]⟩

/-- A visit ends well, or because a source cannot be read or loaded, or because visits are
nested too deeply.  The latter happens only if it may: if `cramped` holds. -/
theorem ends_visit {cramped : Prop} {fuel : Nat} (h : Approaches p d n) (hcharted : Charted p d)
    (hstd : p.std.isSome = true)
    (hroom : cramped ∨
      (p.Confined loader ∧ loader.sources.length + 1 < d.trees.length + fuel)) :
    Ends (visit loader false fuel n d) p (fun e => e.Anticipated ∨ (cramped ∧ e = tooDeep))
      fun d' p' => Charted p' d' ∧ Spares (· ∈ d.trees.map Tree.owner) p p' := by
  induction fuel generalizing p n d with
  | zero =>
      refine Or.inr ⟨?_, rfl⟩
      refine hroom.resolve_right ?_
      rintro ⟨hconfined, hfuel⟩
      have hseen := h.discovers.length_le
      have hspaces := hconfined.located.size_le hconfined.sourced
      omega
  | succ fuel ih =>
      rw [visit]
      by_cases hseen : d.isSeen n = true
      · rw [if_pos hseen]
        exact ⟨hcharted, Spares.refl p⟩
      rw [if_neg hseen, if_neg Bool.false_ne_true]
      rw [isSeen_iff] at hseen
      rw [ends_bind]
      obtain ⟨hcreated, hblank⟩ := hcharted.fresh n hseen
      have hparse := ends_parse h.discovers.pristine h.lt hcreated (h.ordered.tidy n) hblank
      refine (((hparse.expecting fun _ he => Or.inl he).and_yields
        (h.start loader hseen)).and_yields (yields_parse h.discovers.pristine h.lt)).mono ?_
      rintro t p₁ ⟨⟨⟨⟨rfl, hbound⟩, hparsed, hanchored, hspares⟩, -, hqualifiers, hstart⟩,
        hadds, -, -, hreads⟩
      rw [ends_bind, ends_get, ends_bind, ends_set, ends_bind]
      have hread := hcharted.read h.discovers hseen hspares hreads.fills hadds.std hparsed hbound
      have hdrain : Spares (fun _ => True) p₁ (p₁.drainImports t.owner).2 :=
        spares_modifySpace p₁ t.owner (fun _ => rfl) fun _ => rfl
      have hdrained : Charted (p₁.drainImports t.owner).2 { d with trees := d.trees ++ [t] } :=
        hread.keep hadds.pristine hdrain rfl
          (fun m => spaceAt_modifySpace_same p₁ t.owner m _ Namespace.enums fun _ => rfl)
          fun m _ => spaceAt_modifySpace_same p₁ t.owner m _ Namespace.imports fun _ => rfl
      -- What was seen by now stays as it is while the imports are visited.
      refine (Ends.foldlM_list (fun before d' p' => Visits loader t before d p d' p' ∧
        Charted p' d' ∧ Spares (· ∈ (d.trees ++ [t]).map Tree.owner)
          (p₁.drainImports t.owner).2 p') ?_ ⟨hstart, hdrained, Spares.refl _⟩).mono ?_
      · rintro before i after hsplit d₂ p₂ ⟨h₂, hcharted₂, hspares₂⟩
        have hnew := not_mem_of_nodup_split hqualifiers hsplit
        have hlength := h₂.length_lt h.discovers hseen
        have hplace := h₂.not_placed (h.not_placed hseen)
        simp only [ends_bind]
        refine (((ends_openImport loader i).expecting fun _ he => Or.inl he).and_yields
          (yields_self _)).mono ?_
        rintro m p₃ ⟨-, hopen⟩
        have h₃ := h₂.approaches h hseen hnew hopen
        have hopened := spares_openImport hopen
        have hcharted₃ := hcharted₂.openImport h₂.explores.discovers.pristine hplace hopen
        have hstd₃ : p₃.std.isSome = true := by
          rw [std_openImport hopen, h₂.std]
          exact hstd
        have hroom₃ : cramped ∨
            (p₃.Confined loader ∧ loader.sources.length + 1 < d₂.trees.length + fuel) := by
          refine hroom.imp_right ?_
          rintro ⟨hconfined, hfuel⟩
          have hhistory := h₂.history.trans (History.openImport hopen)
          exact ⟨hconfined.history hhistory, by omega⟩
        refine ((ih h₃ hcharted₃ hstd₃ hroom₃).and_yields
          ((yields_visit loader false fuel h₃.discovers h₃.lt).and
            (yields_visit_tours loader false fuel h₃))).mono ?_
        rintro d₄ p₄ ⟨⟨hcharted₄, hspares₄⟩, hexplores, htour⟩
        refine ⟨h₂.step h hseen hnew hopen hexplores htour, hcharted₄, ?_⟩
        exact (hspares₂.trans (hopened.mono fun _ _ => trivial)).trans
          (hspares₄.mono h₂.explores.seen)
      · rintro d₂ p₂ ⟨h₂, hcharted₂, hspares₂⟩
        have hpristine := h₂.explores.discovers.pristine
        have hplace := h₂.not_placed (h.not_placed hseen)
        have hnone : (p₁.spaceAt t.owner).imports = [] := by
          rw [hreads.fills.imports]
          exact congrArg Prod.fst (h.ordered.fresh t.owner hseen)
        have hled : p₂.Led t.owner := by
          refine hanchored.led hadds.pristine ((hdrain.mono fun _ _ => trivial).trans hspares₂)
            (by simp) ?_ ?_
          · rw [h₂.std]
            exact hstd
          · rw [h₂.bound, Namespace.aliases, hnone]
            rfl
        rw [ends_bind, ends_get]
        refine (ends_place hcharted₂ hpristine hled
          (h₂.explores.discovers.untargeted t.owner hplace) h₂.visited _).mono ?_
        rintro d₃ p₃ ⟨hcharted₃, hspares₃⟩
        refine ⟨hcharted₃, ?_⟩
        have hbefore : ∀ m ∈ d.trees.map Tree.owner, m ≠ t.owner :=
          fun m hm heq => hseen (heq ▸ hm)
        have hlater : ∀ m ∈ d.trees.map Tree.owner, m ∈ (d.trees ++ [t]).map Tree.owner := by
          intro m hm
          rw [List.map_append]
          exact List.mem_append_left _ hm
        have hvisits : Spares (· ∈ d.trees.map Tree.owner) p₁ p₂ :=
          (hdrain.mono fun _ _ => trivial).trans (hspares₂.mono hlater)
        exact ((hspares.mono hbefore).trans hvisits).trans (hspares₃.mono hbefore)

/-- Discovery from a program without namespaces. -/
theorem ends_discover {cramped : Prop} {depth : Nat} (stdPath entry : Text) (hp : p.Pristine)
    (huntargeted : ∀ n, p.Untargeted n) (hblank : ∀ m, (p.spaceAt m).content = ([], [], []))
    (hfresh : ∀ m, (p.spaceAt m).stage = .created ∧ (p.spaceAt m).references = [])
    (hroom : cramped ∨ (p.Confined loader ∧ discoveryFuel loader ≤ depth)) :
    Ends (discoverWithin depth loader false stdPath entry) p
      (fun e => e.Anticipated ∨ (cramped ∧ e = tooDeep)) fun d p' => Charted p' d := by
  simp only [discoverWithin, ends_bind, ends_modify]
  refine (((ends_openStd loader stdPath).expecting fun _ he => Or.inl he.anticipated).and_yields
    (yields_self _)).mono ?_
  rintro std p₁ ⟨-, hopen⟩
  have hstart := approaches_std hp huntargeted hblank hopen
  have hspares := spares_openStd hopen
  have hset : History loader (· = StandardLibrary.unit) p { p₁ with std := some std } :=
    (openStd_spec hopen).1.work ⟨rfl, rfl, fun _ => rfl, fun _ => rfl, fun _ => rfl⟩
  have hfresh₁ : ∀ m, (p₁.spaceAt m).stage = .created ∧ (p₁.spaceAt m).references = [] := by
    intro m
    rw [hspares.stage m trivial, hspares.references m trivial]
    exact hfresh m
  have hcharted : Charted { p₁ with std := some std } {} := by
    refine ⟨fun m _ => hfresh₁ m, ?_, List.forall_mem_nil _, List.forall_mem_nil _⟩
    intro m
    change (p₁.spaceAt m).stage.rank ≤ _
    rw [(hfresh₁ m).1]
    decide
  have hroom₁ : ∀ {q : Program} (d : Discovery),
      History loader (· = StandardLibrary.unit) p q → cramped ∨
        (q.Confined loader ∧ loader.sources.length + 1 < d.trees.length + depth) := by
    intro q d hhistory
    refine hroom.imp_right ?_
    rintro ⟨hconfined, hdepth⟩
    have hlt := lt_add_discoveryFuel loader d
    exact ⟨hconfined.history hhistory, by omega⟩
  refine ((ends_visit hstart hcharted rfl (hroom₁ _ hset)).and_yields
    ((yields_visit loader false _ hstart.discovers hstart.lt).and
      (yields_visit_tours loader false _ hstart))).mono ?_
  rintro d₂ p₂ ⟨⟨hcharted₂, -⟩, hexplores, htour⟩
  refine (((ends_openAt loader entry).expecting fun _ he => Or.inl he.anticipated).and_yields
    (yields_self _)).mono ?_
  rintro opened p₃ ⟨-, hentry⟩
  have hnext := htour.approaches_entry hexplores.discovers hentry
  have hcharted₃ := hcharted₂.keep hexplores.discovers.pristine (spares_openAt hentry)
    (std_openAt hentry) (part_openAt Namespace.enums (fun _ _ _ => rfl) hentry)
    fun m _ => part_openAt Namespace.imports (fun _ _ _ => rfl) hentry m
  have hstd₃ : p₃.std.isSome = true := by
    rw [std_openAt hentry, htour.std]
    rfl
  exact (ends_visit hnext hcharted₃ hstd₃
    (hroom₁ _ ((hset.trans htour.history).openAt hentry))).mono fun _ _ h => h.1

end Splice.Program

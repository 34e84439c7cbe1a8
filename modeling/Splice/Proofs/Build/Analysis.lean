import Splice.Build.Run
import Splice.Proofs.Build.Discovery
import Splice.Proofs.Tree.Analysis

/-!
# The analysis of all trees

From the analysis on a program keeps its names (`Program.Keeps`): only the ledger,
the outermost scopes of the namespaces and what references denote are filled in.
The ledger grows, so what was found for a tree stays true while the other trees are
analysed.  After some trees the ledger accounts for exactly their reads, and each of
them is sound: its names have records, and its bindings are declared.
-/

namespace Splice

def placedReads (trees : List Tree) : List PlacedRead :=
  trees.flatMap fun t => t.reads.map (PlacedRead.mk t.owner)

theorem placedReads_append (a b : List Tree) :
    placedReads (a ++ b) = placedReads a ++ placedReads b :=
  List.flatMap_append

theorem placedReads_singleton (t : Tree) :
    placedReads [t] = t.reads.map (PlacedRead.mk t.owner) := by
  simp [placedReads]

theorem Mention.Valid.fresh {p : Program} {n : NamespaceId} {m : Mention}
    (h : m.Valid p n) (hbare : m.bare = m) : m.Fresh p.reference := by
  cases m with
  | name o text read =>
      cases read with
      | unbound => trivial
      | own s usage =>
          simp only [Mention.bare, Mention.name.injEq, NameRead.own.injEq, true_and] at hbare
          exact hbare.symm
      | std r record =>
          simp only [Mention.bare, Mention.name.injEq, NameRead.std.injEq, true_and] at hbare
          exact ⟨hbare.symm, h.2.2.1, h.2.2.2⟩
  | imported o r record =>
      simp only [Mention.bare, Mention.imported.injEq, true_and] at hbare
      exact hbare.symm
  | property s => trivial
  | binding text s => trivial

theorem filterMap_offset?_bare (ms : List Mention) :
    (ms.map Mention.bare).filterMap Mention.offset? = ms.filterMap Mention.offset? := by
  rw [List.filterMap_map]
  apply List.filterMap_congr
  intro m _
  exact m.offset?_bare

theorem sublist_offset? (ms : List Mention) :
    ((ms.filterMap Mention.read?).map Read.offset).Sublist (ms.filterMap Mention.offset?) := by
  induction ms with
  | nil => exact List.Sublist.refl _
  | cons m rest ih =>
      have hoffset : ∀ r, m.read? = some r → m.offset? = some r.offset := by
        intro r hr
        cases m with
        | name o n read =>
            cases read with
            | unbound => cases hr
            | own s usage => cases hr; rfl
            | std s record => cases hr; rfl
        | imported o s record => cases hr; rfl
        | property s => cases hr
        | binding n s => cases hr
      cases hread : m.read? with
      | none =>
          rw [List.filterMap_cons_none hread, List.filterMap_cons]
          split
          · exact ih
          · exact ih.cons _
      | some r =>
          rw [List.filterMap_cons_some hread, List.filterMap_cons_some (hoffset r hread)]
          exact ih.cons_cons _

theorem Mention.Valid.of_bare {p : Program} {n : NamespaceId} {m m' : Mention}
    (h : m.Valid p n) (hbare : m.bare = m'.bare) : m'.Valid p n := by
  have hvalid : ∀ m : Mention, m.bare.Valid p n ↔ m.Valid p n := by
    intro m
    cases m with
    | name o text read => cases read <;> rfl
    | imported o r record => rfl
    | property s => rfl
    | binding text s => rfl
  rw [← hvalid, ← hbare, hvalid]
  exact h

namespace Program

variable {p p' p'' : Program} {n m : NamespaceId} {t t' : Tree} {live : UsageId → Prop}
  {root : ScopeId}

/-- A later program in which names mean the same. -/
structure Keeps (p p' : Program) : Prop where
  symbols : p'.symbols = p.symbols
  properties : p'.properties = p.properties
  std : p'.std = p.std
  size : p'.namespaces.size = p.namespaces.size
  id : ∀ n, (p'.spaceAt n).id = (p.spaceAt n).id
  groups : ∀ n, (p'.spaceAt n).groups = (p.spaceAt n).groups
  enums : ∀ n, (p'.spaceAt n).enums = (p.spaceAt n).enums
  imports : ∀ n, (p'.spaceAt n).imports = (p.spaceAt n).imports
  spaceReferences : ∀ n, (p'.spaceAt n).references = (p.spaceAt n).references
  root : ∀ n root, (p.spaceAt n).root = some root → (p'.spaceAt n).root = some root
  references_size : p'.references.size = p.references.size
  qualifier : ∀ r, (p'.reference r).qualifier = (p.reference r).qualifier
  name : ∀ r, (p'.reference r).name = (p.reference r).name
  target : ∀ r, (p'.reference r).target = (p.reference r).target
  wellFormed : p'.ledger.WellFormed
  extend : p.ledger.Extends p'.ledger

theorem Keeps.refl (h : p.ledger.WellFormed) : p.Keeps p := by
  constructor <;> simp [h, Ledger.Extends.refl]

theorem Keeps.trans (h : p.Keeps p') (h' : p'.Keeps p'') : p.Keeps p'' where
  symbols := h'.symbols.trans h.symbols
  properties := h'.properties.trans h.properties
  std := h'.std.trans h.std
  size := h'.size.trans h.size
  id n := (h'.id n).trans (h.id n)
  groups n := (h'.groups n).trans (h.groups n)
  enums n := (h'.enums n).trans (h.enums n)
  imports n := (h'.imports n).trans (h.imports n)
  spaceReferences n := (h'.spaceReferences n).trans (h.spaceReferences n)
  root n root hroot := h'.root n root (h.root n root hroot)
  references_size := h'.references_size.trans h.references_size
  qualifier r := (h'.qualifier r).trans (h.qualifier r)
  name r := (h'.name r).trans (h.name r)
  target r := (h'.target r).trans (h.target r)
  wellFormed := h'.wellFormed
  extend := h.extend.trans h'.extend

theorem keeps_ledger {l : Ledger} (hl : l.WellFormed) (hext : p.ledger.Extends l) :
    p.Keeps { p with ledger := l } := by
  constructor <;> first | exact hl | exact hext | (intros; assumption) | (intros; rfl)

theorem keeps_modifySpace (hl : p.ledger.WellFormed) (n : NamespaceId)
    (f : Namespace → Namespace) (hid : ∀ ns, (f ns).id = ns.id)
    (hgroups : ∀ ns, (f ns).groups = ns.groups) (henums : ∀ ns, (f ns).enums = ns.enums)
    (himports : ∀ ns, (f ns).imports = ns.imports)
    (hreferences : ∀ ns, (f ns).references = ns.references)
    (hroot : ∀ root, (p.spaceAt n).root = some root → (f (p.spaceAt n)).root = some root) :
    p.Keeps (p.modifySpace n f) where
  symbols := rfl
  properties := rfl
  std := rfl
  size := size_modifySpace f
  id m := spaceAt_modifySpace_same p n m f Namespace.id hid
  groups m := spaceAt_modifySpace_same p n m f Namespace.groups hgroups
  enums m := spaceAt_modifySpace_same p n m f Namespace.enums henums
  imports m := spaceAt_modifySpace_same p n m f Namespace.imports himports
  spaceReferences m := spaceAt_modifySpace_same p n m f Namespace.references hreferences
  root m root hm := by
    rw [spaceAt_modifySpace]
    split
    · next hc =>
        obtain ⟨rfl, -⟩ := hc
        exact hroot root hm
    · exact hm
  references_size := rfl
  qualifier _ := rfl
  name _ := rfl
  target _ := rfl
  wellFormed := hl
  extend := Ledger.Extends.refl _

theorem Keeps.symbolsOf (h : p.Keeps p') (n : NamespaceId) (name : Text) :
    p'.symbolsOf n name = p.symbolsOf n name := by
  rw [Program.symbolsOf, h.groups]
  rfl

theorem Keeps.grows (h : p.Keeps p') : p.Grows p' where
  spaces_le := h.size.ge
  id n _ := h.id n
  symbols n name := by rw [h.symbolsOf]; exact List.Subset.refl _
  properties name := by rw [h.properties]; exact List.Subset.refl _
  references n := by rw [h.spaceReferences]; exact List.Subset.refl _
  references_le := h.references_size.ge
  named r _ := ⟨h.qualifier r, h.name r⟩

/-- Moving a namespace forward. -/
theorem yields_advance_keeps (hl : p.ledger.WellFormed) (stage : Stage) :
    Yields (advance n stage) p fun _ p' =>
      p.Keeps p' ∧ p'.ledger = p.ledger ∧ p'.references = p.references ∧
        ∀ m, (p'.spaceAt m).root = (p.spaceAt m).root := by
  simp only [advance, yields_bind, yields_get]
  split
  · simp
  · simp only [yields_set]
    refine ⟨keeps_modifySpace hl n _ (fun _ => rfl) (fun _ => rfl) (fun _ => rfl)
      (fun _ => rfl) (fun _ => rfl) fun _ h => h, rfl, rfl, ?_⟩
    intro m
    exact spaceAt_modifySpace_same p n m _ Namespace.root fun _ => rfl

def naming (p : Program) (n : NamespaceId) (root : ScopeId) : Naming where
  space := (p.spaceAt n).id
  foreign r f := p.ledger.FilesUnder root (p.reference r).qualifier (p.reference r).name f

/-- A tree with the outermost scope it was analysed in: the names that code is
generated for have the records that their scopes give them, and every live binding is
declared. -/
structure Sound (p : Program) (live : UsageId → Prop) (root : ScopeId) (t : Tree) : Prop where
  lt : root < p.ledger.scopes.size
  outermost : (p.ledger.scope root).parent = none
  rooted : (p.spaceAt t.owner).root = some root
  bound : Stmt.BoundAll (p.naming t.owner root) live (p.ledger.visible root) t.statements
  supported :
    Stmt.Supported (p.naming t.owner root) live [] t.statements (p.ledger.visible root)
  valid : ∀ m ∈ Stmt.mentionsOfAll t.statements, m.Valid p t.owner

theorem Keeps.naming_foreign (h : p.Keeps p') (hl : p.ledger.WellFormed) {r : ReferenceId}
    {f : ForeignId} (hf : (p.naming n root).foreign r f) : (p'.naming n root).foreign r f := by
  simp only [naming, h.qualifier, h.name] at hf ⊢
  exact hf.extends hl h.wellFormed h.extend

theorem Sound.keeps (h : Sound p live root t) (hl : p.ledger.WellFormed) (hp : p.Keeps p') :
    Sound p' live root t := by
  have hspace : (p.naming t.owner root).space = (p'.naming t.owner root).space :=
    (hp.id t.owner).symm
  have hvisible := hp.extend.visible_eq hl hp.wellFormed h.lt
  constructor
  · exact h.lt.trans_le hp.extend.scopes_le
  · rw [hp.extend.parent root h.lt]
    exact h.outermost
  · exact hp.root _ _ h.rooted
  · rw [hvisible]
    exact h.bound.mono hspace (fun _ _ => hp.naming_foreign hl) fun _ hu => hu
  · rw [hvisible]
    exact h.supported.mono hspace fun _ hu => hu
  · intro m hm
    exact (h.valid m hm).mono hp.grows

/-- Where trees are sound, the root of a namespace that has one of them is the root that
the tree is sound under. -/
theorem exists_sound_of_root {trees : List Tree}
    (hsound : ∀ t ∈ trees, ∃ root, Sound p live root t)
    (howner : ∃ t ∈ trees, t.owner = n) (hroot : (p.spaceAt n).root = some root) :
    ∃ t ∈ trees, t.owner = n ∧ Sound p live root t := by
  obtain ⟨t, ht, rfl⟩ := howner
  obtain ⟨root', hthis⟩ := hsound t ht
  obtain rfl : root' = root := Option.some.inj (hthis.rooted.symm.trans hroot)
  exact ⟨t, ht, rfl, hthis⟩

/-- What holds after some trees have been analysed. -/
structure Analysed (p : Program) (trees : List Tree) : Prop where
  wellFormed : p.ledger.WellFormed
  accounts : p.ledger.Accounts (placedReads trees)
  places : ∀ t ∈ trees, (t.reads.map Read.offset).Nodup
  unlinked : p.ledger.Unlinked
  sound : ∀ t ∈ trees, ∃ root, Sound p Check.always root t
  rooted : ∀ n root, (p.spaceAt n).root = some root →
    root < p.ledger.scopes.size ∧ ∃ t ∈ trees, t.owner = n
  distinct : ∀ n m root, (p.spaceAt n).root = some root → (p.spaceAt m).root = some root → n = m

theorem analysed_nil (hledger : p.ledger = {}) (hroot : ∀ n, (p.spaceAt n).root = none) :
    Analysed p [] where
  wellFormed := by rw [hledger]; exact Ledger.wellFormed_empty
  accounts := by rw [hledger]; exact Ledger.accounts_empty
  places t ht := nomatch ht
  unlinked := by rw [hledger]; exact Ledger.unlinked_empty
  sound t ht := nomatch ht
  rooted n root h := by rw [hroot] at h; cases h
  distinct n m root h := by rw [hroot] at h; cases h

/-! ## One tree -/

def analysis (p : Program) (t : Tree) : List Stmt × Check :=
  let c := p.checkContext t.owner
  Check.checkStmts c p.reference p.ledger.scopes.size t.statements
    (Check.hoist c p.ledger.scopes.size t.statements { ledger := p.ledger.openRoot.2 }).2

def withRoot (p : Program) (n : NamespaceId) (root : ScopeId) (l : Ledger) : Program :=
  Program.modifySpace { p with ledger := l } n fun ns => { ns with root := some root }

/-- A tree that has its scope is not analysed again. -/
theorem check_eq_self {root : ScopeId} (hroot : t.root = some root) :
    check t p = ((t, none), p) := by
  simp only [check, bind, StateT.bind, get, getThe, MonadStateOf.get, StateT.get, pure, hroot,
    Option.isSome_some, if_true]
  rfl

theorem check_eq (hroot : t.root = none) :
    check t p =
      match (p.analysis t).2.mistake with
      | some d =>
          (({ t with statements := (p.analysis t).1 }, some (.source d)),
            { p with ledger := (p.analysis t).2.ledger })
      | none =>
          let tree : Tree :=
            { t with statements := (p.analysis t).1, root := some p.ledger.scopes.size }
          match advance t.owner .analyzed
              (p.withRoot t.owner p.ledger.scopes.size (p.analysis t).2.ledger) with
          | .ok _ p => ((tree, none), p)
          | .error e p => ((tree, some e), p) := by
  simp only [check, bind, StateT.bind, get, getThe, MonadStateOf.get, StateT.get, pure, hroot,
    Option.isSome_none]
  change (match (p.analysis t).2.mistake with
    | some d => _
    | none => _ : StateM Program (Tree × Option Failure)) p = _
  cases (p.analysis t).2.mistake with
  | some d => rfl
  | none =>
      dsimp only
      change (match advance t.owner .analyzed
          (p.withRoot t.owner p.ledger.scopes.size (p.analysis t).2.ledger) with
        | .ok _ p => _
        | .error e p => _ : StateM Program (Tree × Option Failure)) _ = _
      cases advance t.owner .analyzed
        (p.withRoot t.owner p.ledger.scopes.size (p.analysis t).2.ledger) <;> rfl

theorem analysis_spec (hfound : Found p t) (hl : p.ledger.WellFormed)
    (hok : (p.analysis t).2.mistake = none) :
    let c := p.checkContext t.owner
    let l := (p.analysis t).2.ledger
    Entered c p.reference p.ledger.scopes.size p.ledger l (Stmt.mentionsOfAll t.statements)
        (Stmt.mentionsOfAll (p.analysis t).1) ∧
      p.ledger.scopes.size < l.scopes.size ∧
      (l.scope p.ledger.scopes.size).parent = none ∧
      Stmt.BoundAll (c.naming p.reference p.ledger.scopes.size l) Check.always
        (l.visible p.ledger.scopes.size) (p.analysis t).1 ∧
      Stmt.Supported (c.naming p.reference p.ledger.scopes.size l) Check.always []
        (p.analysis t).1 (l.visible p.ledger.scopes.size) ∧
      Check.Hoisted c p.ledger.scopes.size l (Stmt.declaredNames t.statements) := by
  intro c l
  have hfilled := (Ledger.filled_openRoot hl).defineAll le_rfl
    (Check.idsOf c (Stmt.declaredNames t.statements))
  rw [List.nil_append] at hfilled
  set inner := p.ledger.openRoot.2.defineAll p.ledger.scopes.size
    (Check.idsOf c (Stmt.declaredNames t.statements)) with hinner
  have hhoist : (Check.hoist c p.ledger.scopes.size t.statements
      { ledger := p.ledger.openRoot.2 }).2 = { ledger := inner } := by
    rw [Check.hoist_eq]
    rfl
  have hrun : p.analysis t =
      Check.checkStmts c p.reference p.ledger.scopes.size t.statements { ledger := inner } := by
    rw [← hhoist]
    rfl
  have hready : Check.Ready p.ledger.scopes.size p.ledger.scopes.size inner := by
    refine ⟨hfilled.wellFormed, hfilled.lt, ?_⟩
    rw [hfilled.wellFormed.chain_eq]
    exact List.mem_cons_self ..
  have hfresh : ∀ m ∈ Stmt.mentionsOfAll t.statements, m.Fresh p.reference := by
    intro m hm
    exact (hfound.valid m hm).1.fresh (hfound.valid m hm).2
  have hhoisted : Check.Hoisted c p.ledger.scopes.size inner
      (Stmt.declaredNames t.statements) := by
    intro name hname
    exact hfilled.own _ (List.mem_map_of_mem hname)
  have hspec := Check.checkStmts_spec t.statements { ledger := inner } hready hfresh
    hfound.regular hhoisted (by rw [← hrun]; exact hok)
  rw [← hrun] at hspec
  have henters := hspec.entered.enters
  have hopen : p.ledger.Enters t.owner inner [] :=
    Ledger.Enters.of_accounts hfilled.wellFormed hfilled.extend hfilled.accounts hfilled.unlinked
  have hvisible : l.visible p.ledger.scopes.size = inner.frame p.ledger.scopes.size := by
    rw [henters.extend.visible_eq hfilled.wellFormed henters.wellFormed hfilled.lt,
      hfilled.wellFormed.visible_eq, hfilled.parent]
    exact List.append_nil _
  refine ⟨hspec.entered.earlier hopen, hfilled.lt.trans_le henters.extend.scopes_le, ?_, ?_, ?_,
    hhoisted.later hready henters.extend⟩
  · rw [henters.extend.parent _ hfilled.lt]
    exact hfilled.parent
  · rw [henters.extend.visible_eq hfilled.wellFormed henters.wellFormed hfilled.lt]
    exact hspec.bound
  · rw [hvisible]
    exact hspec.supported [] hfilled

/-- The namespace of a tree that is still to be analysed has no root. -/
theorem Analysed.unrooted {trees : List Tree} (h : Analysed p trees)
    (hnew : n ∉ trees.map Tree.owner) : (p.spaceAt n).root = none := by
  rw [Option.eq_none_iff_forall_not_mem]
  intro root hroot
  obtain ⟨-, u, hu, howner⟩ := h.rooted _ _ hroot
  exact hnew (List.mem_map.mpr ⟨u, hu, howner⟩)

theorem root_withRoot (hn : n < p.namespaces.size) (root : ScopeId) (l : Ledger)
    (m : NamespaceId) :
    ((p.withRoot n root l).spaceAt m).root = if n = m then some root else (p.spaceAt m).root := by
  rw [withRoot, spaceAt_modifySpace]
  by_cases hm : n = m
  · rw [if_pos ⟨hm, hm ▸ hn⟩, if_pos hm]
  · rw [if_neg (fun hc => hm hc.1), if_neg hm]
    rfl

theorem keeps_withRoot {l : Ledger} (hl : l.WellFormed) (hext : p.ledger.Extends l)
    (hunrooted : (p.spaceAt n).root = none) (root : ScopeId) :
    p.Keeps (p.withRoot n root l) := by
  refine (keeps_ledger hl hext).trans (keeps_modifySpace hl n _ (fun _ => rfl)
    (fun _ => rfl) (fun _ => rfl) (fun _ => rfl) (fun _ => rfl) ?_)
  intro root' hroot
  have habsurd : none = some root' := hunrooted.symm.trans hroot
  cases habsurd

/-- An analysed tree is sound under its new root. -/
theorem sound_analysis (hfound : Found p t) (hl : p.ledger.WellFormed)
    (hunrooted : (p.spaceAt t.owner).root = none) (hok : (p.analysis t).2.mistake = none) :
    Sound (p.withRoot t.owner p.ledger.scopes.size (p.analysis t).2.ledger) Check.always
      p.ledger.scopes.size
      { t with statements := (p.analysis t).1, root := some p.ledger.scopes.size } := by
  obtain ⟨hentered, hlt, hparent, hbound, hsupported, -⟩ := analysis_spec hfound hl hok
  have hkeeps := keeps_withRoot hentered.enters.wellFormed hentered.enters.extend hunrooted
    p.ledger.scopes.size
  refine ⟨hlt, hparent, ?_, ?_, ?_, ?_⟩
  · rw [root_withRoot hfound.lt]
    exact if_pos rfl
  · refine hbound.mono (hkeeps.id t.owner).symm ?_ fun _ hu => hu
    intro r f hf
    exact hf
  · exact hsupported.mono (hkeeps.id t.owner).symm fun _ hu => hu
  · intro m hm
    have hbare : m.bare ∈ (Stmt.mentionsOfAll t.statements).map Mention.bare := by
      rw [← hentered.bare]
      exact List.mem_map_of_mem hm
    obtain ⟨m', hm', heq⟩ := List.mem_map.mp hbare
    have hvalid := (hfound.valid m' hm').1.mono hkeeps.grows
    exact hvalid.of_bare heq

/-- The reads of an analysed tree stand in places of their own. -/
theorem nodup_reads_analysis (hfound : Found p t) (hl : p.ledger.WellFormed)
    (hok : (p.analysis t).2.mistake = none) :
    (((Stmt.mentionsOfAll (p.analysis t).1).filterMap Mention.read?).map Read.offset).Nodup := by
  obtain ⟨hentered, -⟩ := analysis_spec hfound hl hok
  have hoffsets : (Stmt.mentionsOfAll (p.analysis t).1).filterMap Mention.offset? =
      (Stmt.mentionsOfAll t.statements).filterMap Mention.offset? := by
    rw [← filterMap_offset?_bare, hentered.bare, filterMap_offset?_bare]
  apply (sublist_offset? _).nodup
  rw [hoffsets]
  exact hfound.places

theorem Analysed.withRoot {trees : List Tree} (h : Analysed p trees) (hfound : Found p t)
    (hnew : t.owner ∉ trees.map Tree.owner) (hok : (p.analysis t).2.mistake = none) :
    let p' := p.withRoot t.owner p.ledger.scopes.size (p.analysis t).2.ledger
    p.Keeps p' ∧
      Analysed p' (trees ++ [{ t with
        statements := (p.analysis t).1, root := some p.ledger.scopes.size }]) := by
  intro p'
  obtain ⟨hentered, hlt, -⟩ := analysis_spec hfound h.wellFormed hok
  have henters := hentered.enters
  have hunrooted := h.unrooted hnew
  have hkeeps : p.Keeps p' := keeps_withRoot henters.wellFormed henters.extend hunrooted _
  have hroots : ∀ n, (p'.spaceAt n).root =
      if t.owner = n then some p.ledger.scopes.size else (p.spaceAt n).root :=
    root_withRoot hfound.lt _ _
  have hreads : Tree.reads { t with
      statements := (p.analysis t).1, root := some p.ledger.scopes.size } =
      (Stmt.mentionsOfAll (p.analysis t).1).filterMap Mention.read? :=
    Tree.reads_eq_mentions _
  refine ⟨hkeeps, ?_⟩
  constructor
  · exact henters.wellFormed
  · rw [placedReads_append, placedReads_singleton, hreads]
    exact henters.accounts _ h.accounts
  · intro u hu
    rcases List.mem_append.mp hu with hold | hlast
    · exact h.places u hold
    · rw [List.mem_singleton.mp hlast, hreads]
      exact nodup_reads_analysis hfound h.wellFormed hok
  · exact henters.unlinked h.unlinked
  · intro u hu
    rcases List.mem_append.mp hu with hold | hlast
    · obtain ⟨root, hsound⟩ := h.sound u hold
      exact ⟨root, hsound.keeps h.wellFormed hkeeps⟩
    · rw [List.mem_singleton.mp hlast]
      exact ⟨_, sound_analysis hfound h.wellFormed hunrooted hok⟩
  · intro n root hroot
    rw [hroots] at hroot
    split at hroot
    · next hn =>
        cases hroot
        exact ⟨hlt, _, List.mem_append_right _ (List.mem_singleton.mpr rfl), hn⟩
    · obtain ⟨hroot_lt, u, hu, howner⟩ := h.rooted n root hroot
      exact ⟨hroot_lt.trans_le henters.extend.scopes_le, u, List.mem_append_left _ hu, howner⟩
  · intro n m root hn hm
    rw [hroots] at hn hm
    -- The new root comes after every other one.
    split at hn
    · next hn' =>
        split at hm
        · next hm' => exact hn'.symm.trans hm'
        · cases hn
          exact absurd (h.rooted m _ hm).1 (lt_irrefl _)
    · split at hm
      · cases hm
        exact absurd (h.rooted n _ hn).1 (lt_irrefl _)
      · exact h.distinct n m root hn hm

theorem Analysed.keeps_roots {trees : List Tree} (h : Analysed p trees) (hp : p.Keeps p')
    (hledger : p'.ledger = p.ledger) (hroots : ∀ n, (p'.spaceAt n).root = (p.spaceAt n).root) :
    Analysed p' trees where
  wellFormed := hp.wellFormed
  accounts := by rw [hledger]; exact h.accounts
  places := h.places
  unlinked := by rw [hledger]; exact h.unlinked
  sound t ht := by
    obtain ⟨root, hsound⟩ := h.sound t ht
    exact ⟨root, hsound.keeps h.wellFormed hp⟩
  rooted n root hroot := by
    rw [hroots] at hroot
    rw [hledger]
    exact h.rooted n root hroot
  distinct n m root hn hm := by
    rw [hroots] at hn hm
    exact h.distinct n m root hn hm

theorem check_spec {trees : List Tree} (h : Analysed p trees) (hfound : Found p t)
    (hnew : t.owner ∉ trees.map Tree.owner) (hrun : check t p = ((t', none), p')) :
    p.Keeps p' ∧ t'.owner = t.owner ∧ p'.references = p.references ∧
      Analysed p' (trees ++ [t']) := by
  rw [check_eq hfound.root] at hrun
  cases hmistake : (p.analysis t).2.mistake with
  | some d =>
      rw [hmistake] at hrun
      cases hrun
  | none =>
      rw [hmistake] at hrun
      dsimp only at hrun
      obtain ⟨hkeeps, hanalysed⟩ := h.withRoot hfound hnew hmistake
      split at hrun
      · next u p₁ hadvance =>
          cases hrun
          obtain ⟨hkeeps', hledger, hreferences, hroots⟩ :=
            yields_advance_keeps hkeeps.wellFormed _ _ _ hadvance
          exact ⟨hkeeps.trans hkeeps', rfl, hreferences,
            hanalysed.keeps_roots hkeeps' hledger hroots⟩
      · cases hrun

structure Checking (p : Program) (done rest : List Tree) : Prop where
  analysed : Analysed p done
  found : ∀ t ∈ rest, Found p t
  owners : (done.map Tree.owner ++ rest.map Tree.owner).Nodup

section

variable {done rest : List Tree}

theorem Checking.fresh (h : Checking p done (t :: rest)) : t.owner ∉ done.map Tree.owner := by
  intro hmem
  exact (List.disjoint_of_nodup_append h.owners) hmem (by simp)

theorem Checking.check (h : Checking p done (t :: rest))
    (hrun : Program.check t p = ((t', none), p')) :
    p.Keeps p' ∧ t'.owner = t.owner ∧ p'.references = p.references ∧
      Checking p' (done ++ [t']) rest := by
  obtain ⟨hkeeps, howner, hreferences, hanalysed⟩ :=
    check_spec h.analysed (h.found t List.mem_cons_self) h.fresh hrun
  refine ⟨hkeeps, howner, hreferences, hanalysed, ?_, ?_⟩
  · exact fun u hu => (h.found u (List.mem_cons_of_mem _ hu)).mono hkeeps.grows
  · simpa [howner] using h.owners

end

/-- What the analysis of each tree preserves, about the trees that are analysed and those that
are still to be, the analysis of all trees preserves. -/
theorem yields_checkAll_of {motive : List Tree → List Tree → Program → Prop}
    (hstep : ∀ {done t rest p t' p'}, motive done (t :: rest) p →
      check t p = ((t', none), p') → motive (done ++ [t']) rest p')
    (done trees : List Tree) (h : motive done trees p) :
    Yields (checkAll trees) p fun trees' q => motive (done ++ trees') [] q := by
  induction trees generalizing p done with
  | nil =>
      simp only [checkAll, yields_pure, List.append_nil]
      exact h
  | cons t rest ih =>
      simp only [checkAll, yields_bind, yields_get]
      cases hcheck : check t p with
      | mk result p₁ =>
          obtain ⟨t', failure⟩ := result
          cases failure with
          | some e => simp
          | none =>
              simp only [yields_bind, yields_set, yields_pure]
              refine (ih _ (hstep h hcheck)).mono ?_
              intro trees' q hall
              simpa using hall

theorem yields_checkAll (trees : List Tree) {before : List Tree} (h : Analysed p before)
    (hfound : ∀ t ∈ trees, Found p t)
    (howners : (before.map Tree.owner ++ trees.map Tree.owner).Nodup) :
    Yields (checkAll trees) p fun trees' p' =>
      p.Keeps p' ∧ trees'.map Tree.owner = trees.map Tree.owner ∧
        p'.references = p.references ∧ Analysed p' (before ++ trees') := by
  refine (yields_checkAll_of (motive := fun done rest q =>
    Checking q done rest ∧ p.Keeps q ∧ q.references = p.references ∧
      (done ++ rest).map Tree.owner = (before ++ trees).map Tree.owner) ?_ before trees
    ⟨⟨h, hfound, howners⟩, Keeps.refl h.wellFormed, rfl, rfl⟩).mono ?_
  · rintro done t rest q t' q' ⟨hchecking, hkeeps, hreferences, hmap⟩ hcheck
    obtain ⟨hkeeps', howner, hreferences', hchecking'⟩ := hchecking.check hcheck
    refine ⟨hchecking', hkeeps.trans hkeeps', hreferences'.trans hreferences, ?_⟩
    rw [← hmap]
    simp [howner]
  · rintro trees' q ⟨hchecking, hkeeps, hreferences, hmap⟩
    refine ⟨hkeeps, ?_, hreferences, hchecking.analysed⟩
    simpa using hmap

end Program

end Splice

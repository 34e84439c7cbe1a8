import Splice.Proofs.Build.Lasting
import Splice.Proofs.Build.Lifecycle
import Splice.Proofs.Build.Totality
import Splice.Proofs.Tree.Entries

/-!
# Which entries a linked tree reads

An expression names an entry of an enum by its text: by the name of an enum of its own
namespace, or by a reference to the library or to an import (`Program.namedEntry?`).
Analysis finds the entries of own enums, linking those of other namespaces, and for a tree
that went through both, what was found for an expression is the entry that it names.
-/

namespace Splice.Program

variable {p p' p'' q : Program} {n m : NamespaceId} {r : ReferenceId} {t t' : Tree}
  {trees : List Tree} {x : Expr} {u : EntryUse} {readPattern : PatternReader}

def entryOf? (p : Program) (m : NamespaceId) (enum entry : Text) : Option EntryUse :=
  ((p.spaceAt m).enum? enum).bind fun e =>
    (e.entry? entry).map fun x => ⟨(p.spaceAt m).id, e.name, x.name, x.value⟩

def referredEntry? (p : Program) (n : NamespaceId) (r : ReferenceId) : Option EntryUse :=
  (p.importTarget? n (p.reference r).qualifier).bind fun m =>
    p.entryOf? m (p.reference r).name (p.reference r).member

/-- The entry that an expression of a namespace names. -/
def namedEntry? (p : Program) (n : NamespaceId) : Expr → Option EntryUse
  | .imported _ r _ _ => p.referredEntry? n r
  | .member _ (.name _ _ (.std r _)) _ _ _ => p.referredEntry? n r
  | .member _ (.name _ enum .unbound) entry _ _ => p.entryOf? n enum entry
  | _ => none

def Declares (p : Program) (m : NamespaceId) (u : EntryUse) : Prop :=
  ∃ e ∈ (p.spaceAt m).enums, ∃ entry ∈ e.entries,
    u = ⟨(p.spaceAt m).id, e.name, entry.name, entry.value⟩

theorem declares_of_entryOf? {enum entry : Text} (h : p.entryOf? m enum entry = some u) :
    p.Declares m u := by
  obtain ⟨e, he, hentry⟩ := Option.bind_eq_some_iff.mp h
  obtain ⟨found, hfound, rfl⟩ := Option.map_eq_some_iff.mp hentry
  exact ⟨e, List.mem_of_find?_eq_some he, found, List.mem_of_find?_eq_some hfound, rfl⟩

/-- What is named is declared in the namespace itself or in one that an alias leads to. -/
theorem exists_declares_of_namedEntry? (h : p.namedEntry? n x = some u) :
    ∃ m, (m = n ∨ ∃ qualifier, p.importTarget? n qualifier = some m) ∧ p.Declares m u := by
  have hreferred : ∀ r, p.referredEntry? n r = some u →
      ∃ m, (m = n ∨ ∃ qualifier, p.importTarget? n qualifier = some m) ∧ p.Declares m u := by
    intro r hr
    obtain ⟨m, hm, hentry⟩ := Option.bind_eq_some_iff.mp hr
    exact ⟨m, Or.inr ⟨_, hm⟩, declares_of_entryOf? hentry⟩
  unfold namedEntry? at h
  split at h
  · exact hreferred _ h
  · exact hreferred _ h
  · exact ⟨n, Or.inl rfl, declares_of_entryOf? h⟩
  · cases h

/-- What analysis, linking and dead code removal do to the namespaces and references of a
program: they note how far namespaces have come, their outermost scopes, and what
references denote. -/
structure Proceeds (p p' : Program) : Prop where
  std : p'.std = p.std
  symbols : p'.symbols = p.symbols
  size : p'.namespaces.size = p.namespaces.size
  space : ∀ n, ∃ stage root, p'.spaceAt n = { p.spaceAt n with stage, root }
  reference : ∀ r, ∃ resolution, p'.reference r = { p.reference r with resolution }

theorem Proceeds.refl (p : Program) : p.Proceeds p where
  std := rfl
  symbols := rfl
  size := rfl
  space _ := ⟨_, _, rfl⟩
  reference _ := ⟨_, rfl⟩

theorem Proceeds.trans (h : p.Proceeds p') (h' : p'.Proceeds p'') : p.Proceeds p'' where
  std := h'.std.trans h.std
  symbols := h'.symbols.trans h.symbols
  size := h'.size.trans h.size
  space n := by
    obtain ⟨stage, root, hspace⟩ := h.space n
    obtain ⟨stage', root', hspace'⟩ := h'.space n
    exact ⟨stage', root', by rw [hspace', hspace]⟩
  reference r := by
    obtain ⟨resolution, hr⟩ := h.reference r
    obtain ⟨resolution', hr'⟩ := h'.reference r
    exact ⟨resolution', by rw [hr', hr]⟩

theorem Proceeds.part {α : Type} (h : p.Proceeds p') (part : Namespace → α)
    (hpart : ∀ ns stage root, part { ns with stage, root } = part ns) (n : NamespaceId) :
    part (p'.spaceAt n) = part (p.spaceAt n) := by
  obtain ⟨stage, root, hspace⟩ := h.space n
  rw [hspace, hpart]

theorem Proceeds.id (h : p.Proceeds p') (n : NamespaceId) :
    (p'.spaceAt n).id = (p.spaceAt n).id :=
  h.part Namespace.id (fun _ _ _ => rfl) n

theorem Proceeds.enums (h : p.Proceeds p') (n : NamespaceId) :
    (p'.spaceAt n).enums = (p.spaceAt n).enums :=
  h.part Namespace.enums (fun _ _ _ => rfl) n

theorem Proceeds.importTarget? (h : p.Proceeds p') (n : NamespaceId) (qualifier : Text) :
    p'.importTarget? n qualifier = p.importTarget? n qualifier :=
  importTarget?_congr h.std (h.part Namespace.imports (fun _ _ _ => rfl) n) qualifier

theorem Proceeds.entryOf? (h : p.Proceeds p') (m : NamespaceId) (enum entry : Text) :
    p'.entryOf? m enum entry = p.entryOf? m enum entry := by
  simp only [Program.entryOf?, Namespace.enum?, h.enums, h.id]

theorem Proceeds.referredEntry? (h : p.Proceeds p') (n : NamespaceId) (r : ReferenceId) :
    p'.referredEntry? n r = p.referredEntry? n r := by
  obtain ⟨resolution, hr⟩ := h.reference r
  simp only [Program.referredEntry?, hr, h.importTarget?, h.entryOf?]

theorem Proceeds.namedEntry? (h : p.Proceeds p') (n : NamespaceId) (x : Expr) :
    p'.namedEntry? n x = p.namedEntry? n x := by
  unfold Program.namedEntry?
  split
  · exact h.referredEntry? n _
  · exact h.referredEntry? n _
  · exact h.entryOf? n _ _
  · rfl

theorem Proceeds.apt (h : p.Proceeds p') (hx : x.Apt (p.checkContext n)) :
    x.Apt (p'.checkContext n) :=
  hx.of_enums (h.enums n)

theorem proceeds_modifySpace (p : Program) (n : NamespaceId) {f : Namespace → Namespace}
    (hf : ∀ ns, ∃ stage root, f ns = { ns with stage, root }) : p.Proceeds (p.modifySpace n f) where
  std := rfl
  symbols := rfl
  size := size_modifySpace f
  space m := by
    rw [spaceAt_modifySpace]
    split
    · exact hf _
    · exact ⟨_, _, rfl⟩
  reference _ := ⟨_, rfl⟩

theorem proceeds_withLedger (p : Program) (ledger : Ledger) : p.Proceeds { p with ledger } where
  std := rfl
  symbols := rfl
  size := rfl
  space _ := ⟨_, _, rfl⟩
  reference _ := ⟨_, rfl⟩

theorem SameTargets.proceeds (h : p.SameTargets q) : p.Proceeds q where
  std := h.std
  symbols := h.symbols
  size := h.size
  space n := by
    obtain ⟨stage, hspace⟩ := h.space n
    exact ⟨stage, _, hspace⟩
  reference := h.reference

theorem check_proceeds (h : check t p = ((t', none), p')) : t'.owner = t.owner ∧ p.Proceeds p' := by
  cases hroot : t.root with
  | some root =>
      cases (check_eq_self hroot).symm.trans h
      exact ⟨rfl, Proceeds.refl p⟩
  | none =>
      obtain ⟨-, rfl, rfl⟩ := check_eq_ok hroot h
      have hrooted : p.Proceeds (p.withRoot t.owner p.ledger.scopes.size
          (p.analysis t).2.ledger) :=
        (proceeds_withLedger p _).trans (proceeds_modifySpace _ t.owner fun _ => ⟨_, _, rfl⟩)
      exact ⟨rfl, hrooted.trans (proceeds_modifySpace _ t.owner fun _ => ⟨_, _, rfl⟩)⟩

theorem yields_checkAll_apt (trees : List Tree) (hblank : ∀ t ∈ trees, ∀ x ∈ t.exprs, x.Blank)
    (hshadow : ∀ t ∈ trees, Unshadowed p t.owner (Stmt.mentionsOfAll t.statements)) :
    Yields (checkAll trees) p fun trees' p' =>
      p.Proceeds p' ∧ ∀ t ∈ trees', ∀ x ∈ t.exprs, x.Apt (p'.checkContext t.owner) := by
  refine (yields_checkAll_of (motive := fun done rest q =>
    (∀ t ∈ rest, ∀ x ∈ t.exprs, x.Blank) ∧
      (∀ t ∈ rest, Unshadowed q t.owner (Stmt.mentionsOfAll t.statements)) ∧
        p.Proceeds q ∧ ∀ t ∈ done, ∀ x ∈ t.exprs, x.Apt (q.checkContext t.owner)) ?_ [] trees
    ⟨hblank, hshadow, Proceeds.refl p, List.forall_mem_nil _⟩).mono fun _ _ hall => hall.2.2
  rintro done t rest q t' q' ⟨hblank, hshadow, hbefore, hdone⟩ hcheck
  obtain ⟨howner, hproceeds⟩ := check_proceeds hcheck
  have hannotates := check_annotates t q
  rw [hcheck] at hannotates
  have hfirst : ∀ y ∈ t'.exprs, y.Apt (q.checkContext t.owner) := by
    intro y hy
    obtain ⟨x, hx, hnode⟩ := hannotates.exists_of_mem hy
    refine hnode.apt (hblank t List.mem_cons_self x hx) ?_
    intro o name r record hm
    exact hshadow t List.mem_cons_self o name r record (Tree.mentions_of_mem_exprs hx hm)
  refine ⟨fun u hu => hblank u (List.mem_cons_of_mem _ hu), ?_, hbefore.trans hproceeds, ?_⟩
  · intro u hu
    exact (hshadow u (List.mem_cons_of_mem _ hu)).of_enums (hproceeds.enums u.owner)
  · refine List.forall_mem_append.mpr ⟨?_, List.forall_mem_singleton.mpr ?_⟩
    · exact fun u hu y hy => hproceeds.apt (hdone u hu y hy)
    · intro y hy
      rw [howner]
      exact hproceeds.apt (hfirst y hy)

theorem LinkReady.proceeds (h : LinkReady p trees) (hrun : linkAll trees p = .ok () q) :
    p.Proceeds q :=
  (h.ends.yields () q hrun).1.toSameTargets.proceeds

/-- A linked reference denotes an entry exactly if it names one, and then that one. -/
theorem LinkReady.referredEntry?_eq (h : LinkReady p trees) (hrun : linkAll trees p = .ok () q)
    (ht : t ∈ trees) (hr : r ∈ (p.spaceAt t.owner).references) :
    q.referredEntry? t.owner r = q.coding.entryUse? r := by
  have hanswer := h.resolution_eq hrun ht hr
  rw [← (h.ends.yields () q hrun).1.toSameTargets.resolution?] at hanswer
  obtain ⟨m, root, htarget, hcases⟩ := resolution?_eq_some_iff.mp hanswer
  obtain ⟨himport, -⟩ := of_linkTarget? htarget
  rw [Program.referredEntry?, himport, Option.bind_some, entryOf?]
  rcases hcases with ⟨enum, entry, henum, -, hentry, hresolution⟩ | ⟨henum, u, s, -, -, hresolution⟩
  · rw [henum, Option.bind_some, hentry]
    simp only [Coding.entryUse?, coding, hresolution, Option.map_some]
  · rw [henum]
    simp only [Coding.entryUse?, coding, hresolution, Option.bind_none]

/-- What was found for an expression of a linked tree is the entry that it names. -/
theorem LinkReady.namedEntry?_eq (h : LinkReady p trees) (hrun : linkAll trees p = .ok () q)
    (hemittable : Emittable q trees) (ht : t ∈ trees) (hx : x ∈ t.exprs)
    (hapt : x.Apt (q.checkContext t.owner)) :
    q.namedEntry? t.owner x = x.entryUse? q.coding (q.spaceAt t.owner).id := by
  have hreferred : ∀ mention ∈ x.mentions, ∀ read, mention.foreignRead? = some read →
      q.referredEntry? t.owner read.reference = q.coding.entryUse? read.reference := by
    intro mention hmention read hread
    obtain ⟨f, hattaches⟩ := h.attaches ht (Tree.mentions_of_mem_exprs hx hmention) hread
    exact h.referredEntry?_eq hrun ht hattaches.reference
  cases x with
  | imported o r m record => exact hreferred _ List.mem_cons_self ⟨o, r, record⟩ rfl
  | member o y text s entry =>
      cases entry with
      | some e =>
          obtain ⟨⟨enum, found, henum, hfound, rfl⟩, o', name, rfl⟩ := hapt
          have henum' : (q.spaceAt t.owner).enum? name = some enum := henum
          rw [Program.namedEntry?, entryOf?, henum', Option.bind_some, hfound]
          rfl
      | none =>
          cases y with
          | name o' name read =>
              cases read with
              | own symbol usage => rfl
              | std r record => exact hreferred _ List.mem_cons_self ⟨o', r, record⟩ rfl
              | unbound =>
                  -- An unbound name is only loaded as an enum of which an entry is read.
                  obtain ⟨e, he, hmem⟩ := List.mem_flatMap.mp hx
                  have hsite := (hemittable.loads t ht e he).1 _
                    (Expr.site_of_mem_nodes e none hmem)
                  cases hsite
          | _ => rfl
  | _ => rfl

theorem proceeds_prune (t : Tree) (p : Program) : p.Proceeds (prune t p).2 := by
  rw [prune_eq]
  exact (proceeds_withLedger p _).trans (proceeds_modifySpace _ t.owner fun _ => ⟨_, _, rfl⟩)

theorem proceeds_pruneAll (trees : List Tree) (p : Program) :
    p.Proceeds (pruneAll trees p).2 := by
  induction trees generalizing p with
  | nil => exact Proceeds.refl p
  | cons t rest ih =>
      rw [pruneAll_cons]
      exact (proceeds_prune t p).trans (ih _)

theorem Leaves.trans {t'' : Tree} (h : Leaves t t') (h' : Leaves t' t'') : Leaves t t'' :=
  ⟨h'.1.trans h.1, fun x hx => h.2 x (h'.2 x hx)⟩

theorem Leaves.exprs_subset (h : Leaves t t') : t'.exprs ⊆ t.exprs := by
  intro x hx
  obtain ⟨e, he, hx⟩ := List.mem_flatMap.mp hx
  exact List.mem_flatMap.mpr ⟨e, h.2 e he, hx⟩

theorem afterPasses_leaves (k : Nat) (trees : List Tree) (p : Program) :
    p.Proceeds (afterPasses k (trees, p)).2 ∧ p.Onward (afterPasses k (trees, p)).2 ∧
      ∀ t' ∈ (afterPasses k (trees, p)).1, ∃ t ∈ trees, Leaves t t' := by
  induction k generalizing trees p with
  | zero =>
      exact ⟨Proceeds.refl p, Onward.refl p, fun t ht => ⟨t, ht, rfl, fun _ hx => hx⟩⟩
  | succ k ih =>
      obtain ⟨honward, hleft⟩ := pruneAll_leaves trees p
      obtain ⟨hproceeds, honward', hleft'⟩ := ih (pruneAll trees p).1.1 (pruneAll trees p).2
      refine ⟨(proceeds_pruneAll trees p).trans hproceeds, honward.trans honward', ?_⟩
      intro t'' ht''
      obtain ⟨t', ht', hleaves'⟩ := hleft' t'' ht''
      obtain ⟨t, ht, hleaves⟩ := hleft t' ht'
      exact ⟨t, ht, hleaves.trans hleaves'⟩

theorem pruned_leaves (o : BuildOptions) (trees : List Tree) (p : Program) :
    p.Proceeds (pruned o trees p).2 ∧ p.Onward (pruned o trees p).2 ∧
      ∀ t' ∈ (pruned o trees p).1.1, ∃ t ∈ trees, Leaves t t' := by
  obtain ⟨passes, hpasses⟩ := exists_passes o trees p
  have hafter := afterPasses_leaves passes trees p
  rw [← hpasses] at hafter
  exact hafter

/-! ## Whole programs -/

def Unused (p : Program) : Prop := ∀ n, (p.spaceAt n).usedEntries = []

theorem Unused.of_same (h : p.Unused)
    (hsame : ∀ n, (p'.spaceAt n).usedEntries = (p.spaceAt n).usedEntries) : p'.Unused :=
  fun n => (hsame n).trans (h n)

theorem Unused.modifySpace (h : p.Unused) (n : NamespaceId) {f : Namespace → Namespace}
    (hf : ∀ ns, (f ns).usedEntries = ns.usedEntries) : (p.modifySpace n f).Unused :=
  h.of_same fun m => spaceAt_modifySpace_same p n m f Namespace.usedEntries hf

/-- Discovery notes no entry as used. -/
theorem durable_unused : Durable Unused where
  opens hopens h := by
    cases hopens with
    | register unit =>
        intro n
        rw [spaceAt_register]
        split
        · rfl
        · exact h n
    | space n hf =>
        refine h.modifySpace n fun ns => ?_
        obtain ⟨stage, imports, pending, heq⟩ := hf ns
        rw [heq]
    | std n => exact h
  enactOne n d _ h := by
    cases d with
    | symbol name => exact Unused.modifySpace (by exact h) n fun _ => rfl
    | property name => exact h
    | reference qualifier name member offset =>
        exact Unused.modifySpace (by exact h) n fun _ => rfl
    | import_ qualifier path offset => exact h.modifySpace n fun _ => rfl
    | generatedAlias => exact h
    | enum name offset => exact h.modifySpace n fun _ => rfl
    | entry enum entry => exact h.modifySpace n fun _ => rfl
    | retain name =>
        rw [enactOne, retainProperty_eq]
        exact h
  retarget _ _ h := h

/-- Members of the trees that were found are not known to be entries yet. -/
theorem lasting_blank : Lasting fun _ d => ∀ t ∈ d.trees, ∀ x ∈ t.exprs, x.Blank where
  opens _ _ h := h
  read {p p' d n t} _ _ hparse h := by
    intro u hu
    rcases List.mem_append.mp hu with hu | hu
    · exact h u hu
    · obtain ⟨xs, hplain, hbound⟩ := parse_annotates n p t p' hparse
      rw [List.mem_singleton.mp hu]
      intro y hy
      obtain ⟨x, hx, hnode⟩ := hbound.exists_of_mem hy
      exact hnode.blank (hplain x hx)
  place _ _ h := h

/-- What is known when linked trees are emitted: the entries that their expressions name,
and that nothing has been noted about them. -/
structure KnowsEntries (p : Program) (trees : List Tree) : Prop where
  identified : p.Identified
  unused : p.Unused
  lt : ∀ t ∈ trees, t.owner < p.namespaces.size
  apt : ∀ t ∈ trees, ∀ x ∈ t.exprs, x.Apt (p.checkContext t.owner)
  named : ∀ t ∈ trees, ∀ x ∈ t.exprs,
    p.namedEntry? t.owner x = x.entryUse? p.coding (p.spaceAt t.owner).id
  targets : ∀ t ∈ trees, ∀ qualifier m, p.importTarget? t.owner qualifier = some m →
    m ∈ trees.map Tree.owner

theorem Proceeds.identified (h : p.Proceeds p') (hp : p.Identified) : p'.Identified :=
  hp.of_ids h.size h.id

theorem Proceeds.unused (h : p.Proceeds p') (hp : p.Unused) : p'.Unused :=
  hp.of_same (h.part Namespace.usedEntries fun _ _ _ => rfl)

theorem KnowsEntries.pruned (h : KnowsEntries p trees) (o : BuildOptions) :
    KnowsEntries (pruned o trees p).2 (pruned o trees p).1.1 := by
  obtain ⟨hproceeds, honward, hleft⟩ := pruned_leaves o trees p
  refine ⟨hproceeds.identified h.identified, hproceeds.unused h.unused, ?_, ?_, ?_, ?_⟩
  · intro t' ht'
    obtain ⟨t, ht, howner, -⟩ := hleft t' ht'
    rw [howner, hproceeds.size]
    exact h.lt t ht
  · intro t' ht' x hx
    obtain ⟨t, ht, hleaves⟩ := hleft t' ht'
    rw [hleaves.1]
    exact hproceeds.apt (h.apt t ht x (hleaves.exprs_subset hx))
  · intro t' ht' x hx
    obtain ⟨t, ht, hleaves⟩ := hleft t' ht'
    rw [hleaves.1, hproceeds.namedEntry?, honward.coding, hproceeds.id]
    exact h.named t ht x (hleaves.exprs_subset hx)
  · intro t' ht' qualifier m hm
    obtain ⟨t, ht, howner, -⟩ := hleft t' ht'
    rw [howner, hproceeds.importTarget?] at hm
    rw [map_owner_pruned]
    exact h.targets t ht qualifier m hm

structure LinkRun (loader : Loader) (o : BuildOptions) (entry : Text) (p₀ : Program)
    (d : Discovery) (p₁ p₂ p₃ p₄ : Program) (symbols : List MangleEntry) (trees : List Tree)
    (p : Program) : Prop where
  discover : discover loader false o.stdPath entry p₀ = .ok d p₁
  assign : assignEnumValues p₁ = .ok () p₂
  mangle : mangleIfAsked o d.order p₂ = .ok symbols p₃
  check : checkAll d.orderedTrees p₃ = .ok trees p₄
  link : linkAll trees p₄ = .ok () p

theorem yields_visit_cancelled (loader : Loader) (fuel : Nat) :
    Yields (visit loader true fuel n {}) p fun _ _ => False := by
  cases fuel with
  | zero => simp [visit]
  | succ fuel => simp [visit, Discovery.isSeen]

/-- A build that was given up finds no files. -/
theorem not_cancelled_of_discover {loader : Loader} {cancelled : Bool} {stdPath entry : Text}
    {d : Discovery} (h : discover loader cancelled stdPath entry p = .ok d p') :
    cancelled = false := by
  cases cancelled with
  | false => rfl
  | true =>
      obtain ⟨std, p₁, -, hrest⟩ := exists_of_bind_eq_ok h
      obtain ⟨_, p₂, -, hrest⟩ := exists_of_bind_eq_ok hrest
      obtain ⟨d₁, p₃, hvisit, -⟩ := exists_of_bind_eq_ok hrest
      exact (yields_visit_cancelled loader _ d₁ p₃ hvisit).elim

theorem exists_linkRun {loader : Loader} {cancelled : Bool} {o : BuildOptions} {entry : Text}
    {symbols : List MangleEntry}
    (h : linkPhases loader cancelled o entry p = .ok (symbols, trees) q) :
    cancelled = false ∧
      ∃ d p₁ p₂ p₃ p₄, LinkRun loader o entry p d p₁ p₂ p₃ p₄ symbols trees q := by
  obtain ⟨d, p₂, hfind, hrest⟩ := exists_of_bind_eq_ok h
  obtain ⟨p₁, hdiscover, hassign⟩ := exists_of_findPhases hfind
  obtain ⟨symbols', p₃, hmangle, hrest⟩ := exists_of_bind_eq_ok hrest
  obtain ⟨trees', q', hanalyse, hdone⟩ := exists_of_bind_eq_ok hrest
  cases hdone
  obtain ⟨trees', p₄, hcheck, hrest⟩ := exists_of_bind_eq_ok hanalyse
  obtain ⟨_, q', hlink, hdone⟩ := exists_of_bind_eq_ok hrest
  cases hdone
  have hcancelled := not_cancelled_of_discover hdiscover
  subst hcancelled
  exact ⟨rfl, d, p₁, p₂, p₃, p₄, hdiscover, hassign, hmangle,
    yields_mapFailure (yields_self _) _ _ hcheck, yields_mapFailure (yields_self _) _ _ hlink⟩

/-- A build that succeeds up to linking knows the entries that its trees read. -/
theorem knowsEntries_of_linkPhases {loader : Loader} {workingDir : Text} {cancelled : Bool}
    {o : BuildOptions} {entry : Text} {p₀ : Program} {symbols : List MangleEntry}
    (hcreate : create workingDir o.retain readPattern = .ok p₀)
    (h : linkPhases loader cancelled o entry p₀ = .ok (symbols, trees) q) :
    KnowsEntries q trees := by
  obtain ⟨rfl, d, p₁, p₂, p₃, p₄, hrun⟩ := exists_linkRun h
  obtain ⟨hpristine, huntargeted⟩ := pristine_create hcreate
  have hcontent := content_create hcreate
  have hunused : p₁.Unused := durable_unused.lasting.discover _ false o.stdPath entry hpristine
    huntargeted hcontent (fun n => by rw [spaceAt_of_size_le (by rw [size_create hcreate]; omega)])
    d p₁ hrun.discover
  have hblank : ∀ t ∈ d.trees, ∀ x ∈ t.exprs, x.Blank := lasting_blank.discover _ false o.stdPath
    entry hpristine huntargeted hcontent (fun t ht => nomatch ht) d p₁ hrun.discover
  obtain ⟨hsurveys, hfound⟩ := surveys_of_discover hcreate hrun.discover
  have hidentified := hsurveys.history.identified (identified_create hcreate)
  -- Giving values and numbers changes the enums and the symbols only.
  have hsame := yields_assignEnumValues () p₂ hrun.assign
  have hused := yields_assignEnumValues_part Namespace.usedEntries (fun _ _ _ => rfl) () p₂
    hrun.assign
  have hnames := yields_assignEnumValues_names () p₂ hrun.assign
  obtain ⟨⟨table, rfl⟩, -⟩ :=
    yields_mangleIfAsked (hfound.sameNames hsame) o symbols p₃ hrun.mangle
  have hidentified₃ : (p₂.withSymbols table).Identified := hidentified.of_ids hsame.size hsame.id
  have hunused₃ : (p₂.withSymbols table).Unused := hunused.of_same hused
  have hmem : ∀ t ∈ d.orderedTrees, t ∈ d.trees := by
    intro t ht
    obtain ⟨n, -, hn⟩ := List.mem_filterMap.mp ht
    exact List.mem_of_find?_eq_some hn
  have hshadow : ∀ t ∈ d.orderedTrees,
      Unshadowed (p₂.withSymbols table) t.owner (Stmt.mentionsOfAll t.statements) := by
    intro t ht o text r record hm
    have hnone := hsurveys.ordered.unshadowed t (hmem t ht) o text r record hm
    rw [enum?_eq_none_iff] at hnone ⊢
    exact (hnames t.owner).symm ▸ hnone
  obtain ⟨hchecks, hapt⟩ := yields_checkAll_apt d.orderedTrees
    (fun t ht => hblank t (hmem t ht)) hshadow trees p₄ hrun.check
  have hready := linkReady_of_checkAll hcreate hrun.discover hrun.assign hrun.mangle hrun.check
  have hlinks := hready.proceeds hrun.link
  have hemittable : Emittable q trees := emittable_of_linkPhases hcreate h
  refine ⟨?_, ?_, ?_, ?_, ?_, ?_⟩
  · exact hlinks.identified (hchecks.identified hidentified₃)
  · exact hlinks.unused (hchecks.unused hunused₃)
  · intro t ht
    obtain ⟨root, hprepared⟩ := hready.prepared t ht
    by_contra hle
    have hroot := hprepared.rooted
    rw [spaceAt_of_size_le (Nat.le_of_not_lt (hlinks.size ▸ hle))] at hroot
    cases hroot
  · exact fun t ht x hx => hlinks.apt (hapt t ht x hx)
  · intro t ht x hx
    exact hready.namedEntry?_eq hrun.link hemittable ht hx (hlinks.apt (hapt t ht x hx))
  · intro t ht qualifier m hm
    rw [hlinks.importTarget?] at hm
    obtain ⟨u, hu, rfl⟩ := hready.targets t ht qualifier m hm
    exact List.mem_map_of_mem hu

end Splice.Program

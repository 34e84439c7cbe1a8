import Splice.Proofs.Build.Diagnosis
import Splice.Proofs.Build.Emission
import Splice.Proofs.Build.Settling
import Splice.Proofs.Tree.Loading

/-!
# Linked trees have code

After linking every name of every tree can be loaded: the analysis gave names of the own
namespace their records, and linking settled the references.  A name of the standard
library denotes an entry of an enum only if its reference asks for a member, and then that
member is accessed on it.  Dead code removal and the emission of other trees change none of
this, so the emission of linked trees cannot fail.
-/

namespace Splice.Program

variable {p p' p'' q : Program} {n : NamespaceId} {t : Tree} {trees : List Tree}

/-- Trees that can be emitted: all names can be loaded, and no namespace is past emission. -/
structure Emittable (p : Program) (trees : List Tree) : Prop where
  loads : ∀ t ∈ trees, ∀ x ∈ Stmt.valuesOfAll t.statements, x.Loads p.coding
  stage : ∀ t ∈ trees, (p.spaceAt t.owner).stage.rank ≤ Stage.emitted.rank

/-- Steps after linking: code depends on what it depended on, and no namespace goes past
emission. -/
structure Onward (p p' : Program) : Prop where
  coding : p'.coding = p.coding
  stage : ∀ m, (p.spaceAt m).stage.rank ≤ Stage.emitted.rank →
    (p'.spaceAt m).stage.rank ≤ Stage.emitted.rank

theorem Onward.refl (p : Program) : p.Onward p := ⟨rfl, fun _ h => h⟩

theorem Onward.trans (h : p.Onward p') (h' : p'.Onward p'') : p.Onward p'' :=
  ⟨h'.coding.trans h.coding, fun m hm => h'.stage m (h.stage m hm)⟩

theorem Marks.onward (h : p.Marks p') : p.Onward p' :=
  ⟨h.coding, fun m hm => (h.stage m).symm ▸ hm⟩

theorem onward_advanced (p : Program) (n : NamespaceId) {stage : Stage}
    (h : stage.rank ≤ Stage.emitted.rank) :
    p.Onward (p.modifySpace n fun ns => { ns with stage }) := by
  refine ⟨rfl, ?_⟩
  intro m hm
  rw [spaceAt_modifySpace]
  split
  · exact h
  · exact hm

theorem Emittable.onward (h : Emittable p trees) (hp : p.Onward p') : Emittable p' trees where
  loads t ht x hx := by
    rw [hp.coding]
    exact h.loads t ht x hx
  stage t ht := hp.stage t.owner (h.stage t ht)

/-- What is left of a tree: it belongs to the same namespace and evaluates nothing new. -/
def Leaves (t t' : Tree) : Prop :=
  t'.owner = t.owner ∧
    ∀ x ∈ Stmt.valuesOfAll t'.statements, x ∈ Stmt.valuesOfAll t.statements

theorem Emittable.leaves {trees' : List Tree} (h : Emittable p trees)
    (hleft : ∀ t' ∈ trees', ∃ t ∈ trees, Leaves t t') : Emittable p trees' where
  loads t' ht' x hx := by
    obtain ⟨t, ht, -, hvalues⟩ := hleft t' ht'
    exact h.loads t ht x (hvalues x hx)
  stage t' ht' := by
    obtain ⟨t, ht, howner, -⟩ := hleft t' ht'
    rw [howner]
    exact h.stage t ht

theorem leaves_prune (t : Tree) (p : Program) : Leaves t (prune t p).1.1 := by
  rw [prune_tree]
  exact ⟨rfl, fun x hx => (pruning_pass p t).mem_values hx⟩

theorem onward_prune (t : Tree) (p : Program) : p.Onward (prune t p).2 := by
  rw [prune_eq]
  refine ⟨rfl, ?_⟩
  intro m hm
  dsimp only
  rw [advanceIfBefore, spaceAt_modifySpace]
  split
  · split
    · exact hm
    · exact (by decide : Stage.pruned.rank ≤ Stage.emitted.rank)
  · exact hm

theorem pruneAll_leaves (trees : List Tree) (p : Program) :
    p.Onward (pruneAll trees p).2 ∧ ∀ t' ∈ (pruneAll trees p).1.1, ∃ t ∈ trees, Leaves t t' := by
  induction trees generalizing p with
  | nil => exact ⟨Onward.refl p, fun t' ht' => nomatch ht'⟩
  | cons t rest ih =>
      rw [pruneAll_cons]
      obtain ⟨honward, hleft⟩ := ih (prune t p).2
      refine ⟨(onward_prune t p).trans honward, ?_⟩
      intro t' ht'
      rcases List.mem_cons.mp ht' with rfl | hrest
      · exact ⟨t, List.mem_cons_self, leaves_prune t p⟩
      · obtain ⟨u, hu, hleaves⟩ := hleft t' hrest
        exact ⟨u, List.mem_cons_of_mem _ hu, hleaves⟩

theorem Emittable.afterPasses (h : Emittable p trees) (k : Nat) :
    Emittable (afterPasses k (trees, p)).2 (afterPasses k (trees, p)).1 := by
  induction k generalizing p trees with
  | zero => exact h
  | succ k ih =>
      obtain ⟨honward, hleft⟩ := pruneAll_leaves trees p
      exact ih ((h.leaves hleft).onward honward)

theorem Emittable.pruned (h : Emittable p trees) (o : BuildOptions) :
    Emittable (pruned o trees p).2 (pruned o trees p).1.1 := by
  obtain ⟨passes, hpasses⟩ := exists_passes o trees p
  have hafter := h.afterPasses passes
  rw [← hpasses] at hafter
  exact hafter

theorem generates_tree (h : ∀ x ∈ Stmt.valuesOfAll t.statements, x.Loads p.coding)
    (hstage : (p.spaceAt t.owner).stage.rank ≤ Stage.emitted.rank) :
    Ends (generateTree t) p (fun _ => False) fun _ p' => p.Onward p' := by
  simp only [generateTree, ends_bind, ends_pure]
  refine (generates_stmts t.statements h).mono ?_
  intro is p₁ hmarks
  have hrank : (p₁.spaceAt t.owner).stage.rank ≤ Stage.emitted.rank := by
    rw [hmarks.stage]
    exact hstage
  refine (ends_advance hrank).mono ?_
  rintro _ p₂ rfl
  exact hmarks.onward.trans (onward_advanced p₁ t.owner le_rfl)

theorem ends_emitAll (trees : List Tree) (h : Emittable p trees) :
    Ends (emitAll trees) p (fun _ => False) fun _ _ => True := by
  induction trees generalizing p with
  | nil => trivial
  | cons t rest ih =>
      simp only [emitAll, ends_bind, ends_get, ends_mapFailure, ends_pure]
      refine (generates_tree (h.loads t List.mem_cons_self) (h.stage t List.mem_cons_self)).mono ?_
      intro is p₁ honward
      refine (ih ?_).mono fun _ _ _ => trivial
      have hrest := h.onward honward
      exact ⟨fun u hu => hrest.loads u (List.mem_cons_of_mem _ hu),
        fun u hu => hrest.stage u (List.mem_cons_of_mem _ hu)⟩

/-- The phases after linking succeed, whatever is asked for. -/
theorem Emittable.emitPhases (h : Emittable p trees) (o : BuildOptions)
    (symbols : List MangleEntry) : ∃ r p', emitPhases o symbols trees p = .ok r p' := by
  have hends : Ends (Program.emitPhases o symbols trees) p (fun _ => False) fun _ _ => True := by
    simp only [Program.emitPhases, ends_bind]
    rw [Ends, pruneIfAsked_eq]
    simp only [ends_get, Linking.phase, ends_mapFailure, ends_pure]
    exact ends_emitAll _ (h.pruned o)
  exact hends.succeeds fun _ he => he

/-- What a foreign read of a linked tree denotes: not nothing, and an entry only if a
member was asked for. -/
theorem LinkReady.resolved (h : LinkReady p trees) (hrun : linkAll trees p = .ok () q)
    (ht : t ∈ trees) {mention : Mention} (hmention : mention ∈ Stmt.mentionsOfAll t.statements)
    {x : ForeignRead} (hx : mention.foreignRead? = some x) :
    (q.reference x.reference).resolution ≠ .unresolved ∧
      ((p.reference x.reference).member = [] →
        ∃ s, (q.reference x.reference).resolution = .value s) := by
  obtain ⟨f, hattaches⟩ := h.attaches ht hmention hx
  have hanswer := h.resolution_eq hrun ht hattaches.reference
  obtain ⟨m, root, -, ⟨enum, entry, -, hmember, -, hentry⟩ | ⟨-, u, s, -, -, hvalue⟩⟩ :=
    resolution?_eq_some_iff.mp hanswer
  · rw [hentry]
    exact ⟨nofun, fun hnone => absurd hnone hmember⟩
  · rw [hvalue]
    exact ⟨nofun, fun _ => ⟨s, rfl⟩⟩

theorem LinkReady.emittable (h : LinkReady p trees) (hchecked : ∀ t ∈ trees, CheckedTree p t)
    (hrun : linkAll trees p = .ok () q) : Emittable q trees where
  loads t ht x hx := by
    have hmentions := Stmt.mentions_of_mem_valuesOfAll t.statements hx
    constructor
    · intro site hsite
      obtain ⟨root, hsites⟩ := hchecked t ht
      obtain ⟨e, he, rfl⟩ := Stmt.site_of_mem_valuesOfAll t.statements (root + 1)
        [⟨Stmt.declaredNames t.statements, root⟩] hx hsite
      have hsound := hsites e he
      cases hread : e.2 with
      | store o name usage => trivial
      | read o name access read =>
          rw [hread] at hsound hsite
          cases read with
          | own s usage => exact hsound
          | unbound => exact hsound
          | std r record =>
              have hmention := hmentions (Expr.mention_of_site x none hsite)
              obtain ⟨hclosed, hvalue⟩ := h.resolved hrun ht hmention rfl
              refine ⟨hclosed, ?_⟩
              rintro rfl
              exact hvalue hsound
    · intro o r record hmention
      exact (h.resolved hrun ht (hmentions hmention) rfl).1
  stage t ht := by
    rw [(h.ends.yields () q hrun).2 t ht]
    decide

end Splice.Program

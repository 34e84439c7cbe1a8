import Splice.Proofs.Build.Exactness
import Splice.Proofs.Build.Survey

/-!
# Analysis and linking fail only because of sources

The analysis of a bound tree goes through its sites and stops at the first one that is a
mistake, so what it reports is about that site.  If there is none, every site has what code
is generated from (`Site.Checked`).  Linking finds every namespace that a reference or a
record leads to, and it finds it analysed; what it may miss there is a name.
-/

namespace Splice

/-- What is known of a site after an analysis without a mistake: a name of the own
namespace has its record, an enum is read for the sake of an entry, and a name of the
standard library is asked for together with the member that is accessed on it. -/
def Site.Checked (p : Program) : Site → Prop
  | read _ _ _ (.own _ usage) => usage.isSome = true
  | read _ _ access (.std r _) => (p.reference r).member = access.elim [] Access.member
  | read _ _ access .unbound => (access.bind Access.entry).isSome = true
  | store _ _ _ => True

section

variable {p : Program} {n : NamespaceId} {c : CheckContext} {l : Ledger} {s : ScopeId}
  {around : List Block} {site site' : Site} {sites sites' : List (List Block × Site)}
  {start mistake : Option Diagnostic}

theorem Site.Attaches.checked (h : Site.Attaches c l s around site site')
    (hbound : site.Bound p n around) : site'.Checked p := by
  cases h with
  | own hrecord => rfl
  | std habsent hfiled => exact hbound.2.2.2.2.2
  | entry habsent henum hentry => rfl
  | store hrecord => trivial

theorem Site.Trace.checked (h : Site.Trace c l start sites sites' mistake) (hstart : start = none)
    (hmistake : mistake = none) (hbound : ∀ e ∈ sites, e.2.Bound p n e.1) :
    ∀ e ∈ sites', e.2.Checked p := by
  induction h with
  | done => exact fun e he => nomatch he
  | stopped => cases hstart
  | step _ hsite _ ih =>
      intro e he
      rcases List.mem_cons.mp he with rfl | hrest
      · exact hsite.checked (hbound _ List.mem_cons_self)
      · exact ih rfl hmistake (fun e he => hbound e (List.mem_cons_of_mem _ he)) e hrest
  | failed => cases hmistake

theorem Site.Trace.exists_fails {d : Diagnostic}
    (h : Site.Trace c l start sites sites' mistake) (hstart : start = none)
    (hmistake : mistake = some d) : ∃ e ∈ sites, e.2.Fails c e.1 d := by
  induction h with
  | done =>
      rw [hstart] at hmistake
      cases hmistake
  | stopped => cases hstart
  | step _ _ _ ih =>
      obtain ⟨e, he, hfails⟩ := ih rfl hmistake
      exact ⟨e, List.mem_cons_of_mem _ he, hfails⟩
  | failed hsite =>
      cases hmistake
      exact ⟨_, List.mem_cons_self, hsite⟩

end

namespace Program

variable {p p' q : Program} {n m : NamespaceId} {t : Tree} {trees : List Tree}

/-- What references ask for and where they lead is the same in two programs. -/
structure SameLeads (p p' : Program) : Prop where
  references : p'.references = p.references
  std : p'.std = p.std
  spaceReferences : ∀ m, (p'.spaceAt m).references = (p.spaceAt m).references
  imports : ∀ m, (p'.spaceAt m).imports = (p.spaceAt m).imports

theorem SameLeads.trans (h : SameLeads p p') (h' : SameLeads p' q) : SameLeads p q where
  references := h'.references.trans h.references
  std := h'.std.trans h.std
  spaceReferences m := (h'.spaceReferences m).trans (h.spaceReferences m)
  imports m := (h'.imports m).trans (h.imports m)

theorem SameLeads.led (h : SameLeads p p') (hled : p.Led n) : p'.Led n := by
  intro r hr
  rw [h.spaceReferences] at hr
  rw [reference, h.references, importTarget?_congr h.std (h.imports n)]
  exact hled r hr

theorem SameLeads.retains (h : SameLeads p p') (henums : SameEnumNames n p p') :
    Retains n p p' where
  enums := henums
  references_le := by rw [h.references]
  named r _ := by
    rw [reference, h.references]
    exact ⟨rfl, rfl, rfl⟩

/-- A tree that was analysed without a mistake. -/
def CheckedTree (p : Program) (t : Tree) : Prop := ∃ root, ∀ e ∈ t.sites root, e.2.Checked p

theorem CheckedTree.of_references (h : CheckedTree p t)
    (hreferences : p'.references = p.references) : CheckedTree p' t := by
  obtain ⟨root, hsites⟩ := h
  refine ⟨root, ?_⟩
  intro e he
  have hchecked := hsites e he
  cases hsite : e.2 with
  | store o name usage => trivial
  | read o name access read =>
      rw [hsite] at hchecked
      cases read with
      | unbound => exact hchecked
      | own s usage => exact hchecked
      | std r record =>
          change (p'.reference r).member = _
          rw [reference, hreferences]
          exact hchecked

theorem analysis_sites (p : Program) (t : Tree) (root : ScopeId) :
    Tree.sites root { t with statements := (p.analysis t).1, root := some root } =
      Stmt.sitesOfAll (root + 1) [⟨Stmt.declaredNames t.statements, root⟩] (p.analysis t).1 := by
  rw [Tree.sites, analysis_eq]
  dsimp only
  rw [Check.declaredNames_checkStmts]

/-- The analysis of a bound tree finds a mistake at one of its sites, or leaves the tree
checked and the program in order for the analysis of other trees. -/
theorem check_cases (ht : BoundTree p t) (hl : p.ledger.WellFormed)
    (hstage : ∀ m, (p.spaceAt m).stage.rank ≤ Stage.analyzed.rank) :
    (∃ t' d p', check t p = ((t', some (.source d)), p') ∧ d.Reported) ∨
      ∃ t' p', check t p = ((t', none), p') ∧ t'.owner = t.owner ∧ CheckedTree p' t' ∧
        p'.ledger.WellFormed ∧ SameLeads p p' ∧
        (∀ m, (p'.spaceAt m).enums = (p.spaceAt m).enums) ∧
        ∀ m, (p'.spaceAt m).stage.rank ≤ Stage.analyzed.rank := by
  have hwellFormed := (analysis_goes ht hl fun _ => rfl).wellFormed
  have htrace := analysis_trace ht hl fun _ => rfl
  rw [check_eq ht.root]
  cases hmistake : (p.analysis t).2.mistake with
  | some d =>
      obtain ⟨e, -, hfails⟩ := htrace.exists_fails rfl hmistake
      exact Or.inl ⟨_, d, _, rfl, .analysis hfails⟩
  | none =>
      right
      have hchecked := htrace.checked rfl hmistake (ht.bound _)
      have hrooted : ∀ m, ((p.withRoot t.owner p.ledger.scopes.size
          (p.analysis t).2.ledger).spaceAt m).stage = (p.spaceAt m).stage := by
        intro m
        exact spaceAt_modifySpace_same _ t.owner m _ Namespace.stage fun _ => rfl
      have hrank := hstage t.owner
      rw [← hrooted] at hrank
      dsimp only
      rw [advance_eq hrank]
      have hpart : ∀ {α : Type} (part : Namespace → α),
          (∀ ns root stage, part { ns with root, stage } = part ns) → ∀ m,
            part (((p.withRoot t.owner p.ledger.scopes.size
              (p.analysis t).2.ledger).modifySpace t.owner fun ns =>
                { ns with stage := .analyzed }).spaceAt m) = part (p.spaceAt m) := by
        intro α part hpart m
        refine (spaceAt_modifySpace_same _ t.owner m _ part ?_).trans
          (spaceAt_modifySpace_same _ t.owner m _ part ?_)
        · exact fun ns => hpart ns ns.root _
        · exact fun ns => hpart ns _ ns.stage
      refine ⟨_, _, rfl, rfl, ⟨p.ledger.scopes.size, ?_⟩, hwellFormed, ⟨rfl, rfl, ?_, ?_⟩, ?_, ?_⟩
      · rw [analysis_sites]
        exact hchecked
      · exact hpart Namespace.references fun _ _ _ => rfl
      · exact hpart Namespace.imports fun _ _ _ => rfl
      · exact hpart Namespace.enums fun _ _ _ => rfl
      · intro m
        rw [spaceAt_modifySpace]
        split
        · exact le_rfl
        · rw [hrooted]
          exact hstage m

/-- Analysing bound trees ends with all of them checked, or with a mistake in one. -/
theorem ends_checkAll (trees : List Tree) (hbound : ∀ t ∈ trees, BoundTree p t)
    (hl : p.ledger.WellFormed) (hstage : ∀ m, (p.spaceAt m).stage.rank ≤ Stage.analyzed.rank) :
    Ends (checkAll trees) p Failure.Anticipated fun trees' p' =>
      SameLeads p p' ∧ trees'.map Tree.owner = trees.map Tree.owner ∧
        ∀ t ∈ trees', CheckedTree p' t := by
  induction trees generalizing p with
  | nil => exact ⟨⟨rfl, rfl, fun _ => rfl, fun _ => rfl⟩, rfl, fun t ht => nomatch ht⟩
  | cons t rest ih =>
      simp only [checkAll, ends_bind, ends_get]
      obtain ⟨t', d, p₁, hcheck, hreported⟩ |
          ⟨t', p₁, hcheck, howner, hchecked, hl₁, hleads, henums, hstage₁⟩ :=
        check_cases (hbound t List.mem_cons_self) hl hstage
      · simp only [hcheck, ends_bind, ends_set, ends_throw]
        exact hreported
      · simp only [hcheck, ends_bind, ends_set]
        have hbound₁ : ∀ u ∈ rest, BoundTree p₁ u := by
          intro u hu
          exact (hbound u (List.mem_cons_of_mem _ hu)).retains
            (hleads.retains (.of_enums (henums u.owner)))
        refine (ih hbound₁ hl₁ hstage₁).mono ?_
        rintro trees' p₂ ⟨hleads₂, howners, hrest⟩
        refine ⟨hleads.trans hleads₂, ?_, ?_⟩
        · rw [List.map_cons, List.map_cons, howner, howners]
        · intro u hu
          rcases List.mem_cons.mp hu with rfl | hu
          · exact hchecked.of_references hleads₂.references
          · exact hrest u hu

theorem Unlinked.anticipated {e : Failure} (h : Unlinked e) : e.Anticipated := by
  cases h with
  | enumValue unit r => exact .linking unit r
  | reference p n target r what => rfl
  | record what owner => rfl

/-- What references lead to was analysed. -/
theorem LinkReady.directed (h : LinkReady p trees) (ht : t ∈ trees) (hled : p.Led t.owner) :
    p.Directed t.owner := by
  have hreferences : ∀ r ∈ (p.spaceAt t.owner).references,
      (p.linkTarget? t.owner (p.reference r).qualifier).isSome = true := by
    intro r hr
    obtain ⟨m, hm⟩ := Option.isSome_iff_exists.mp (hled r hr)
    obtain ⟨root, htarget⟩ := h.linkTarget? ht hm
    rw [htarget]
    rfl
  refine ⟨hreferences, ?_⟩
  intro f hf
  obtain ⟨x, hattaches⟩ := h.exists_attaches ht hf
  rw [hattaches.qualifier]
  exact hreferences x.reference hattaches.reference

/-- Linking analysed trees whose references lead somewhere. -/
theorem LinkReady.ends_anticipated (h : LinkReady p trees) (hled : ∀ t ∈ trees, p.Led t.owner) :
    Ends (linkAll trees) p Failure.Anticipated fun _ q =>
      p.Follows q ∧ ∀ t ∈ trees, (q.spaceAt t.owner).stage = .crossLinked :=
  h.ends.expecting fun _ he => (he.2 fun t ht => h.directed ht (hled t ht)).anticipated

end Program

end Splice

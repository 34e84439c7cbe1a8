import Splice.Proofs.Build.Analysis

/-!
# Trees ready to be linked

The analysis of a tree leaves three things for linking to rely on.  Every read of a
foreign name is attached to a record of its own namespace.  Every name that is declared
at the top level has a binding in the outermost scope.  And the namespace has come just
as far as the analysis.  The analyses of the other trees do not change this.
-/

namespace Splice

namespace Program

variable {p p' : Program} {t t' : Tree} {root : ScopeId} {trees : List Tree}

/-- A tree that can be linked, with its outermost scope. -/
structure Prepared (p : Program) (root : ScopeId) (t : Tree) : Prop where
  rooted : (p.spaceAt t.owner).root = some root
  lt : root < p.ledger.scopes.size
  stage : (p.spaceAt t.owner).stage = .analyzed
  attached : ∀ m ∈ Stmt.mentionsOfAll t.statements, m.Attached (p.naming t.owner root)
  exported : ∀ name ∈ Stmt.declaredNames t.statements,
    (p.ledger.own? root (Symbol.idOf (p.spaceAt t.owner).id name)).isSome = true

theorem Prepared.keeps (h : Prepared p root t) (hl : p.ledger.WellFormed) (hp : p.Keeps p')
    (hstage : (p'.spaceAt t.owner).stage = (p.spaceAt t.owner).stage) :
    Prepared p' root t where
  rooted := hp.root _ _ h.rooted
  lt := h.lt.trans_le hp.extend.scopes_le
  stage := hstage.trans h.stage
  attached m hm := (h.attached m hm).mono fun _ _ => hp.naming_foreign hl
  exported name hname := by
    rw [hp.extend.own?_eq hl h.lt, hp.id]
    exact h.exported name hname

/-- What a successful analysis of a tree comes to. -/
theorem check_eq_ok (hroot : t.root = none) (hrun : check t p = ((t', none), p')) :
    (p.analysis t).2.mistake = none ∧
      t' = { t with statements := (p.analysis t).1, root := some p.ledger.scopes.size } ∧
      p' = (p.withRoot t.owner p.ledger.scopes.size (p.analysis t).2.ledger).modifySpace t.owner
        fun ns => { ns with stage := .analyzed } := by
  rw [check_eq hroot] at hrun
  cases hmistake : (p.analysis t).2.mistake with
  | some d =>
      rw [hmistake] at hrun
      cases hrun
  | none =>
      rw [hmistake] at hrun
      dsimp only at hrun
      split at hrun
      · next u q hadvance =>
          cases hrun
          refine ⟨rfl, rfl, ?_⟩
          unfold advance at hadvance
          rw [get_bind_eq] at hadvance
          split at hadvance
          · cases hadvance
          · cases hadvance
            rfl
      · cases hrun

theorem spaceAt_check (hfound : Found p t) (hrun : check t p = ((t', none), p')) :
    p'.spaceAt t.owner =
      { p.spaceAt t.owner with root := some p.ledger.scopes.size, stage := .analyzed } := by
  obtain ⟨-, -, rfl⟩ := check_eq_ok hfound.root hrun
  rw [spaceAt_modifySpace, withRoot, spaceAt_modifySpace]
  rw [if_pos ⟨rfl, by rw [size_modifySpace]; exact hfound.lt⟩, if_pos ⟨rfl, hfound.lt⟩]
  rfl

theorem stage_check (hroot : t.root = none) (hrun : check t p = ((t', none), p'))
    {m : NamespaceId} (hm : m ≠ t.owner) : (p'.spaceAt m).stage = (p.spaceAt m).stage := by
  obtain ⟨-, -, rfl⟩ := check_eq_ok hroot hrun
  rw [spaceAt_modifySpace, if_neg (fun hc => hm hc.1.symm), withRoot, spaceAt_modifySpace,
    if_neg (fun hc => hm hc.1.symm)]
  rfl

theorem Unshadowed.plain {n : NamespaceId} {ms : List Mention} (h : Unshadowed p n ms) :
    ∀ m ∈ ms, m.Plain (p.checkContext n).enums := by
  intro m hm
  cases m with
  | name o text read =>
      cases read with
      | unbound => trivial
      | own s usage => trivial
      | std r record => exact h o text r record hm
  | imported o r record => trivial
  | property s => trivial
  | binding text s => trivial

theorem prepared_check (hl : p.ledger.WellFormed) (hfound : Found p t)
    (hunshadowed : Unshadowed p t.owner (Stmt.mentionsOfAll t.statements))
    (hrun : check t p = ((t', none), p')) : ∃ root, Prepared p' root t' := by
  have hspace := spaceAt_check hfound hrun
  obtain ⟨hok, rfl, rfl⟩ := check_eq_ok hfound.root hrun
  obtain ⟨hentered, hlt, -, -, -, hhoisted⟩ := analysis_spec hfound hl hok
  refine ⟨p.ledger.scopes.size, ?_, hlt, ?_, ?_, ?_⟩
  · rw [hspace]
  · rw [hspace]
  · exact fun m hm => (hentered.attached hunshadowed.plain m hm).mono fun r f hf => hf
  · intro name hname
    rw [hspace]
    apply hhoisted name
    exact (Check.declaredNames_checkStmts t.statements _) ▸ hname

theorem yields_checkAll_prepared (trees : List Tree) {before : List Tree} (h : Analysed p before)
    (hfound : ∀ t ∈ trees, Found p t)
    (hunshadowed : ∀ t ∈ trees, Unshadowed p t.owner (Stmt.mentionsOfAll t.statements))
    (howners : (before.map Tree.owner ++ trees.map Tree.owner).Nodup)
    (hbefore : ∀ t ∈ before, ∃ root, Prepared p root t) :
    Yields (checkAll trees) p fun trees' p' =>
      ∀ t ∈ before ++ trees', ∃ root, Prepared p' root t := by
  refine (yields_checkAll_of (motive := fun done rest q => Checking q done rest ∧
    (∀ t ∈ rest, Unshadowed q t.owner (Stmt.mentionsOfAll t.statements)) ∧
      ∀ t ∈ done, ∃ root, Prepared q root t) ?_ before trees
    ⟨⟨h, hfound, howners⟩, hunshadowed, hbefore⟩).mono fun _ _ hall => hall.2.2
  rintro done t rest q t' q' ⟨hchecking, hunshadowed, hdone⟩ hcheck
  have hfirst := hchecking.found t List.mem_cons_self
  obtain ⟨hkeeps, -, -, hchecking'⟩ := hchecking.check hcheck
  refine ⟨hchecking', ?_, ?_⟩
  · exact fun u hu => (hunshadowed u (List.mem_cons_of_mem _ hu)).of_enums (hkeeps.enums u.owner)
  · intro u hu
    rcases List.mem_append.mp hu with hold | hlast
    · obtain ⟨root, hroot⟩ := hdone u hold
      have hne : u.owner ≠ t.owner :=
        fun heq => hchecking.fresh (heq ▸ List.mem_map_of_mem hold)
      exact ⟨root, hroot.keeps hchecking.analysed.wellFormed hkeeps
        (stage_check hfirst.root hcheck hne)⟩
    · rw [List.mem_singleton.mp hlast]
      exact prepared_check hchecking.analysed.wellFormed hfirst
        (hunshadowed t List.mem_cons_self) hcheck

end Program

end Splice

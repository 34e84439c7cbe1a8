import Splice.Proofs.Build.Analysis
import Splice.Proofs.Tree.Agreement

/-!
# Parsed trees and their analysis

A tree that is parsed is bound and regular, so its analysis goes through the sites as the
lists of statements around them say, whatever else has been parsed, valued or analysed in
between.
-/

namespace Splice

namespace Program

variable {n : NamespaceId} {p p' q : Program} {t : Tree}

/-- A tree whose names are bound as the lists of statements around them say. -/
structure BoundTree (p : Program) (t : Tree) : Prop where
  root : t.root = none
  regular : Stmt.RegularAll t.statements
  bound : ∀ root, ∀ e ∈ t.sites root, e.2.Bound p t.owner e.1

theorem retains_advance (stage : Stage) :
    Yields (advance n stage) p fun _ p' => Retains n p p' := by
  simp only [advance, yields_bind, yields_get]
  split
  · simp
  · simp only [yields_set]
    exact retains_modifySpace p fun _ => rfl

theorem tells_declaredNames (ss : List Stmt) (root : ScopeId) :
    Tells (Stmt.declaredNames ss) [⟨Stmt.declaredNames ss, root⟩] := by
  intro name
  simp [Block.isVisible]

/-- Whatever the program before, parsing a source gives a bound tree. -/
theorem parse_bound : Yields (parse n) p fun t p' => t.owner = n ∧ BoundTree p' t := by
  simp only [parse_eq, yields_bind, yields_get, yields_set, yields_pure]
  refine (parseStatements_regular n p).mono ?_
  intro ss p₁ hregular
  refine (retains_advance .parsed).mono ?_
  intro _ p₂ hretains
  refine ⟨trivial, rfl, bindStmts_regular _ ss p₁ hregular, ?_⟩
  intro root e he
  rw [Tree.sites, declaredNames_bindStmts] at he
  have hbinds := bindStmts_sites (n := n) (tells_declaredNames ss root) (root + 1) ss p₁
  exact (hbinds.bound e he).retains hretains

theorem analysis_eq (p : Program) (t : Tree) :
    p.analysis t =
      let c := p.checkContext t.owner
      Check.checkStmts c p.reference p.ledger.scopes.size t.statements
        { ledger := Check.rooted c p.ledger (Stmt.declaredNames t.statements) } := by
  rw [analysis, Check.hoist_eq]
  rfl

theorem analysis_goes (ht : BoundTree p t) (hl : q.ledger.WellFormed)
    (henums : SameEnumNames t.owner p q) :
    let c := q.checkContext t.owner
    Check.Goes c { ledger := Check.rooted c q.ledger (Stmt.declaredNames t.statements) }
      (q.analysis t).2 (Stmt.listCountOfAll t.statements) (t.sites q.ledger.scopes.size)
      (Stmt.sitesOfAll (q.ledger.scopes.size + 1)
        [⟨Stmt.declaredNames t.statements, q.ledger.scopes.size⟩] (q.analysis t).1) := by
  rw [analysis_eq]
  exact Check.root_goes q.reference hl t (fun e he => (ht.bound _ e he).lexical henums) ht.regular

theorem analysis_trace (ht : BoundTree p t) (hl : q.ledger.WellFormed)
    (henums : SameEnumNames t.owner p q) :
    Site.Trace (q.checkContext t.owner) (q.analysis t).2.ledger none (t.sites q.ledger.scopes.size)
      (Stmt.sitesOfAll (q.ledger.scopes.size + 1)
        [⟨Stmt.declaredNames t.statements, q.ledger.scopes.size⟩] (q.analysis t).1)
      (q.analysis t).2.mistake :=
  (analysis_goes ht hl henums).trace

/-- What the analysis of a tree leaves behind, with or without a mistake. -/
theorem check_outcome (hroot : t.root = none) (q : Program) :
    (check t q).2.ledger = (q.analysis t).2.ledger ∧
      (check t q).1.1.statements = (q.analysis t).1 ∧
      ∀ d, (check t q).1.2 = some (.source d) ↔ (q.analysis t).2.mistake = some d := by
  rw [check_eq hroot]
  cases hmistake : (q.analysis t).2.mistake with
  | some d =>
      refine ⟨rfl, rfl, fun d' => ?_⟩
      simp
  | none =>
      dsimp only
      rw [advance, get_bind_eq]
      split
      · next hadvance =>
          split at hadvance
          · cases hadvance
          · cases hadvance
            exact ⟨rfl, rfl, fun d => by simp⟩
      · next hadvance =>
          split at hadvance
          · cases hadvance
            exact ⟨rfl, rfl, fun d => by simp⟩
          · cases hadvance

/-- Binding and analysis agree on where names are visible.  In a tree that was parsed a
bare name belongs to its own namespace just where it is visible; elsewhere it is an enum
or refers to the standard library.  The analysis takes the sites in order.  It attaches
each read of a visible name and each store to the record of the innermost list that
declares the name, and finds no record in the scopes around any other name.  The first
mistake ends it: a store to a name that is not visible, an enum that is used as a value,
or an entry that an enum does not have. -/
theorem check_follows_visibility (hparse : parse n p = .ok t p') (hl : q.ledger.WellFormed)
    (henums : SameEnumNames n p' q) :
    (∀ e ∈ t.sites q.ledger.scopes.size, e.2.Bound p' n e.1) ∧
      ∃ mistake,
        Site.Trace (q.checkContext n) (check t q).2.ledger none (t.sites q.ledger.scopes.size)
          ((check t q).1.1.sites q.ledger.scopes.size) mistake ∧
        ∀ d, (check t q).1.2 = some (.source d) ↔ mistake = some d := by
  obtain ⟨rfl, hbound⟩ := parse_bound t p' hparse
  obtain ⟨hledger, hstatements, hmistake⟩ := check_outcome hbound.root q
  refine ⟨hbound.bound _, (q.analysis t).2.mistake, ?_, hmistake⟩
  have hdeclared : Stmt.declaredNames (q.analysis t).1 = Stmt.declaredNames t.statements := by
    rw [analysis_eq]
    exact Check.declaredNames_checkStmts _ _
  have hsites : (check t q).1.1.sites q.ledger.scopes.size =
      Stmt.sitesOfAll (q.ledger.scopes.size + 1)
        [⟨Stmt.declaredNames t.statements, q.ledger.scopes.size⟩] (q.analysis t).1 := by
    rw [Tree.sites, hstatements, hdeclared]
  rw [hledger, hsites]
  exact analysis_trace hbound hl henums

def nestedSource : SourceUnit where
  text := "enum E { A }\nfn f(a) { x = a { let y = E.A x = y + out } }\nlet x = 1\ny = 2\n"
  location := "/m.wv"

def nestedProgram : Program :=
  { namespaces := #[{ id := "/m", unit := nestedSource, key := "/m.wv" }] }

def mistakeOf? : EStateM.Result Failure Program Tree → Option Diagnostic
  | .error _ _ => none
  | .ok t p =>
      match (check t { p with ledger := {} }).1.2 with
      | some (.source d) => some d
      | _ => none

theorem check_of_mistakeOf? {d : Diagnostic} (h : mistakeOf? (.ok t p) = some d) :
    (check t { p with ledger := {} }).1.2 = some (.source d) := by
  rw [mistakeOf?] at h
  split at h
  · next hcheck =>
      cases h
      exact hcheck
  · cases h

set_option maxRecDepth 100000 in
theorem check_follows_visibility_nested :
    ∃ t p', parse 0 nestedProgram = .ok t p' ∧
      (∀ e ∈ t.sites 0, e.2.Bound p' 0 e.1) ∧
      Site.Trace (p'.checkContext 0) (check t { p' with ledger := {} }).2.ledger none (t.sites 0)
        ((check t { p' with ledger := {} }).1.1.sites 0)
        (some ⟨"assignment to undeclared name y", some nestedSource, 69⟩) := by
  have hmistake : mistakeOf? (parse 0 nestedProgram) =
      some ⟨"assignment to undeclared name y", some nestedSource, 69⟩ := by
    decide +kernel
  cases hparse : parse 0 nestedProgram with
  | error e p' =>
      rw [hparse] at hmistake
      cases hmistake
  | ok t p' =>
      rw [hparse] at hmistake
      obtain ⟨hbound, mistake, htrace, hiff⟩ :=
        check_follows_visibility (q := { p' with ledger := {} }) hparse Ledger.wellFormed_empty
          fun _ => rfl
      rw [(hiff _).mp (check_of_mistakeOf? hmistake)] at htrace
      exact ⟨t, p', rfl, hbound, htrace⟩

end Program

end Splice

import Splice.Proofs.Build.Analysis
import Splice.Proofs.Tree.Tracking

/-!
# Bindings with a known truth value

A condition is decided before the program runs if it is a name whose record has a
known truth value.  After the analysis of a tree such a value is what every `let`,
assignment and function with the record gives, and there is at least one of them
(`Program.constant_given_of_known`).  A parameter has a value that no statement
gives, and no record is told of it: one assignment in the body of a function is
enough to make the truth value of a parameter known (`Program.known_parameter`).
-/

namespace Splice

def Stmt.record? : Stmt → Option UsageId
  | .let_ _ _ _ _ usage => usage
  | .assign _ _ _ _ usage => usage
  | .fn _ _ _ _ _ _ usage => usage
  | _ => none

/-- The value that a statement gives is a constant that counts as true or as false. -/
def Stmt.GivesConstant (v : Bool) : Stmt → Prop
  | .let_ _ _ _ value _ => value.Constant v
  | .assign _ _ _ value _ => value.Constant v
  | .fn _ _ _ _ _ _ _ => v = true
  | _ => False

theorem Stmt.exists_store? {s : Stmt} {u : UsageId} (h : s.record? = some u) :
    ∃ x, s.store? = some (some u, x) := by
  cases s with
  | let_ o n sym v usage => exact ⟨v.truth, by rw [store?, ← h, record?]⟩
  | assign o n sym v usage => exact ⟨v.truth, by rw [store?, ← h, record?]⟩
  | fn o n sym ps bo body usage => exact ⟨.truthy, by rw [store?, ← h, record?]⟩
  | _ => cases h

theorem Stmt.record?_of_store? {s : Stmt} {e : Option UsageId × Truth}
    (h : s.store? = some e) : s.record? = e.1 := by
  cases s <;> cases h <;> rfl

theorem Stmt.givesConstant_of_store? {s : Stmt} {r : Option UsageId} {v : Bool}
    (h : s.store? = some (r, .ofBool v)) : s.GivesConstant v := by
  cases s with
  | let_ o n sym value usage =>
      simp only [store?, Option.some.injEq, Prod.mk.injEq] at h
      exact Expr.constant_of_truth h.2
  | assign o n sym value usage =>
      simp only [store?, Option.some.injEq, Prod.mk.injEq] at h
      exact Expr.constant_of_truth h.2
  | fn o n sym ps bo body usage =>
      simp only [store?, Option.some.injEq, Prod.mk.injEq] at h
      exact Truth.ofBool_injective h.2.symm
  | _ => cases h

namespace Program

variable {p p' : Program} {t t' : Tree}

theorem ledger_advance {n : NamespaceId} (stage : Stage) :
    Yields (advance n stage) p fun _ p' => p'.ledger = p.ledger := by
  simp only [advance, yields_bind, yields_get]
  split
  · simp
  · simp [modifySpace]

/-- The analysis of a tree tells the records it makes about every store. -/
theorem tracks_analysis (hok : (p.analysis t).2.mistake = none) :
    Ledger.Tracks p.ledger.scopes.size p.ledger.usages.size p.ledger.openRoot.2
      (p.analysis t).2.ledger (Stmt.stores (p.analysis t).1) := by
  have hhoist := (Ledger.region_openRoot p.ledger).tracks_defineAll le_rfl
    (Check.idsOf (p.checkContext t.owner) (Stmt.declaredNames t.statements))
  have hrun : p.analysis t =
      Check.checkStmts (p.checkContext t.owner) p.reference p.ledger.scopes.size t.statements
        { ledger := p.ledger.openRoot.2.defineAll p.ledger.scopes.size
            (Check.idsOf (p.checkContext t.owner) (Stmt.declaredNames t.statements)) } := by
    rw [analysis, Check.hoist_eq]
    rfl
  rw [hrun] at hok ⊢
  exact hhoist.trans (Check.checkStmts_tracks le_rfl t.statements _ hhoist.region hok)

theorem tracks_check (hroot : t.root = none) (hcheck : check t p = ((t', none), p')) :
    Ledger.Tracks p.ledger.scopes.size p.ledger.usages.size p.ledger.openRoot.2 p'.ledger
      (Stmt.stores t'.statements) := by
  rw [check_eq hroot] at hcheck
  cases hmistake : (p.analysis t).2.mistake with
  | some d =>
      rw [hmistake] at hcheck
      cases hcheck
  | none =>
      rw [hmistake] at hcheck
      dsimp only at hcheck
      split at hcheck
      · next u p₁ hadvance =>
          cases hcheck
          rw [ledger_advance _ _ _ hadvance]
          exact tracks_analysis hmistake
      · cases hcheck

/-- A truth value that is known of a binding is given by every statement that declares
or assigns it, as a constant.  If the binding belongs to the tree, there is such a
statement. -/
theorem constant_given_of_known (hroot : t.root = none)
    (hcheck : check t p = ((t', none), p')) {u : UsageId} {v : Bool}
    (hknown : (p'.ledger.usage u).truth.constant? = some v) :
    (∀ s, .stmt s ∈ t'.nodes → s.record? = some u → s.GivesConstant v) ∧
      (p.ledger.usages.size ≤ u → ∃ s, .stmt s ∈ t'.nodes ∧ s.record? = some u) := by
  obtain ⟨hbefore, hgiven⟩ := (tracks_check hroot hcheck).known u v hknown
  constructor
  · intro s hs hrecord
    obtain ⟨x, hx⟩ := Stmt.exists_store? hrecord
    rw [hgiven x (Stmt.mem_stores hs hx)] at hx
    exact Stmt.givesConstant_of_store? hx
  · intro hu
    rcases hbefore with hbefore | ⟨-, x, hx⟩
    · -- A record that the analysis makes knows nothing before.
      have hnew : p.ledger.openRoot.2.usage u = { id := [] } := Ledger.usage_of_size_le hu
      rw [hnew] at hbefore
      cases hbefore
    · obtain ⟨s, hs, hstore⟩ := Stmt.exists_of_mem_stores hx
      exact ⟨s, hs, Stmt.record?_of_store? hstore⟩

def parseText (text : Text) : Linking Tree := do
  let (n, _) ← openAt (some (.ofSources [("/m.wv", text)])) "/m.wv"
  parse n

def analysesTo (text : Text) (test : Tree → Ledger → Bool) : Bool :=
  match parseText text { workingDir := "/" } with
  | .error _ _ => false
  | .ok t p =>
      match check t p with
      | ((_, some _), _) => false
      | ((t', none), p') => t.root.isNone && p.ledger.usages.isEmpty && test t' p'.ledger

theorem exists_of_analysesTo {text : Text} {test : Tree → Ledger → Bool}
    (h : analysesTo text test = true) :
    ∃ t p t' p', parseText text { workingDir := "/" } = .ok t p ∧ t.root = none ∧
      p.ledger.usages.size = 0 ∧ check t p = ((t', none), p') ∧
      test t' p'.ledger = true := by
  unfold analysesTo at h
  split at h
  · cases h
  · next t p hparse =>
      split at h
      · cases h
      · next t' p' hcheck =>
          simp only [Bool.and_eq_true, Option.isNone_iff_eq_none, Array.isEmpty_iff_size_eq_zero]
            at h
          exact ⟨t, p, t', p', hparse, h.1.1, h.1.2, hcheck, h.2⟩

def assignedText : Text := "let x = 1\nfn f(y) \x7b\n  x = 2\n\x7d\n"

set_option maxRecDepth 100000 in
theorem constant_given_sample :
    ∃ t p t' p', parseText assignedText { workingDir := "/" } = .ok t p ∧
      t.root = none ∧ check t p = ((t', none), p') ∧
      (p'.ledger.usage 0).truth.constant? = some true ∧
      (∀ s, .stmt s ∈ t'.nodes → s.record? = some 0 → s.GivesConstant true) ∧
      ∃ s, .stmt s ∈ t'.nodes ∧ s.record? = some 0 := by
  have hruns : analysesTo assignedText
      (fun _ l => (l.usage 0).truth.constant? == some true) = true := by
    decide +kernel
  obtain ⟨t, p, t', p', hparse, hroot, hsize, hcheck, htest⟩ := exists_of_analysesTo hruns
  have hknown : (p'.ledger.usage 0).truth.constant? = some true := by simpa using htest
  obtain ⟨hgiven, hexists⟩ := constant_given_of_known hroot hcheck hknown
  exact ⟨t, p, t', p', hparse, hroot, hcheck, hknown, hgiven, hexists hsize.le⟩

/-- The records by which a function tests its parameters directly in its body, as far
as the body does not declare the same name. -/
def testedParams : Stmt → List UsageId
  | .fn _ _ _ params _ body _ =>
      body.filterMap fun
        | .if_ _ (.name _ n (.own _ usage)) _ _ _ =>
            if params.any (·.name == n) && !(Stmt.declaredNames body).contains n then usage
            else none
        | _ => none
  | _ => []

/-- A function that assigns to a parameter in one branch, and a call with a value that
counts as false. -/
def parameterText : Text :=
  "fn f(p, q) \x7b\n  if q \x7b\n    p = 1\n  \x7d\n" ++
    "  if p \x7b\n    $a()\n  \x7d else \x7b\n    $b()\n  \x7d\n\x7d\nf(nil, false)\n"

set_option maxRecDepth 100000 in
/-- The assignment makes the parameter known to be true: the value that it has from
the call is told to no record. -/
theorem known_parameter :
    ∃ t p t' p', parseText parameterText { workingDir := "/" } = .ok t p ∧
      check t p = ((t', none), p') ∧
      ∃ s ∈ t'.statements, ∃ u ∈ testedParams s,
        (p'.ledger.usage u).truth.constant? = some true := by
  have hruns : analysesTo parameterText
      (fun t l => t.statements.any fun s => (testedParams s).any fun u =>
        (l.usage u).truth.constant? == some true) = true := by decide +kernel
  obtain ⟨t, p, t', p', hparse, -, -, hcheck, htest⟩ := exists_of_analysesTo hruns
  simp only [List.any_eq_true, beq_iff_eq] at htest
  exact ⟨t, p, t', p', hparse, hcheck, htest⟩

end Program

end Splice

import Splice.Proofs.Build.Accounting
import Splice.Proofs.Build.Tracking
import Splice.Proofs.Tree.Settling

/-!
# Dead code removal comes to an end

The rank of the trees of a program is the number of their candidates for removal.  A
pass that removes something lowers it, so there are at most as many such passes as
there are candidates, and one more that removes nothing.  That pass has found every
statement live, at any depth of any tree (`Program.removal_reaches_fixpoint`).
-/

namespace Splice.Program

variable {p : Program} {t : Tree} {trees : List Tree} {readPattern : PatternReader}

theorem pruning_pass (p : Program) (t : Tree) :
    Pruning.Pass t.owner t.statements { ledger := p.ledger } (p.pruning t).1
      (p.pruning t).2 :=
  Pruning.pruneStmts_pass t.statements { ledger := p.ledger }

/-- The candidates for removal in all trees. -/
def candidates (trees : List Tree) : Nat :=
  (trees.flatMap Tree.nodes).countP Node.isCandidate

theorem candidates_cons (t : Tree) (rest : List Tree) :
    candidates (t :: rest) = Stmt.candidates t.statements + candidates rest := by
  rw [candidates, List.flatMap_cons, List.countP_append]
  rfl

theorem candidates_prune_le (t : Tree) (p : Program) :
    Stmt.candidates (prune t p).1.1.statements + (prune t p).1.2.toNat ≤
      Stmt.candidates t.statements := by
  have hpass := (pruning_pass p t).candidates_le
  rw [prune_eq]
  exact hpass

theorem prune_unchanged (h : (prune t p).1.2 = false) :
    (prune t p).1.1 = t ∧ (prune t p).2.ledger = p.ledger ∧
      Pruning.Settled p.ledger t.statements := by
  rw [prune_eq] at h
  obtain ⟨htree, hledger, hsettled⟩ := (pruning_pass p t).unchanged h
  refine ⟨?_, ?_, hsettled⟩
  · rw [prune_tree, htree]
  · rw [prune_ledger, hledger]

/-- A pass says that it removes nothing just if it leaves the tree as it is. -/
theorem prune_eq_self_iff (t : Tree) (p : Program) :
    (prune t p).1.2 = false ↔ (prune t p).1.1 = t := by
  constructor
  · intro h
    exact (prune_unchanged h).1
  · intro h
    have hle := candidates_prune_le t p
    rw [h] at hle
    cases hchanged : (prune t p).1.2 with
    | false => rfl
    | true =>
        rw [hchanged, Bool.toNat_true] at hle
        omega

theorem candidates_pruneAll_le (trees : List Tree) (p : Program) :
    candidates (pruneAll trees p).1.1 + (pruneAll trees p).1.2.toNat ≤ candidates trees := by
  induction trees generalizing p with
  | nil => exact le_rfl
  | cons t rest ih =>
      have hfirst := candidates_prune_le t p
      have hrest := ih (prune t p).2
      have hor : ∀ a b : Bool, (a || b).toNat ≤ a.toNat + b.toNat := by decide
      have hchanged := hor (prune t p).1.2 (pruneAll rest (prune t p).2).1.2
      rw [pruneAll_cons, candidates_cons, candidates_cons]
      dsimp only
      omega

theorem pruneAll_unchanged (h : (pruneAll trees p).1.2 = false) :
    (pruneAll trees p).1.1 = trees ∧ (pruneAll trees p).2.ledger = p.ledger ∧
      ∀ t ∈ trees, Pruning.Settled p.ledger t.statements := by
  induction trees generalizing p with
  | nil => exact ⟨rfl, rfl, nofun⟩
  | cons t rest ih =>
      rw [pruneAll_cons] at h ⊢
      obtain ⟨hfirst, hrest⟩ := Bool.or_eq_false_iff.mp h
      obtain ⟨htree, hledger, hsettled⟩ := prune_unchanged hfirst
      obtain ⟨htrees, hledger', hsettled'⟩ := ih hrest
      refine ⟨?_, hledger'.trans hledger, ?_⟩
      · rw [htree, htrees]
      · rw [hledger] at hsettled'
        exact List.forall_mem_cons.mpr ⟨hsettled, hsettled'⟩

/-- Whether every pass that a limit allows removes something. -/
def isCutShort : (limit : Nat) → List Tree → Program → Bool
  | 0, _, _ => true
  | limit + 1, trees, p =>
      (pruneAll trees p).1.2 && isCutShort limit (pruneAll trees p).1.1 (pruneAll trees p).2

theorem isCutShort_eq_false {limit : Nat} (h : candidates trees < limit) :
    isCutShort limit trees p = false := by
  induction limit generalizing trees p with
  | zero => omega
  | succ limit ih =>
      rw [isCutShort]
      cases hchanged : (pruneAll trees p).1.2 with
      | false => rfl
      | true =>
          have hle := candidates_pruneAll_le trees p
          rw [hchanged, Bool.toNat_true] at hle
          rw [Bool.true_and]
          exact ih (by omega)

/-- Unless it is cut short, dead code removal ends with a pass that removes nothing,
after at most one pass for each candidate. -/
theorem exists_last_pass {limit : Nat} (h : isCutShort limit trees p = false) :
    ∃ k ≤ candidates trees, (prunePasses limit trees p).1.2 = k + 1 ∧
      (pruneAll (afterPasses k (trees, p)).1 (afterPasses k (trees, p)).2).1.2 = false := by
  induction limit generalizing trees p with
  | zero => cases h
  | succ limit ih =>
      rw [isCutShort] at h
      rw [prunePasses_succ]
      cases hchanged : (pruneAll trees p).1.2 with
      | false =>
          refine ⟨0, Nat.zero_le _, ?_, hchanged⟩
          simp [hchanged]
      | true =>
          rw [hchanged, Bool.true_and] at h
          obtain ⟨k, hk, hpasses, hlast⟩ := ih h
          have hle := candidates_pruneAll_le trees p
          rw [hchanged, Bool.toNat_true] at hle
          refine ⟨k + 1, by omega, ?_, hlast⟩
          simp only [hchanged, if_true]
          rw [hpasses]

theorem afterPasses_succ (k : Nat) (x : List Tree × Program) :
    afterPasses (k + 1) x =
      ((pruneAll (afterPasses k x).1 (afterPasses k x).2).1.1,
        (pruneAll (afterPasses k x).1 (afterPasses k x).2).2) := by
  induction k generalizing x with
  | zero => rfl
  | succ k ih =>
      rw [afterPasses, ih]
      rfl

/-- Unless it is cut short, dead code removal leaves nothing that is to be removed. -/
theorem settled_prunePasses {limit : Nat} (h : isCutShort limit trees p = false) :
    ∀ t ∈ (prunePasses limit trees p).1.1,
      Pruning.Settled (prunePasses limit trees p).2.ledger t.statements := by
  obtain ⟨k, -, hpasses, hlast⟩ := exists_last_pass h
  obtain ⟨htrees, hledger, hsettled⟩ := pruneAll_unchanged hlast
  have hrun := prunePasses_eq limit trees p
  rw [hpasses, afterPasses_succ, htrees, Prod.mk.injEq] at hrun
  rw [hrun.1, hrun.2, hledger]
  exact hsettled

theorem recorded_check {t' : Tree} {p' : Program} (hroot : t.root = none)
    (hcheck : check t p = ((t', none), p')) : Stmt.Recorded t'.statements := by
  intro e he
  obtain ⟨u, hu, -⟩ := (tracks_check hroot hcheck).recorded e he
  exact ⟨u, hu⟩

theorem yields_checkAll_recorded (hroot : ∀ t ∈ trees, t.root = none) :
    Yields (checkAll trees) p fun trees' _ => ∀ t ∈ trees', Stmt.Recorded t.statements := by
  refine (yields_checkAll_of (motive := fun done rest _ =>
    (∀ t ∈ rest, t.root = none) ∧ ∀ t ∈ done, Stmt.Recorded t.statements) ?_ [] trees
    ⟨hroot, List.forall_mem_nil _⟩).mono fun _ _ hall => hall.2
  rintro done t rest q t' q' ⟨hroots, hdone⟩ hcheck
  obtain ⟨hroot, hroots⟩ := List.forall_mem_cons.mp hroots
  exact ⟨hroots, List.forall_mem_append.mpr
    ⟨hdone, List.forall_mem_singleton.mpr (recorded_check hroot hcheck)⟩⟩

/-- What analysis and linking make of the trees that were found holds after the link
phase. -/
theorem yields_linkPhases_of (loader : Loader) (cancelled : Bool) (o : BuildOptions)
    (entry : Text) (hp : p.Pristine) (huntargeted : ∀ n, p.Untargeted n)
    {post : List Tree → Prop}
    (hpost : ∀ d q table, Discovers q d →
      Yields (analysePhases d) (q.withSymbols table) fun trees _ => post trees) :
    Yields (linkPhases loader cancelled o entry) p fun result _ => post result.2 := by
  simp only [linkPhases, yields_bind]
  refine (yields_findPhases loader cancelled o entry hp huntargeted).mono ?_
  intro d q hdiscovers
  refine (yields_mangleIfAsked hdiscovers o).mono ?_
  rintro symbols _ ⟨⟨table, rfl⟩, -⟩
  refine (hpost d q table hdiscovers).mono ?_
  intro trees _ htrees
  simp only [yields_pure]
  exact htrees

theorem yields_analysePhases_recorded {d : Discovery} {q : Program} (hq : Discovers q d) :
    Yields (analysePhases d) p fun trees _ => ∀ t ∈ trees, Stmt.Recorded t.statements := by
  simp only [analysePhases, yields_bind]
  refine (yields_mapFailure (yields_checkAll_recorded ?_)).mono ?_
  · intro t ht
    exact (hq.found_orderedTrees ht).root
  · intro trees _ hrecorded _ _ _
    simp only [yields_pure]
    exact hrecorded

theorem recorded_pruneAll (h : ∀ t ∈ trees, Stmt.Recorded t.statements) :
    ∀ t ∈ (pruneAll trees p).1.1, Stmt.Recorded t.statements := by
  induction trees generalizing p with
  | nil => exact h
  | cons t rest ih =>
      obtain ⟨hfirst, hrest⟩ := List.forall_mem_cons.mp h
      rw [pruneAll_cons]
      refine List.forall_mem_cons.mpr ⟨?_, ih hrest⟩
      rw [prune_tree]
      exact (pruning_pass p t).recorded hfirst

theorem recorded_afterPasses (h : ∀ t ∈ trees, Stmt.Recorded t.statements) (k : Nat) :
    ∀ t ∈ (afterPasses k (trees, p)).1, Stmt.Recorded t.statements := by
  induction k generalizing p trees with
  | zero => exact h
  | succ k ih => exact ih (recorded_pruneAll h)

/-- In every build that passes the link phase, dead code removal stops because a pass
removes nothing, if the limit is above the number of candidates.  Then every statement
that is left is live. -/
theorem removal_reaches_fixpoint (loader : Loader) (workingDir : Text) (cancelled : Bool)
    (o : BuildOptions) (entry : Text) {p₀ p : Program} {symbols : List MangleEntry}
    {trees : List Tree} (hcreate : create workingDir o.retain readPattern = .ok p₀)
    (hlink : linkPhases loader cancelled o entry p₀ = .ok (symbols, trees) p) {limit : Nat}
    (hlimit : candidates trees < limit) :
    (∃ k ≤ candidates trees, (prunePasses limit trees p).1.2 = k + 1 ∧
      (pruneAll (afterPasses k (trees, p)).1 (afterPasses k (trees, p)).2).1.2 = false) ∧
    (∀ t q, (prune t q).1.2 = false ↔ (prune t q).1.1 = t) ∧
    ∀ t ∈ (prunePasses limit trees p).1.1, ∀ s, .stmt s ∈ t.nodes →
      s.IsLive (prunePasses limit trees p).2.ledger := by
  obtain ⟨hpristine, huntargeted⟩ := pristine_create hcreate
  have hrecorded := yields_linkPhases_of loader cancelled o entry hpristine huntargeted
    (fun _ _ _ hdiscovers => yields_analysePhases_recorded hdiscovers) _ _ hlink
  have hends := isCutShort_eq_false (p := p) hlimit
  refine ⟨exists_last_pass hends, prune_eq_self_iff, ?_⟩
  intro t ht s hs
  have hpasses := prunePasses_eq limit trees p
  have hleft := recorded_afterPasses (p := p) hrecorded (prunePasses limit trees p).1.2
  rw [← hpasses] at hleft
  exact (settled_prunePasses hends t ht).isLive (hleft t ht) hs

def chainedSources : List (Text × Text) :=
  [("/s.wv", "let a = 1\nlet b = a\n"),
    ("/m.wv", "let c = b\nfn f(z) \x7b\n  if nil \x7b\n    c = 2\n  \x7d\n  let d = c\n" ++
      "  $print(z)\n\x7d\nf(1)\n")]

def linksBelow (limit : Nat) :
    EStateM.Result Failure Program (List MangleEntry × List Tree) → Bool
  | .ok (_, trees) _ => decide (candidates trees < limit)
  | .error _ _ => false

set_option maxRecDepth 100000 in
theorem removal_reaches_fixpoint_sample :
    ∃ p₀ p symbols trees, create "/" [] = .ok p₀ ∧
      linkPhases (.ofSources chainedSources) false { stdPath := "/s.wv" } "/m.wv" p₀ =
        .ok (symbols, trees) p ∧
      candidates trees < 8 ∧
      (∃ k ≤ candidates trees, (prunePasses 8 trees p).1.2 = k + 1 ∧
        (pruneAll (afterPasses k (trees, p)).1 (afterPasses k (trees, p)).2).1.2 = false) ∧
      ∀ t ∈ (prunePasses 8 trees p).1.1, ∀ s, .stmt s ∈ t.nodes →
        s.IsLive (prunePasses 8 trees p).2.ledger := by
  have hcreate := create_nil "/" Glob.reader
  have hruns : linksBelow 8 (linkPhases (.ofSources chainedSources) false
      { stdPath := "/s.wv" } "/m.wv" { workingDir := "/" }) = true := by
    decide +kernel
  cases hlink : linkPhases (.ofSources chainedSources) false { stdPath := "/s.wv" } "/m.wv"
      { workingDir := "/" } with
  | error e p =>
      rw [hlink] at hruns
      cases hruns
  | ok result p =>
      rw [hlink] at hruns
      have hlimit : candidates result.2 < 8 := of_decide_eq_true hruns
      obtain ⟨hlast, -, hlive⟩ := removal_reaches_fixpoint (.ofSources chainedSources) "/"
        false { stdPath := "/s.wv" } "/m.wv" hcreate hlink hlimit
      exact ⟨_, p, result.1, result.2, hcreate, hlink, hlimit, hlast, hlive⟩

end Splice.Program

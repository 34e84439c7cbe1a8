import Splice.Proofs.Build.Closure
import Splice.Proofs.Build.Settling

/-!
# Stores and the limit of passes

A pass visits an assignment and the `let` it targets at different moments, and reads
disappear in between.  So a pass may keep an assignment, lose the last read of the
binding, and then drop the `let`.  The next pass removes the assignment as well, if
there is a next pass.  A pass that removes nothing keeps no assignment to a binding
that nobody reads, so stores are in scope unless dead code removal was cut short: the
limit was reached by a pass that still removed something.
-/

namespace Splice

namespace Stmt

variable {u : UsageId}

mutual

/-- A binding that is assigned has an assignment among the nodes. -/
theorem exists_assign_of_assigned (s : Stmt) (h : u ∈ s.assigned) :
    ∃ o n sym v, .stmt (assign o n sym v (some u)) ∈ s.nodes := by
  cases s with
  | assign o n sym v usage =>
      rw [assigned, Option.mem_toList] at h
      rw [h]
      exact ⟨o, n, sym, v, List.mem_cons_self⟩
  | fn o n sym ps bo body usage =>
      obtain ⟨o', n', sym', v, hmem⟩ := exists_assign_of_assignedOfAll body h
      exact ⟨o', n', sym', v, List.mem_cons_of_mem _ (List.mem_cons_of_mem _ hmem)⟩
  | block o body =>
      obtain ⟨o', n', sym', v, hmem⟩ := exists_assign_of_assignedOfAll body h
      exact ⟨o', n', sym', v, List.mem_cons_of_mem _ hmem⟩
  | if_ o c b t e =>
      rcases List.mem_append.mp h with h | h
      · obtain ⟨o', n', sym', v, hmem⟩ := exists_assign_of_assignedOfAll t h
        refine ⟨o', n', sym', v, ?_⟩
        rw [nodes_if]
        simp [hmem]
      · obtain ⟨o', n', sym', v, hmem⟩ := exists_assign_of_assignedOfElse e h
        refine ⟨o', n', sym', v, ?_⟩
        rw [nodes_if]
        simp [hmem]
  | _ => cases h

theorem exists_assign_of_assignedOfAll (ss : List Stmt) (h : u ∈ assignedOfAll ss) :
    ∃ o n sym v, .stmt (assign o n sym v (some u)) ∈ nodesOfAll ss := by
  cases ss with
  | nil => cases h
  | cons s rest =>
      rcases List.mem_append.mp h with h | h
      · obtain ⟨o, n, sym, v, hmem⟩ := exists_assign_of_assigned s h
        exact ⟨o, n, sym, v, List.mem_append_left _ hmem⟩
      · obtain ⟨o, n, sym, v, hmem⟩ := exists_assign_of_assignedOfAll rest h
        exact ⟨o, n, sym, v, List.mem_append_right _ hmem⟩

theorem exists_assign_of_assignedOfElse (e : Option Stmt) (h : u ∈ assignedOfElse e) :
    ∃ o n sym v, .stmt (assign o n sym v (some u)) ∈ nodesOfElse e := by
  cases e with
  | none => cases h
  | some s => exact exists_assign_of_assigned s h

end

end Stmt

theorem Pruning.Settled.isRead_of_assigned {l : Ledger} {ss : List Stmt} (h : Settled l ss) :
    ∀ u ∈ Stmt.assignedOfAll ss, (l.usage u).isRead = true := by
  intro u hu
  obtain ⟨o, n, sym, v, hmem⟩ := Stmt.exists_assign_of_assignedOfAll ss hu
  exact isRead_of_isDead_eq_false (h _ hmem)

namespace Program

variable {p : Program} {t : Tree} {trees : List Tree} {readPattern : PatternReader}

/-- Unless it is cut short, dead code removal leaves no assignment to a binding that
nobody reads. -/
theorem isRead_of_assigned {limit : Nat} (h : isCutShort limit trees p = false) :
    ∀ t ∈ (prunePasses limit trees p).1.1, ∀ u ∈ Stmt.assignedOfAll t.statements,
      (prunePasses limit trees p).2.IsRead u :=
  fun t ht => (settled_prunePasses h t ht).isRead_of_assigned

/-- If it is cut short, dead code removal has taken all its passes. -/
theorem passes_of_isCutShort {limit : Nat} (h : isCutShort limit trees p = true) :
    (prunePasses limit trees p).1.2 = limit := by
  induction limit generalizing trees p with
  | zero => rfl
  | succ limit ih =>
      rw [isCutShort, Bool.and_eq_true] at h
      rw [prunePasses_succ]
      simp only [h.1, if_true]
      rw [ih h.2]

/-- Whether the limit stops the dead code removal of a build that would go on. -/
def removalIsCutShort (loader : Loader) (workingDir : Text) (cancelled : Bool)
    (o : BuildOptions) (entry : Text) (readPattern : PatternReader := Glob.reader) : Bool :=
  match create workingDir o.retain readPattern with
  | .error _ => false
  | .ok p₀ =>
      match linkPhases loader cancelled o entry p₀ with
      | .error _ _ => false
      | .ok (_, trees) p => isCutShort o.passLimit trees p

theorem InOrder.scopedAll_store (h : InOrder p p.IsRead trees) (hp : p.Uniform) (ht : t ∈ trees)
    (hassigned : ∀ u ∈ Stmt.assignedOfAll t.statements, p.IsRead u) :
    Instr.ScopedAll .store (Instr.definedIn (p.codeOf t)) (p.codeOf t) := by
  apply h.scopedAll hp ht rfl
  · exact List.Subset.refl _
  · intro hload
    cases hload
  · intro _
    exact hassigned

/-- Unless dead code removal was cut short, every store of the code of a build is in
the scope of a definition that is left.  It is cut short only if it takes as many
passes as the limit allows. -/
theorem stores_in_scope_unless_cut_short (loader : Loader) (workingDir : Text)
    (cancelled : Bool) (o : BuildOptions) (entry : Text) {r : BuildResult}
    (hdead : o.removeDeadCode = true)
    (hbuild : build loader workingDir cancelled o entry readPattern = .ok r) :
    (removalIsCutShort loader workingDir cancelled o entry readPattern = false →
      ∃ spaces, r.Emits spaces ∧
        ∀ space ∈ spaces, Instr.ScopedAll .store (Instr.definedIn space) space) ∧
    (removalIsCutShort loader workingDir cancelled o entry readPattern = true →
      r.prunePasses = o.passLimit) := by
  obtain ⟨p₀, symbols, trees, p, hcreate, hlink, horder, huniform, hemits, hpasses⟩ :=
    exists_inOrder_of_build hbuild
  have hcut : removalIsCutShort loader workingDir cancelled o entry readPattern =
      isCutShort o.passLimit trees p := by
    simp only [removalIsCutShort, hcreate, hlink]
  have hpruned : pruned o trees p = prunePasses o.passLimit trees p := by
    simp only [pruned, hdead, if_true]
  rw [hcut]
  constructor
  · intro hend
    have hassigned := isRead_of_assigned hend
    have horder' := horder.pruned o
    have huniform' := (settles_pruned horder.wellFormed o trees).toKeeps.uniform huniform
    rw [← hpruned] at hassigned
    refine ⟨_, hemits, ?_⟩
    intro space hspace
    obtain ⟨t, ht, rfl⟩ := List.mem_map.mp hspace
    exact horder'.scopedAll_store huniform' ht (hassigned t ht)
  · intro hend
    rw [hpasses, hpruned]
    exact passes_of_isCutShort hend

def storingSources : List (Text × Text) :=
  [("/s.wv", "let a = 1\n"),
    ("/m.wv", "let x = 1\nx = 2\n$print(x)\nlet y = 3\ny = 4\nlet z = y\nz = 5\n")]

set_option maxRecDepth 100000 in
theorem stores_in_scope_sample :
    removalIsCutShort (.ofSources storingSources) "/" false
        { removeDeadCode := true, prunePassLimit := 3, stdPath := "/s.wv" } "/m.wv" = false ∧
      ∃ r spaces, build (.ofSources storingSources) "/" false
        { removeDeadCode := true, prunePassLimit := 3, stdPath := "/s.wv" } "/m.wv" = .ok r ∧
      r.Emits spaces ∧
      ∀ space ∈ spaces, Instr.ScopedAll .store (Instr.definedIn space) space := by
  have hend : removalIsCutShort (.ofSources storingSources) "/" false
      { removeDeadCode := true, prunePassLimit := 3, stdPath := "/s.wv" } "/m.wv" = false := by
    decide +kernel
  have hruns : (build (.ofSources storingSources) "/" false
      { removeDeadCode := true, prunePassLimit := 3, stdPath := "/s.wv" } "/m.wv").isOk =
        true := by
    decide +kernel
  obtain ⟨r, hbuild⟩ := exists_of_isOk hruns
  obtain ⟨spaces, hspaces⟩ := (stores_in_scope_unless_cut_short (.ofSources storingSources)
    "/" false { removeDeadCode := true, prunePassLimit := 3, stdPath := "/s.wv" } "/m.wv"
    rfl hbuild).1 hend
  exact ⟨hend, r, spaces, hbuild, hspaces⟩

/-- A program that assigns to a name before its last read and its declaration. -/
def lateSources : List (Text × Text) :=
  [("/s.wv", "let a = 1\n"), ("/m.wv", "x = 2\nlet y = x\nlet x = 1\n")]

/-- The second namespace of a build is one store and nothing else. -/
def isLoneStore : Except Failure BuildResult → Bool
  | .error _ => false
  | .ok r =>
      decide (r.code.length ≤ Instr.maxCount) &&
        match r.namespaces.map fun n : NamespaceCode => n.code.instrs with
        | [_, Except.ok [.node .store (_ :: _)]] => true
        | _ => false

theorem not_scopedAll_of_isLoneStore {r : BuildResult} (h : isLoneStore (.ok r) = true)
    {spaces : List (List Instr)} (hemits : r.Emits spaces) :
    ∃ space ∈ spaces, ¬Instr.ScopedAll .store (Instr.definedIn space) space := by
  simp only [isLoneStore, Bool.and_eq_true, decide_eq_true_eq] at h
  obtain ⟨hlength, hshape⟩ := h
  have hdecoded := (hemits.decoded hlength).2
  split at hshape
  · next first k rest hread =>
      rw [hread] at hdecoded
      have hmem : .ok [.node .store (k :: rest)] ∈ spaces.map
          (.ok : List Instr → Except (Nat × DecodeError) (List Instr)) := by
        rw [← hdecoded]
        simp
      obtain ⟨space, hspace, heq⟩ := List.mem_map.mp hmem
      cases heq
      refine ⟨_, hspace, ?_⟩
      intro hscoped
      have hk := hscoped.1.1 rfl k rfl
      cases hk
  · cases hshape

set_option maxRecDepth 100000 in
/-- Cut short after one pass, a build leaves a store whose binding is gone. -/
theorem store_without_binding :
    ∃ r, build (.ofSources lateSources) "/" false
        { removeDeadCode := true, prunePassLimit := 1, stdPath := "/s.wv" } "/m.wv" = .ok r ∧
      ∀ spaces, r.Emits spaces →
        ∃ space ∈ spaces, ¬Instr.ScopedAll .store (Instr.definedIn space) space := by
  have hlone : isLoneStore (build (.ofSources lateSources) "/" false
      { removeDeadCode := true, prunePassLimit := 1, stdPath := "/s.wv" } "/m.wv") = true := by
    decide +kernel
  cases hbuild : build (.ofSources lateSources) "/" false
      { removeDeadCode := true, prunePassLimit := 1, stdPath := "/s.wv" } "/m.wv" with
  | error e =>
      rw [hbuild] at hlone
      cases hlone
  | ok r =>
      rw [hbuild] at hlone
      exact ⟨r, rfl, fun spaces hemits => not_scopedAll_of_isLoneStore hlone hemits⟩

end Program

end Splice

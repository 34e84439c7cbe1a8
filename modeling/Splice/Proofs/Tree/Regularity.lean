import Splice.Proofs.Tree.Parsing

/-!
# The shape of parsed trees

What stands behind `else` is another `if` or statements in braces, never a declaration.
So a declaration always stands in a list of statements, which is where it is hoisted.
-/

namespace Splice

namespace Stmt

theorem regularAll_append (a b : List Stmt) :
    RegularAll (a ++ b) ↔ RegularAll a ∧ RegularAll b := by
  induction a with
  | nil => simp [RegularAll]
  | cons st rest ih => simp only [List.cons_append, RegularAll, ih, and_assoc]

end Stmt

namespace Parser

variable {fuel : Nat} {s : State}

-- The equations are made once, for all the lemmas below.
attribute [local simp] Stmt.Regular

theorem importStatement_regular : Yields importStatement s fun st _ => st.Regular := by
  simp only [importStatement, yields_bind, yields_peek]
  apply Yields.of_forall
  intro start s₁
  split <;> simp only [yields_bind, yields_pure, Stmt.Regular, yields_true]

theorem enumStatement_regular : Yields enumStatement s fun st _ => st.Regular := by
  simp only [enumStatement, yields_bind, yields_get]
  apply Yields.of_forall
  intro start s₁
  apply Yields.of_forall
  intro name s₂
  split
  · simp
  · simp only [yields_bind, yields_pure, Stmt.Regular, yields_true]

theorem retainStatement_regular : Yields retainStatement s fun st _ => st.Regular := by
  simp only [retainStatement, yields_bind, yields_pure, Stmt.Regular, yields_true]

theorem letStatement_regular : Yields (letStatement fuel) s fun st _ => st.Regular := by
  simp only [letStatement, yields_bind, yields_pure, Stmt.Regular, yields_true]

theorem returnStatement_regular : Yields (returnStatement fuel) s fun st _ => st.Regular := by
  simp only [returnStatement, yields_bind, yields_peek]
  apply Yields.of_forall
  intro start s₁
  split <;> simp only [yields_bind, yields_pure, Stmt.Regular, yields_true]

theorem simpleStatement_regular : Yields (simpleStatement fuel) s fun st _ => st.Regular := by
  apply yields_simpleStatement_of
  apply Yields.of_forall
  intro x s₁ spelling
  simp only [simpleRest, yields_bind, yields_peek]
  split
  · simp only [yields_pure, Stmt.Regular]
  · simp only [yields_bind]
    apply Yields.of_forall
    intro sign s₂
    apply Yields.of_forall
    intro value s₃
    split <;> simp only [yields_bind, yields_pure, yields_failAt, Stmt.Regular, yields_true]

/-- What the mutually recursive parsers of statements give, for some fuel. -/
structure RegularSpec (fuel : Nat) : Prop where
  statement : ∀ top s, Yields (statement fuel top) s fun st _ => st.Regular
  fnStatement : ∀ s, Yields (fnStatement fuel) s fun st _ => st.Regular
  ifStatement : ∀ s,
    Yields (ifStatement fuel) s fun st _ => st.declared? = none ∧ st.Regular
  block : ∀ s, Yields (block fuel) s fun ss _ => Stmt.RegularAll ss
  blockRest : ∀ start seen s, Stmt.RegularAll seen →
    Yields (blockRest fuel start seen) s fun ss _ => Stmt.RegularAll ss

theorem regularSpec_zero : RegularSpec 0 := by
  constructor <;> intros <;>
    simp only [Parser.statement, Parser.fnStatement, Parser.ifStatement, Parser.block,
      Parser.blockRest, yields_bind, yields_peek, yields_failAt]

theorem RegularSpec.statement_succ (h : RegularSpec fuel) (top : Bool) :
    Yields (Parser.statement (fuel + 1) top) s fun st _ => st.Regular := by
  rw [Parser.statement]
  simp only [yields_bind, yields_peek]
  split
  · exact Yields.ite importStatement_regular (yields_failAt _ _)
  · exact Yields.ite enumStatement_regular (yields_failAt _ _)
  · exact letStatement_regular
  · exact h.fnStatement s
  · exact retainStatement_regular
  · exact returnStatement_regular
  · exact (h.ifStatement s).mono fun _ _ hst => hst.2
  · simp only [yields_bind, yields_pure]
    exact h.block s
  · exact simpleStatement_regular

theorem RegularSpec.block_succ (h : RegularSpec fuel) :
    Yields (Parser.block (fuel + 1)) s fun ss _ => Stmt.RegularAll ss := by
  rw [Parser.block]
  simp only [yields_bind]
  apply Yields.of_forall
  intro start s₁
  apply Yields.of_forall
  intro _ s₂
  exact h.blockRest start [] s₂ trivial

theorem RegularSpec.blockRest_succ (h : RegularSpec fuel) (start : Token) (seen : List Stmt)
    (hseen : Stmt.RegularAll seen) :
    Yields (Parser.blockRest (fuel + 1) start seen) s fun ss _ => Stmt.RegularAll ss := by
  rw [Parser.blockRest]
  simp only [yields_bind]
  apply Yields.of_forall
  intro closed s₁
  split
  · simpa only [yields_pure] using hseen
  · simp only [yields_bind, yields_peek]
    split
    · simp
    · simp only [yields_bind]
      refine (h.statement false s₁).mono ?_
      intro st s₂ hst
      apply Yields.of_forall
      intro _ s₃
      exact h.blockRest start _ s₃ ((Stmt.regularAll_append _ _).mpr ⟨hseen, hst, trivial⟩)

theorem RegularSpec.fnStatement_succ (h : RegularSpec fuel) :
    Yields (Parser.fnStatement (fuel + 1)) s fun st _ => st.Regular := by
  rw [Parser.fnStatement]
  simp only [yields_bind, yields_get, yields_peek]
  apply Yields.of_forall
  intro start s₁
  apply Yields.of_forall
  intro name s₂
  apply Yields.of_forall
  intro symbol s₃
  apply Yields.of_forall
  intro paren s₄
  apply Yields.of_forall
  intro ps s₅
  split
  · simp
  · simp only [yields_bind, yields_pure]
    exact h.block s₅

theorem RegularSpec.ifStatement_succ (h : RegularSpec fuel) :
    Yields (Parser.ifStatement (fuel + 1)) s fun st _ => st.declared? = none ∧ st.Regular := by
  rw [Parser.ifStatement]
  simp only [yields_bind, yields_peek]
  apply Yields.of_forall
  intro start s₁
  apply Yields.of_forall
  intro condition s₂
  split
  · simp
  · simp only [yields_bind]
    refine (h.block s₂).mono ?_
    intro body s₃ hbody
    apply Yields.of_forall
    intro other s₄
    split
    · simp only [yields_bind, yields_peek]
      split
      · simp only [yields_bind, yields_pure]
        refine (h.ifStatement s₄).mono ?_
        intro st s₅ hst
        exact ⟨rfl, hbody, hst⟩
      · simp only [yields_bind, yields_pure]
        refine (h.block s₄).mono ?_
        intro ss s₅ hss
        exact ⟨rfl, hbody, rfl, hss⟩
      · simp
    · simp only [yields_pure]
      exact ⟨rfl, hbody, trivial⟩

theorem regularSpec (fuel : Nat) : RegularSpec fuel := by
  induction fuel with
  | zero => exact regularSpec_zero
  | succ fuel ih =>
      constructor
      · exact fun top s => ih.statement_succ top
      · exact fun s => ih.fnStatement_succ
      · exact fun s => ih.ifStatement_succ
      · exact fun s => ih.block_succ
      · exact fun start seen s hseen => ih.blockRest_succ start seen hseen

theorem fileRest_regular (fuel : Nat) (seen : List Stmt) (hseen : Stmt.RegularAll seen) :
    Yields (fileRest fuel seen) s fun ss _ => Stmt.RegularAll ss := by
  induction fuel generalizing s seen with
  | zero => simp only [fileRest, yields_bind, yields_peek, yields_failAt]
  | succ fuel ih =>
      rw [fileRest]
      simp only [yields_bind, yields_peek]
      split
      · simpa only [yields_pure] using hseen
      · simp only [yields_bind]
        refine ((regularSpec fuel).statement true s).mono ?_
        intro st s₁ hst
        apply Yields.of_forall
        intro _ s₂
        exact ih _ ((Stmt.regularAll_append _ _).mpr ⟨hseen, hst, trivial⟩)

theorem file_regular : Yields file s fun ss _ => Stmt.RegularAll ss := by
  simp only [file, yields_bind, yields_get]
  apply Yields.of_forall
  intro _ s₁
  exact fileRest_regular _ [] trivial

end Parser

/-- Every list of statements that is parsed is regular, whatever the program. -/
theorem Program.parseStatements_regular (n : NamespaceId) (p : Program) :
    Yields (parseStatements n) p fun ss _ => Stmt.RegularAll ss := by
  simp only [parseStatements, yields_bind, yields_get]
  split
  · simp
  · split
    · next statements s hrun =>
        simp only [yields_bind, yields_set, yields_pure]
        exact Parser.file_regular statements s hrun
    · simp

end Splice

import Splice.Proofs.Tree.Loading

/-!
# What is written into the nodes of a tree

Binding and analysis fill in what the nodes of a tree read.  Neither of them adds or
removes a node: node by node, what comes out is what went in, except for what a name
reads, for the records, and for the entry of an enum that an access to a member stands for
(`Expr.Annotates`).  Dead code removal only takes nodes away.  So what the parser has put
into a node can be told from the tree at any later time.
-/

namespace Splice

/-- A node and what a later step makes of it; `stands` tells which entries of enums an
access to a member may turn out to stand for. -/
inductive Expr.Annotates (stands : Expr → Text → EntryRead → Prop) : Expr → Expr → Prop
  | number {o v} : Annotates stands (number o v) (number o v)
  | string {o v} : Annotates stands (string o v) (string o v)
  | bool {o v} : Annotates stands (bool o v) (bool o v)
  | nil {o} : Annotates stands (nil o) (nil o)
  | name {o n read read'} : Annotates stands (name o n read) (name o n read')
  | imported {o r m record record'} :
      Annotates stands (imported o r m record) (imported o r m record')
  | member {o x x' n s entry} : Annotates stands (member o x n s entry) (member o x' n s entry)
  | entry {o x n s given e} (h : stands x n e) :
      Annotates stands (member o x n s given) (member o x n s (some e))
  | call {o callee callee' args args'} :
      Annotates stands (call o callee args) (call o callee' args')
  | syscall {o n args args'} : Annotates stands (syscall o n args) (syscall o n args')
  | object {o keys values values'} (h : values'.length = values.length) :
      Annotates stands (object o keys values) (object o keys values')
  | binary {o op a b a' b'} : Annotates stands (binary o op a b) (binary o op a' b')
  | unary {o op a a'} : Annotates stands (unary o op a) (unary o op a')

abbrev Expr.AnnotateAll (stands : Expr → Text → EntryRead → Prop) : List Expr → List Expr → Prop :=
  List.Forall₂ (Annotates stands)

def Stmt.exprs (s : Stmt) : List Expr := s.values.flatMap Expr.nodes

def Stmt.exprsOfAll (ss : List Stmt) : List Expr := (valuesOfAll ss).flatMap Expr.nodes

def Stmt.exprsOfElse (e : Option Stmt) : List Expr := (valuesOfElse e).flatMap Expr.nodes

def Tree.exprs (t : Tree) : List Expr := Stmt.exprsOfAll t.statements

namespace Stmt

variable {s : Stmt} {rest : List Stmt} {x y : Expr}

theorem exprsOfAll_cons : exprsOfAll (s :: rest) = s.exprs ++ exprsOfAll rest :=
  List.flatMap_append

theorem exprs_let {o n sym v u} : (let_ o n sym v u).exprs = v.nodes := List.append_nil _

theorem exprs_assign {o n sym v u} : (assign o n sym v u).exprs = v.nodes := List.append_nil _

theorem exprs_setMember {o sym} : (setMember o x sym y).exprs = x.nodes ++ y.nodes := by
  simp [exprs, values]

theorem exprs_expr : (expr x).exprs = x.nodes := List.append_nil _

theorem exprs_return {o} : (return_ o (some x)).exprs = x.nodes := List.append_nil _

theorem exprs_if {o c b t e} :
    (if_ o c b t e).exprs = c.nodes ++ (exprsOfAll t ++ exprsOfElse e) := by
  simp [exprs, values, exprsOfAll, exprsOfElse]

end Stmt

namespace Expr.AnnotateAll

variable {stands : Expr → Text → EntryRead → Prop} {a b a' b' : List Expr}

theorem append (h : AnnotateAll stands a a') (h' : AnnotateAll stands b b') :
    AnnotateAll stands (a ++ b) (a' ++ b') :=
  List.rel_append h h'

theorem exists_of_mem (h : AnnotateAll stands a b) {y : Expr} (hy : y ∈ b) :
    ∃ x ∈ a, x.Annotates stands y := by
  induction h with
  | nil => cases hy
  | @cons x z a b hnode _ ih =>
      rcases List.mem_cons.mp hy with rfl | hy
      · exact ⟨x, List.mem_cons_self, hnode⟩
      · obtain ⟨x', hx', hnode'⟩ := ih hy
        exact ⟨x', List.mem_cons_of_mem _ hx', hnode'⟩

end Expr.AnnotateAll

theorem Expr.Annotates.refl {stands : Expr → Text → EntryRead → Prop} (x : Expr) :
    x.Annotates stands x := by
  cases x with
  | object o keys values => exact .object rfl
  | _ => constructor

theorem Expr.annotateAll_refl {stands : Expr → Text → EntryRead → Prop} (xs : List Expr) :
    AnnotateAll stands xs xs := by
  have : Std.Refl (Annotates stands) := ⟨Annotates.refl⟩
  exact List.forall₂_refl xs

def Expr.noEntry (_ : Expr) (_ : Text) (_ : EntryRead) : Prop := False

namespace Program

variable {n : NamespaceId}

theorem length_bindExprs (visible : List Text) (es : List Expr) (p : Program) :
    (bindExprs n visible es p).1.length = es.length := by
  induction es generalizing p with
  | nil => rw [bindExprs]; rfl
  | cons x rest ih => rw [bindExprs_cons, List.length_cons, List.length_cons, ih]

mutual

theorem bindExpr_annotates (visible : List Text) (e : Expr) (p : Program) :
    Expr.AnnotateAll Expr.noEntry e.nodes (bindExpr n visible e p).1.nodes := by
  cases e with
  | name o text read => rw [bindExpr]; exact .cons .name .nil
  | member o x name q entry =>
      by_cases hx : ∃ o text read, x = .name o text read
      · obtain ⟨at_, target, read, rfl⟩ := hx
        rw [bindExpr_member_name]
        exact .cons .member (.cons .name .nil)
      · rw [bindExpr_member n visible p (fun o text read h => hx ⟨o, text, read, h⟩)]
        exact .cons .member (bindExpr_annotates visible x p)
  | call o callee args =>
      rw [bindExpr_call]
      exact .cons .call ((bindExpr_annotates visible callee p).append
        (bindExprs_annotates visible args _))
  | syscall o name args =>
      rw [bindExpr_syscall]
      exact .cons .syscall (bindExprs_annotates visible args p)
  | object o keys values =>
      rw [bindExpr_object]
      exact .cons (.object (length_bindExprs visible values p))
        (bindExprs_annotates visible values p)
  | binary o op left right =>
      rw [bindExpr_binary]
      exact .cons .binary ((bindExpr_annotates visible left p).append
        (bindExpr_annotates visible right _))
  | unary o op x =>
      rw [bindExpr_unary]
      exact .cons .unary (bindExpr_annotates visible x p)
  | number o v => rw [bindExpr]; exact Expr.annotateAll_refl _
  | string o v => rw [bindExpr]; exact Expr.annotateAll_refl _
  | bool o v => rw [bindExpr]; exact Expr.annotateAll_refl _
  | nil o => rw [bindExpr]; exact Expr.annotateAll_refl _
  | imported o r m f => rw [bindExpr]; exact Expr.annotateAll_refl _

theorem bindExprs_annotates (visible : List Text) (es : List Expr) (p : Program) :
    Expr.AnnotateAll Expr.noEntry (Expr.nodesOfAll es)
      (Expr.nodesOfAll (bindExprs n visible es p).1) := by
  cases es with
  | nil => rw [bindExprs]; exact .nil
  | cons x rest =>
      rw [bindExprs_cons]
      exact (bindExpr_annotates visible x p).append (bindExprs_annotates visible rest _)

end

mutual

theorem bindStmt_annotates (visible : List Text) (s : Stmt) (p : Program) :
    Expr.AnnotateAll Expr.noEntry s.exprs (bindStmt n visible s p).1.exprs := by
  cases s with
  | let_ o name sym v u =>
      rw [bindStmt_let, Stmt.exprs_let, Stmt.exprs_let]
      exact bindExpr_annotates visible v p
  | fn o name sym params bo body u =>
      rw [bindStmt_fn]
      exact bindStmts_annotates _ body p
  | assign o name sym v u =>
      rw [bindStmt_assign, Stmt.exprs_assign, Stmt.exprs_assign]
      exact bindExpr_annotates visible v p
  | setMember o target q v =>
      rw [bindStmt_setMember, Stmt.exprs_setMember, Stmt.exprs_setMember]
      exact (bindExpr_annotates visible target p).append (bindExpr_annotates visible v _)
  | return_ o v =>
      rw [bindStmt_return]
      cases v with
      | none => exact .nil
      | some x =>
          have hrun : bindOptional n visible (some x) p =
              (some (bindExpr n visible x p).1, (bindExpr n visible x p).2) := rfl
          rw [hrun, Stmt.exprs_return, Stmt.exprs_return]
          exact bindExpr_annotates visible x p
  | if_ o c b t e =>
      rw [bindStmt_if, Stmt.exprs_if, Stmt.exprs_if]
      exact (bindExpr_annotates visible c p).append
        ((bindStmts_annotates _ t _).append (bindElse_annotates visible e _))
  | block o body =>
      rw [bindStmt_block]
      exact bindStmts_annotates _ body p
  | expr x =>
      rw [bindStmt_expr, Stmt.exprs_expr, Stmt.exprs_expr]
      exact bindExpr_annotates visible x p
  | import_ o q path => rw [bindStmt]; exact .nil
  | enum o name es => rw [bindStmt]; exact .nil
  | retain o names => rw [bindStmt]; exact .nil

theorem bindStmts_annotates (visible : List Text) (ss : List Stmt) (p : Program) :
    Expr.AnnotateAll Expr.noEntry (Stmt.exprsOfAll ss)
      (Stmt.exprsOfAll (bindStmts n visible ss p).1) := by
  cases ss with
  | nil => rw [bindStmts]; exact .nil
  | cons s rest =>
      rw [bindStmts_cons, Stmt.exprsOfAll_cons, Stmt.exprsOfAll_cons]
      exact (bindStmt_annotates visible s p).append (bindStmts_annotates visible rest _)

theorem bindElse_annotates (visible : List Text) (e : Option Stmt) (p : Program) :
    Expr.AnnotateAll Expr.noEntry (Stmt.exprsOfElse e)
      (Stmt.exprsOfElse (bindElse n visible e p).1) := by
  cases e with
  | none => rw [bindElse]; exact .nil
  | some s =>
      rw [bindElse]
      exact bindStmt_annotates visible s p

end

end Program

/-! ## Analysis -/

namespace Check

variable {c : CheckContext} {refs : ReferenceId → Reference} {s : ScopeId}

def ReadsEntry (c : CheckContext) (x : Expr) (member : Text) (e : EntryRead) : Prop :=
  ∃ enum entry, enumOfTarget? c x = some enum ∧ enum.entry? member = some entry ∧
    e = ⟨enum.name, entry.name, entry.value⟩

theorem length_checkExprs (es : List Expr) (k : Check) :
    (checkExprs c refs s es k).1.length = es.length := by
  induction es generalizing k with
  | nil => rw [checkExprs_nil]
  | cons x rest ih => rw [checkExprs_cons, List.length_cons, List.length_cons, ih]

mutual

theorem checkExpr_annotates (e : Expr) (k : Check) :
    Expr.AnnotateAll (ReadsEntry c) e.nodes (checkExpr c refs s e k).1.nodes := by
  cases e with
  | name o n read =>
      rw [checkExpr_name]
      split
      · exact Expr.annotateAll_refl _
      · exact .cons .name .nil
  | imported o r m record =>
      rw [checkExpr_imported]
      split
      · exact Expr.annotateAll_refl _
      · exact .cons .imported .nil
  | member o x n p entry =>
      rw [checkExpr_member]
      split
      · exact Expr.annotateAll_refl _
      · split
        · next enum henum =>
            split
            · next found hfound =>
                exact .cons (.entry ⟨enum, found, henum, hfound, rfl⟩) (Expr.annotateAll_refl _)
            · exact Expr.annotateAll_refl _
        · exact .cons .member (checkExpr_annotates x k)
  | call o callee args =>
      rw [checkExpr_call]
      exact .cons .call ((checkExpr_annotates callee k).append (checkExprs_annotates args _))
  | syscall o n args =>
      rw [checkExpr_syscall]
      exact .cons .syscall (checkExprs_annotates args k)
  | object o keys values =>
      rw [checkExpr_object]
      exact .cons (.object (length_checkExprs values k)) (checkExprs_annotates values k)
  | binary o op left right =>
      rw [checkExpr_binary]
      exact .cons .binary ((checkExpr_annotates left k).append (checkExpr_annotates right _))
  | unary o op x =>
      rw [checkExpr_unary]
      exact .cons .unary (checkExpr_annotates x k)
  | number o v => rw [checkExpr]; exact Expr.annotateAll_refl _
  | string o v => rw [checkExpr]; exact Expr.annotateAll_refl _
  | bool o v => rw [checkExpr]; exact Expr.annotateAll_refl _
  | nil o => rw [checkExpr]; exact Expr.annotateAll_refl _

theorem checkExprs_annotates (es : List Expr) (k : Check) :
    Expr.AnnotateAll (ReadsEntry c) (Expr.nodesOfAll es)
      (Expr.nodesOfAll (checkExprs c refs s es k).1) := by
  cases es with
  | nil => rw [checkExprs_nil]; exact .nil
  | cons x rest =>
      rw [checkExprs_cons]
      exact (checkExpr_annotates x k).append (checkExprs_annotates rest _)

end

mutual

theorem checkStmt_annotates {s : ScopeId} (st : Stmt) (k : Check) :
    Expr.AnnotateAll (ReadsEntry c) st.exprs (checkStmt c refs s st k).1.exprs := by
  cases st with
  | let_ o n sym v u =>
      have hvalue : Expr.AnnotateAll (ReadsEntry c) v.nodes (checkExpr c refs s v k).1.nodes :=
        checkExpr_annotates v k
      rw [checkStmt_let, Stmt.exprs_let]
      dsimp only
      split
      · rw [Stmt.exprs_let]
        exact hvalue
      · rw [Stmt.exprs_let]
        exact hvalue
  | fn o n sym ps bo body u =>
      rw [checkStmt_fn]
      split
      · exact Expr.annotateAll_refl _
      · exact checkStmts_annotates body _
  | assign o n sym v u =>
      have hvalue : Expr.AnnotateAll (ReadsEntry c) v.nodes (checkExpr c refs s v k).1.nodes :=
        checkExpr_annotates v k
      rw [checkStmt_assign, Stmt.exprs_assign]
      dsimp only
      split
      · rw [Stmt.exprs_assign]
        exact hvalue
      · split
        · rw [Stmt.exprs_assign]
          exact hvalue
        · rw [Stmt.exprs_assign]
          exact hvalue
  | setMember o target p v =>
      rw [checkStmt_setMember, Stmt.exprs_setMember, Stmt.exprs_setMember]
      exact (checkExpr_annotates target k).append (checkExpr_annotates v _)
  | return_ o v =>
      rw [checkStmt_return]
      cases v with
      | none => exact .nil
      | some x =>
          have hrun : checkOptional c refs s (some x) k =
              (some (checkExpr c refs s x k).1, (checkExpr c refs s x k).2) := rfl
          rw [hrun, Stmt.exprs_return, Stmt.exprs_return]
          exact checkExpr_annotates x k
  | if_ o condition b then_ else_ =>
      have hcondition : Expr.AnnotateAll (ReadsEntry c) condition.nodes
          (checkExpr c refs s condition k).1.nodes := checkExpr_annotates condition k
      rw [checkStmt_if, Stmt.exprs_if]
      dsimp only
      split
      · rw [Stmt.exprs_if]
        exact hcondition.append (Expr.annotateAll_refl _)
      · rw [Stmt.exprs_if]
        exact hcondition.append
          ((checkStmts_annotates then_ _).append (checkElse_annotates else_ _))
  | block o body =>
      rw [checkStmt_block]
      split
      · exact Expr.annotateAll_refl _
      · exact checkStmts_annotates body _
  | expr x =>
      rw [checkStmt_expr, Stmt.exprs_expr, Stmt.exprs_expr]
      exact checkExpr_annotates x k
  | import_ o q path => rw [checkStmt]; exact .nil
  | enum o n es => rw [checkStmt]; exact .nil
  | retain o ns => rw [checkStmt]; exact .nil

theorem checkStmts_annotates {s : ScopeId} (ss : List Stmt) (k : Check) :
    Expr.AnnotateAll (ReadsEntry c) (Stmt.exprsOfAll ss)
      (Stmt.exprsOfAll (checkStmts c refs s ss k).1) := by
  cases ss with
  | nil => rw [checkStmts_nil]; exact .nil
  | cons st rest =>
      rw [checkStmts_cons, Stmt.exprsOfAll_cons, Stmt.exprsOfAll_cons]
      exact (checkStmt_annotates st k).append (checkStmts_annotates rest _)

theorem checkElse_annotates {s : ScopeId} (e : Option Stmt) (k : Check) :
    Expr.AnnotateAll (ReadsEntry c) (Stmt.exprsOfElse e)
      (Stmt.exprsOfElse (checkElse c refs s e k).1) := by
  cases e with
  | none => rw [checkElse_none]; exact .nil
  | some st =>
      rw [checkElse_some]
      exact checkStmt_annotates st k

end

end Check

/-- A pass of dead code removal leaves some of the nodes. -/
theorem Pruning.Pass.exprs_subset {file : NamespaceId} {ss ss' : List Stmt} {k k' : Pruning}
    (h : Pass file ss k ss' k') : Stmt.exprsOfAll ss' ⊆ Stmt.exprsOfAll ss := by
  intro x hx
  obtain ⟨e, he, hx⟩ := List.mem_flatMap.mp hx
  exact List.mem_flatMap.mpr ⟨e, h.mem_values he, hx⟩

end Splice

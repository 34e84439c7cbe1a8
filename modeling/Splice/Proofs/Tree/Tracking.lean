import Splice.Proofs.Ledger.Tracking
import Splice.Proofs.Tree.Analysis
import Splice.Proofs.Tree.Pass

/-!
# Truth values of bindings

Every `let`, assignment and function gives its binding a value.  An analysis without
a mistake gives each of them a record and tells the record the truth value
(`Check.checkStmts_tracks`).  Expressions tell no record anything, and a list of
statements in braces works in a scope of its own, which belongs to the region of the
analysis like the scope around it.
-/

namespace Splice

/-- A value that is constant and counts as true or as false. -/
inductive Expr.Constant : Bool → Expr → Prop
  | bool (o : Nat) (v : Bool) : Constant v (.bool o v)
  | nil (o : Nat) : Constant false (.nil o)
  | number (o : Nat) (v : Int64) : Constant (v != 0) (.number o v)
  | string (o : Nat) (v : Text) : Constant (!v.isEmpty) (.string o v)
  | object (o : Nat) (keys : List SymbolId) (values : List Expr) :
      Constant true (.object o keys values)

theorem Truth.ofBool_injective : Function.Injective Truth.ofBool := by
  intro a b h
  cases a <;> cases b <;> first | rfl | cases h

theorem Expr.constant_of_truth {x : Expr} {v : Bool} (h : x.truth = .ofBool v) :
    x.Constant v := by
  cases x with
  | bool o w =>
      rw [← Truth.ofBool_injective h]
      exact .bool o w
  | nil o =>
      have hfalse : v = false := Truth.ofBool_injective h.symm
      rw [hfalse]
      exact .nil o
  | number o n =>
      rw [← Truth.ofBool_injective h]
      exact .number o n
  | string o text =>
      rw [← Truth.ofBool_injective h]
      exact .string o text
  | object o keys values =>
      have htrue : v = true := Truth.ofBool_injective h.symm
      rw [htrue]
      exact .object o keys values
  | _ => cases v <;> cases h

/-- The record a statement stores into, and what is known of the value. -/
def Stmt.store? : Stmt → Option (Option UsageId × Truth)
  | .let_ _ _ _ value usage => some (usage, value.truth)
  | .assign _ _ _ value usage => some (usage, value.truth)
  | .fn _ _ _ _ _ _ usage => some (usage, .truthy)
  | _ => none

def Node.store? : Node → Option (Option UsageId × Truth)
  | .expr _ => none
  | .stmt s => s.store?

@[simp] theorem Node.store?_expr (x : Expr) : Node.store? (.expr x) = none := rfl

@[simp] theorem Node.store?_stmt (s : Stmt) : Node.store? (.stmt s) = s.store? := rfl

namespace Stmt

def stores (ss : List Stmt) : List (Option UsageId × Truth) :=
  (nodesOfAll ss).filterMap Node.store?

section

attribute [local simp] store?

@[simp] theorem stores_append (a b : List Stmt) : stores (a ++ b) = stores a ++ stores b := by
  simp [stores]

theorem stores_cons (s : Stmt) (rest : List Stmt) :
    stores (s :: rest) = stores [s] ++ stores rest := by
  simp [stores]

@[simp] theorem stores_let (o n s v u) : stores [let_ o n s v u] = [(u, v.truth)] := by
  simp [stores, nodes_let]

@[simp] theorem stores_assign (o n s v u) : stores [assign o n s v u] = [(u, v.truth)] := by
  simp [stores, nodes_assign]

@[simp] theorem stores_fn (o n s ps bo body u) :
    stores [fn o n s ps bo body u] = (u, .truthy) :: stores body := by
  simp [stores, nodes_fn, List.filterMap_cons]

@[simp] theorem stores_block (o body) : stores [block o body] = stores body := by
  simp [stores, nodes_block, List.filterMap_cons]

@[simp] theorem stores_if (o c b t e) :
    stores [if_ o c b t e] = stores t ++ stores e.toList := by
  simp [stores, nodes_if, nodesOfElse_eq, List.filterMap_cons]

@[simp] theorem stores_expr (x) : stores [expr x] = [] := by
  simp [stores, nodes_expr, List.filterMap_cons]

@[simp] theorem stores_setMember (o t p v) : stores [setMember o t p v] = [] := by
  simp [stores, nodes_setMember, List.filterMap_cons]

@[simp] theorem stores_return (o v) : stores [return_ o v] = [] := by
  cases v with
  | none => rfl
  | some x => simp [stores, nodes_return, List.filterMap_cons]

end

theorem mem_stores {ss : List Stmt} {s : Stmt} {e : Option UsageId × Truth}
    (hs : .stmt s ∈ nodesOfAll ss) (he : s.store? = some e) : e ∈ stores ss :=
  List.mem_filterMap.mpr ⟨.stmt s, hs, he⟩

/-- Every store comes from a statement. -/
theorem exists_of_mem_stores {ss : List Stmt} {e : Option UsageId × Truth}
    (he : e ∈ stores ss) : ∃ s, .stmt s ∈ nodesOfAll ss ∧ s.store? = some e := by
  obtain ⟨node, hnode, hstore⟩ := List.mem_filterMap.mp he
  cases node with
  | expr x => cases hstore
  | stmt s => exact ⟨s, hnode, hstore⟩

end Stmt

namespace Check

variable {c : CheckContext} {refs : ReferenceId → Reference} {root : ScopeId} {base : UsageId}

theorem checkName_quiet (s : ScopeId) (o : Nat) (n : Text) (read : NameRead) (k : Check) :
    k.ledger.Quiet (checkName c s o n read k).2.ledger := by
  cases read with
  | unbound => exact Ledger.Quiet.refl _
  | std r record => exact Ledger.quiet_mentionForeign k.ledger s [] n (some ⟨c.file, o⟩)
  | own symbol usage =>
      cases hfind : k.ledger.find? s (Symbol.idOf c.space n) with
      | none =>
          simp only [checkName, bind, StateT.bind, get, getThe, MonadStateOf.get, StateT.get,
            pure, hfind]
          exact Ledger.Quiet.refl _
      | some u =>
          simp only [checkName, bind, StateT.bind, get, getThe, MonadStateOf.get, StateT.get,
            pure, hfind]
          exact Ledger.quiet_modifyUsage k.ledger u
            (fun usage => { usage with readers := usage.readers ++ [⟨c.file, o⟩] }) fun _ => rfl

mutual

theorem checkExpr_quiet (c : CheckContext) (refs : ReferenceId → Reference) (s : ScopeId)
    (e : Expr) (k : Check) :
    k.ledger.Quiet (checkExpr c refs s e k).2.ledger := by
  cases e with
  | name o n read =>
      rw [checkExpr_name]
      split
      · exact Ledger.Quiet.refl _
      · exact checkName_quiet s o n read k
  | imported o r m record =>
      rw [checkExpr_imported]
      split
      · exact Ledger.Quiet.refl _
      · exact Ledger.quiet_mentionForeign k.ledger s _ _ (some ⟨c.file, o⟩)
  | member o x n p entry =>
      rw [checkExpr_member]
      split
      · exact Ledger.Quiet.refl _
      · split
        · split
          · exact Ledger.Quiet.refl _
          · exact Ledger.Quiet.refl _
        · exact checkExpr_quiet c refs s x k
  | call o callee args =>
      rw [checkExpr_call]
      exact (checkExpr_quiet c refs s callee k).trans (checkExprs_quiet c refs s args _)
  | syscall o n args =>
      rw [checkExpr_syscall]
      exact checkExprs_quiet c refs s args k
  | object o keys values =>
      rw [checkExpr_object]
      exact checkExprs_quiet c refs s values k
  | binary o op left right =>
      rw [checkExpr_binary]
      exact (checkExpr_quiet c refs s left k).trans (checkExpr_quiet c refs s right _)
  | unary o op x =>
      rw [checkExpr_unary]
      exact checkExpr_quiet c refs s x k
  | number o v => rw [checkExpr]; exact Ledger.Quiet.refl _
  | string o v => rw [checkExpr]; exact Ledger.Quiet.refl _
  | bool o v => rw [checkExpr]; exact Ledger.Quiet.refl _
  | nil o => rw [checkExpr]; exact Ledger.Quiet.refl _

theorem checkExprs_quiet (c : CheckContext) (refs : ReferenceId → Reference) (s : ScopeId)
    (es : List Expr) (k : Check) :
    k.ledger.Quiet (checkExprs c refs s es k).2.ledger := by
  cases es with
  | nil =>
      rw [checkExprs_nil]
      exact Ledger.Quiet.refl _
  | cons x rest =>
      rw [checkExprs_cons]
      exact (checkExpr_quiet c refs s x k).trans (checkExprs_quiet c refs s rest _)

end

theorem tracks_defined {s : ScopeId} {k : Check} (hk : k.ledger.Region root base)
    (hs : root ≤ s) (n : Text) (x : Truth) :
    Ledger.Tracks root base k.ledger (defined c s k n x).2.ledger
      [(some (defined c s k n x).1, x)] := by
  have hdefine := hk.tracks_define hs (Symbol.idOf c.space n)
  obtain ⟨-, hbase, hlt⟩ := hk.define hs (Symbol.idOf c.space n)
  exact hdefine.trans (hdefine.region.tracks_track hbase hlt x)

theorem tracks_inside {s : ScopeId} {k : Check} (hk : k.ledger.Region root base) (hs : root ≤ s)
    (names : List Text) : Ledger.Tracks root base k.ledger (inside c s k names).ledger [] :=
  (hk.tracks_openChild hs).trans ((hk.openChild hs).tracks_defineAll hk.root_le _)

mutual

theorem checkStmt_tracks {s : ScopeId} (hs : root ≤ s) (st : Stmt) (k : Check)
    (hk : k.ledger.Region root base) (hok : (checkStmt c refs s st k).2.mistake = none) :
    Ledger.Tracks root base k.ledger (checkStmt c refs s st k).2.ledger
      (Stmt.stores [(checkStmt c refs s st k).1]) := by
  have hnone := mistake_checkStmt _ k hok
  cases st with
  | let_ o n sym v u =>
      rw [checkStmt_let] at hok ⊢
      dsimp only at hok ⊢
      obtain ⟨-, hrun⟩ := mistake_of_ite hok
      rw [hrun, Stmt.stores_let]
      have hv := (checkExpr_quiet c refs s v k).tracks hk
      exact hv.trans (tracks_defined hv.region hs n _)
  | fn o n sym ps bo body u =>
      rw [checkStmt_fn, if_neg (by simp [hnone])] at hok ⊢
      dsimp only at hok ⊢
      rw [Stmt.stores_fn]
      have hdefined := tracks_defined (c := c) hk hs n .truthy
      have hinside := tracks_inside (c := c) hdefined.region hs
        (ps.map (·.name) ++ Stmt.declaredNames body)
      exact hdefined.trans (hinside.trans
        (checkStmts_tracks hdefined.region.root_le body _ hinside.region hok))
  | assign o n sym v u =>
      rw [checkStmt_assign] at hok ⊢
      dsimp only at hok ⊢
      obtain ⟨-, hrun⟩ := mistake_of_ite hok
      rw [hrun] at hok ⊢
      have hv := (checkExpr_quiet c refs s v k).tracks hk
      cases hfind : (checkExpr c refs s v k).2.ledger.find? s (Symbol.idOf c.space n) with
      | none =>
          rw [hfind] at hok
          exact absurd hok (mistake_fail _ _ _)
      | some w =>
          obtain ⟨hbase, hlt⟩ := hv.region.find? hs hfind
          have hmark : Ledger.Tracks root base _
              ((checkExpr c refs s v k).2.ledger.markDefined w) [] :=
            Ledger.tracks_of_truth (hv.region.modifyUsage w _) (Ledger.truth_markDefined _ w)
          rw [Stmt.stores_assign]
          refine hv.trans (hmark.trans (hmark.region.tracks_track hbase ?_ _))
          rw [Ledger.markDefined, Ledger.size_modifyUsage]
          exact hlt
  | setMember o t p v =>
      rw [checkStmt_setMember, Stmt.stores_setMember]
      exact ((checkExpr_quiet c refs s t k).trans (checkExpr_quiet c refs s v _)).tracks hk
  | return_ o v =>
      rw [checkStmt_return, Stmt.stores_return]
      cases v with
      | none => exact (Ledger.Quiet.refl _).tracks hk
      | some x => exact (checkExpr_quiet c refs s x k).tracks hk
  | if_ o condition b t e =>
      rw [checkStmt_if] at hok ⊢
      dsimp only at hok ⊢
      obtain ⟨-, hrun⟩ := mistake_of_ite hok
      rw [hrun] at hok ⊢
      rw [Stmt.stores_if]
      have hc := (checkExpr_quiet c refs s condition k).tracks hk
      have hinside := tracks_inside (c := c) hc.region hs (Stmt.declaredNames t)
      have hthen := checkStmts_tracks hc.region.root_le t _ hinside.region
        (mistake_checkElse e _ hok)
      exact hc.trans ((hinside.trans hthen).trans (checkElse_tracks hs e _ hthen.region hok))
  | block o body =>
      rw [checkStmt_block, if_neg (by simp [hnone])] at hok ⊢
      dsimp only at hok ⊢
      rw [Stmt.stores_block]
      have hinside := tracks_inside (c := c) hk hs (Stmt.declaredNames body)
      exact hinside.trans (checkStmts_tracks hk.root_le body _ hinside.region hok)
  | expr x =>
      rw [checkStmt_expr, Stmt.stores_expr]
      exact (checkExpr_quiet c refs s x k).tracks hk
  | import_ o q p => rw [checkStmt]; exact (Ledger.Quiet.refl _).tracks hk
  | enum o n es => rw [checkStmt]; exact (Ledger.Quiet.refl _).tracks hk
  | retain o ns => rw [checkStmt]; exact (Ledger.Quiet.refl _).tracks hk

/-- The analysis tells the records of a region about every store of the statements. -/
theorem checkStmts_tracks {s : ScopeId} (hs : root ≤ s) (ss : List Stmt) (k : Check)
    (hk : k.ledger.Region root base) (hok : (checkStmts c refs s ss k).2.mistake = none) :
    Ledger.Tracks root base k.ledger (checkStmts c refs s ss k).2.ledger
      (Stmt.stores (checkStmts c refs s ss k).1) := by
  cases ss with
  | nil =>
      rw [checkStmts_nil]
      exact (Ledger.Quiet.refl _).tracks hk
  | cons st rest =>
      rw [checkStmts_cons] at hok ⊢
      have hst := checkStmt_tracks hs st k hk (mistake_checkStmts rest _ hok)
      rw [Stmt.stores_cons]
      exact hst.trans (checkStmts_tracks hs rest _ hst.region hok)

theorem checkElse_tracks {s : ScopeId} (hs : root ≤ s) (e : Option Stmt) (k : Check)
    (hk : k.ledger.Region root base) (hok : (checkElse c refs s e k).2.mistake = none) :
    Ledger.Tracks root base k.ledger (checkElse c refs s e k).2.ledger
      (Stmt.stores (checkElse c refs s e k).1.toList) := by
  cases e with
  | none =>
      rw [checkElse_none]
      exact (Ledger.Quiet.refl _).tracks hk
  | some st =>
      rw [checkElse_some] at hok ⊢
      exact checkStmt_tracks hs st k hk hok

end

end Check

end Splice

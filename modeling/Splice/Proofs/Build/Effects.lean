import Splice.Proofs.Build.Pruning
import Splice.Proofs.Tree.Pass

/-!
# Dead code removal and effects

The effects of a tree are its calls, in the order of its nodes.  `Pruning.fates` gives
each call of some statements its fate in a pass: it is kept, or it stands in the body
of a function that is unread when the pass comes to it, or in the branch that an `if`
with a constant condition does not take.  The calls with their fates are the calls
before the pass, and those that are kept are the calls after it
(`Program.prune_keeps_effects`), so nothing else is lost, doubled or moved.

Two facts carry the proof.  A value that goes without an effect holds no call, and
neither does a constant condition.
-/

namespace Splice

def Node.call? : Node → Option Expr
  | .expr x => if x.isCall then some x else none
  | .stmt _ => none

def Node.calls (nodes : List Node) : List Expr := nodes.filterMap Node.call?

namespace Pruning

inductive Fate where
  | kept
  | inUnreadFunction
  | inUntakenBranch
deriving DecidableEq, Repr

def meeting (fate : Fate) (nodes : List Node) : List (Expr × Fate) :=
  (Node.calls nodes).map fun x => (x, fate)

def keptCalls (fates : List (Expr × Fate)) : List Expr :=
  fates.filterMap fun (x, fate) => if fate = .kept then some x else none

@[simp] theorem calls_append (a b : List Node) :
    Node.calls (a ++ b) = Node.calls a ++ Node.calls b :=
  List.filterMap_append

@[simp] theorem calls_stmt (s : Stmt) (a : List Node) :
    Node.calls (.stmt s :: a) = Node.calls a := rfl

@[simp] theorem map_fst_meeting (fate : Fate) (a : List Node) :
    (meeting fate a).map Prod.fst = Node.calls a := by
  simp [meeting, Function.comp_def]

@[simp] theorem keptCalls_append (x y : List (Expr × Fate)) :
    keptCalls (x ++ y) = keptCalls x ++ keptCalls y :=
  List.filterMap_append

theorem keptCalls_meeting (fate : Fate) (a : List Node) :
    keptCalls (meeting fate a) = if fate = .kept then Node.calls a else [] := by
  by_cases h : fate = .kept
  · simp [keptCalls, meeting, List.filterMap_map, h]
  · simp [keptCalls, meeting, List.filterMap_map, h]

/-- A value without an effect holds no call. -/
theorem calls_of_isPure {x : Expr} (h : x.isPure = true) : Node.calls (exprNodes x) = [] := by
  unfold Node.calls exprNodes
  rw [List.filterMap_eq_nil_iff]
  intro node hnode
  obtain ⟨y, hy, rfl⟩ := List.mem_map.mp hnode
  have hcall := List.all_eq_true.mp h y hy
  rw [Bool.not_eq_true'] at hcall
  simp [Node.call?, hcall]

theorem isPure_of_constant? {l : Ledger} {v : Bool} (x : Expr)
    (h : x.constant? l = some v) : x.isPure = true := by
  cases x with
  | bool o w => rfl
  | nil o => rfl
  | name o n read => rfl
  | unary o op x =>
      cases op with
      | not =>
          obtain ⟨w, hw, -⟩ := Option.map_eq_some_iff.mp h
          exact isPure_of_constant? x hw
      | neg => cases h
  | _ => cases h

variable {file : NamespaceId}

mutual

/-- The calls of a statement, each with its fate in a pass that comes to the statement
in a given state. -/
def fates (file : NamespaceId) : Stmt → Pruning → List (Expr × Fate)
  | .fn _ _ _ _ _ body usage, k =>
      if isDead k.ledger usage then meeting .inUnreadFunction (Stmt.nodesOfAll body)
      else fatesOfAll file body k
  | .block _ body, k => fatesOfAll file body k
  | .if_ _ condition _ then_ else_, k =>
      -- A constant condition goes as well, but it holds no call.
      meeting .kept (exprNodes condition) ++
        match condition.constant? k.ledger with
        | some true =>
            fatesOfAll file then_
                ⟨k.ledger.releaseAll file (exprNodes condition ++ Stmt.nodesOfElse else_), true⟩ ++
              meeting .inUntakenBranch (Stmt.nodesOfElse else_)
        | some false =>
            meeting .inUntakenBranch (Stmt.nodesOfAll then_) ++
              fatesOfElse file else_
                ⟨k.ledger.releaseAll file (exprNodes condition ++ Stmt.nodesOfAll then_), true⟩
        | none =>
            fatesOfAll file then_ k ++ fatesOfElse file else_ (pruneStmts file then_ k).2
  | s, _ => meeting .kept s.nodes

def fatesOfAll (file : NamespaceId) : List Stmt → Pruning → List (Expr × Fate)
  | [], _ => []
  | s :: rest, k => fates file s k ++ fatesOfAll file rest (pruneStmt file s k).2

def fatesOfElse (file : NamespaceId) : Option Stmt → Pruning → List (Expr × Fate)
  | none, _ => []
  | some s, k => fates file s k

end

theorem fates_of_isSimple {s : Stmt} (h : s.isSimple = true) (k : Pruning) :
    fates file s k = meeting .kept s.nodes := by
  cases s with
  | fn o n sym ps bo body u => cases h
  | block o body => cases h
  | if_ o c b t e => cases h
  | _ => rfl

mutual

theorem map_fst_fates (s : Stmt) (k : Pruning) :
    (fates file s k).map Prod.fst = Node.calls s.nodes := by
  cases s with
  | fn o n sym ps bo body u =>
      rw [fates, Stmt.nodes_fn, calls_stmt, calls_stmt]
      split
      · exact map_fst_meeting _ _
      · exact map_fst_fatesOfAll body k
  | block o body =>
      rw [fates, Stmt.nodes_block, calls_stmt]
      exact map_fst_fatesOfAll body k
  | if_ o c b t e =>
      simp only [fates, Stmt.nodes_if, List.map_append, map_fst_meeting, List.append_assoc,
        List.cons_append, calls_stmt, calls_append]
      congr 1
      cases c.constant? k.ledger with
      | none =>
          dsimp only
          rw [List.map_append, map_fst_fatesOfAll, map_fst_fatesOfElse]
      | some value =>
          cases value with
          | true =>
              dsimp only
              rw [List.map_append, map_fst_fatesOfAll, map_fst_meeting]
          | false =>
              dsimp only
              rw [List.map_append, map_fst_fatesOfElse, map_fst_meeting]
  | _ => exact map_fst_meeting _ _

theorem map_fst_fatesOfAll (ss : List Stmt) (k : Pruning) :
    (fatesOfAll file ss k).map Prod.fst = Node.calls (Stmt.nodesOfAll ss) := by
  cases ss with
  | nil => rfl
  | cons s rest =>
      rw [fatesOfAll, List.map_append, map_fst_fates, map_fst_fatesOfAll, Stmt.nodesOfAll_cons,
        calls_append]

theorem map_fst_fatesOfElse (e : Option Stmt) (k : Pruning) :
    (fatesOfElse file e k).map Prod.fst = Node.calls (Stmt.nodesOfElse e) := by
  cases e with
  | none => rfl
  | some s => exact map_fst_fates s k

end

theorem keptCalls_fates_of_isInert {s : Stmt} (h : isInert s = true) (k : Pruning) :
    keptCalls (fates file s k) = Node.calls (Stmt.nodesOfAll (pruneStmt file s k).1.toList) := by
  have hsimple : s.isSimple = true := by cases s <;> first | rfl | cases h
  rw [fates_of_isSimple hsimple, keptCalls_meeting, if_pos rfl, pruneStmt_of_isInert file k h]
  simp

mutual

theorem keptCalls_fates (s : Stmt) (k : Pruning) :
    keptCalls (fates file s k) = Node.calls (Stmt.nodesOfAll (pruneStmt file s k).1.toList) := by
  cases s with
  | let_ o n sym v u =>
      rw [fates_of_isSimple rfl, keptCalls_meeting, if_pos rfl, pruneStmt_let, Stmt.nodes_let,
        calls_stmt]
      split
      · next hdead =>
          rw [Bool.and_eq_true] at hdead
          exact calls_of_isPure hdead.2
      · simp [Stmt.nodes_let]
  | assign o n sym v u =>
      rw [fates_of_isSimple rfl, keptCalls_meeting, if_pos rfl, pruneStmt_assign,
        Stmt.nodes_assign, calls_stmt]
      split
      · split
        · next hpure => exact calls_of_isPure hpure
        · simp [Stmt.nodes_expr]
      · simp [Stmt.nodes_assign]
  | fn o n sym ps bo body u =>
      rw [fates, pruneStmt_fn]
      split
      · exact keptCalls_meeting _ _
      · rw [keptCalls_fatesOfAll]
        simp [Stmt.nodes_fn]
  | block o body =>
      rw [fates, pruneStmt_block, keptCalls_fatesOfAll]
      simp [Stmt.nodes_block]
  | if_ o c b t e =>
      rw [fates, keptCalls_append, keptCalls_meeting, if_pos rfl]
      cases hc : c.constant? k.ledger with
      | none =>
          rw [pruneStmt_if_none _ _ _ _ _ _ _ hc]
          dsimp only
          rw [keptCalls_append, keptCalls_fatesOfAll, keptCalls_fatesOfElse]
          simp [Stmt.nodes_if, exprNodes, Stmt.nodesOfElse_eq]
      | some value =>
          rw [calls_of_isPure (isPure_of_constant? c hc), List.nil_append]
          cases value with
          | true =>
              rw [pruneStmt_if_true _ _ _ _ _ _ _ hc]
              dsimp only
              rw [keptCalls_append, keptCalls_fatesOfAll, keptCalls_meeting, if_neg nofun]
              simp [Stmt.nodes_block]
          | false =>
              rw [pruneStmt_if_false _ _ _ _ _ _ _ hc]
              dsimp only
              rw [keptCalls_append, keptCalls_meeting, if_neg nofun, keptCalls_fatesOfElse]
              rfl
  | import_ o q p => exact keptCalls_fates_of_isInert rfl k
  | enum o n es => exact keptCalls_fates_of_isInert rfl k
  | retain o ns => exact keptCalls_fates_of_isInert rfl k
  | return_ o v => exact keptCalls_fates_of_isInert rfl k
  | setMember o t p v => exact keptCalls_fates_of_isInert rfl k
  | expr x => exact keptCalls_fates_of_isInert rfl k

theorem keptCalls_fatesOfAll (ss : List Stmt) (k : Pruning) :
    keptCalls (fatesOfAll file ss k) = Node.calls (Stmt.nodesOfAll (pruneStmts file ss k).1) := by
  cases ss with
  | nil => rfl
  | cons s rest =>
      rw [fatesOfAll, pruneStmts_cons, keptCalls_append, keptCalls_fates, keptCalls_fatesOfAll,
        Stmt.nodesOfAll_append, calls_append]

theorem keptCalls_fatesOfElse (e : Option Stmt) (k : Pruning) :
    keptCalls (fatesOfElse file e k) =
      Node.calls (Stmt.nodesOfAll (pruneElse file e k).1.toList) := by
  cases e with
  | none =>
      rw [pruneElse_none]
      rfl
  | some s =>
      rw [pruneElse_some]
      exact keptCalls_fates s k

end

end Pruning

/-- Of all calls of a tree, in their order, a pass takes just those in functions that
it finds unread and in branches that are not taken. -/
theorem Program.prune_keeps_effects (t : Tree) (p : Program) :
    let fates := Pruning.fatesOfAll t.owner t.statements { ledger := p.ledger }
    fates.map Prod.fst = Node.calls t.nodes ∧
      Pruning.keptCalls fates = Node.calls (prune t p).1.1.nodes := by
  constructor
  · exact Pruning.map_fst_fatesOfAll t.statements _
  · rw [prune_tree]
    exact Pruning.keptCalls_fatesOfAll t.statements _

end Splice

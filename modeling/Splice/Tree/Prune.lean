import Splice.Tree.Node
import Splice.Tree.Check

/-!
# Removing dead code

One pass over a tree removes the bindings that nobody reads and the branches that
are never taken.  A `let` goes if its value has no effect, a function goes with
its body, and an assignment gives way to its value, or goes as well if that has no
effect.  An `if` whose condition is constant gives way to the branch it takes.
What goes gives up its reads, so that a later pass may find more to remove.
-/

namespace Splice

/-- The constant truth value of a condition, if analysis found one. -/
def Expr.constant? (l : Ledger) : Expr → Option Bool
  | .bool _ v => some v
  | .nil _ => some false
  | .name _ _ (.own _ (some u)) => (l.usage u).truth.constant?
  | .unary _ .not x => (constant? l x).map (!·)
  | _ => none

/-- The ledger during a pass, and whether the pass has removed anything. -/
structure Pruning where
  ledger : Ledger
  changed : Bool := false

namespace Pruning

/-- Notes that something goes, and takes its reads off the ledger. -/
def drop (file : NamespaceId) (nodes : List Node) : StateM Pruning Unit :=
  modify fun k => ⟨k.ledger.releaseAll file nodes, true⟩

/-- A binding with a record that nobody reads. -/
def isDead (l : Ledger) (usage : Option UsageId) : Bool :=
  usage.any fun u => !(l.usage u).isRead

def exprNodes (x : Expr) : List Node := x.nodes.map Node.expr

mutual

/-- What is kept of a statement, if anything. -/
def pruneStmt (file : NamespaceId) : Stmt → StateM Pruning (Option Stmt)
  | .let_ o name s value usage => do
      if isDead (← get).ledger usage && value.isPure then
        drop file (exprNodes value)
        return none
      else return some (.let_ o name s value usage)
  | .assign o name s value usage => do
      if isDead (← get).ledger usage then
        if value.isPure then
          drop file (exprNodes value)
          return none
        else
          drop file []
          return some (.expr value)
      else return some (.assign o name s value usage)
  | .fn o name s params bo body usage => do
      if isDead (← get).ledger usage then
        drop file (Stmt.nodesOfAll body)
        return none
      else return some (.fn o name s params bo (← pruneStmts file body) usage)
  | .block o body => return some (.block o (← pruneStmts file body))
  | .if_ o condition blockAt then_ else_ => do
      match condition.constant? (← get).ledger with
      | some true =>
          drop file (exprNodes condition)
          drop file (Stmt.nodesOfElse else_)
          return some (.block blockAt (← pruneStmts file then_))
      | some false =>
          drop file (exprNodes condition)
          drop file (Stmt.nodesOfAll then_)
          pruneElse file else_
      | none =>
          let then_ ← pruneStmts file then_
          return some (.if_ o condition blockAt then_ (← pruneElse file else_))
  | .import_ o a p => return some (.import_ o a p)
  | .enum o name es => return some (.enum o name es)
  | .retain o names => return some (.retain o names)
  | .return_ o value => return some (.return_ o value)
  | .setMember o target p value => return some (.setMember o target p value)
  | .expr x => return some (.expr x)

def pruneStmts (file : NamespaceId) : List Stmt → StateM Pruning (List Stmt)
  | [] => return []
  | s :: rest => do
      let kept ← pruneStmt file s
      return kept.toList ++ (← pruneStmts file rest)

def pruneElse (file : NamespaceId) : Option Stmt → StateM Pruning (Option Stmt)
  | none => return none
  | some s => pruneStmt file s

end

end Pruning

namespace Program

/-- One pass over a tree; whether it removed anything comes along. -/
def prune (t : Tree) : StateM Program (Tree × Bool) := do
  let p ← get
  let (statements, k) := Pruning.pruneStmts t.owner t.statements { ledger := p.ledger }
  set ({ p with ledger := k.ledger }.advanceIfBefore t.owner .pruned)
  return ({ t with statements }, k.changed)

end Program

end Splice

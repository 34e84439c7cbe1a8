import Splice.Tree.Basic

/-!
# Nodes of a tree

`Expr.nodes` and `Stmt.nodes` list the nodes of a tree, each before what it is
made of.
-/

namespace Splice

inductive Node where
  | expr (e : Expr)
  | stmt (s : Stmt)
deriving Repr, Inhabited

def Node.offset : Node → Nat
  | expr e => e.offset
  | stmt s => s.offset

namespace Expr

mutual

/-- An expression and everything inside it. -/
def nodes : Expr → List Expr
  | number o v => [number o v]
  | string o v => [string o v]
  | bool o v => [bool o v]
  | nil o => [nil o]
  | name o n r => [name o n r]
  | imported o r m f => [imported o r m f]
  | member o x n p e => member o x n p e :: nodes x
  | call o callee args => call o callee args :: (nodes callee ++ nodesOfAll args)
  | syscall o n args => syscall o n args :: nodesOfAll args
  | object o keys values => object o keys values :: nodesOfAll values
  | binary o op a b => binary o op a b :: (nodes a ++ nodes b)
  | unary o op a => unary o op a :: nodes a

def nodesOfAll : List Expr → List Expr
  | [] => []
  | e :: rest => nodes e ++ nodesOfAll rest

end

/-- Calls of functions and of the machine. -/
def isCall : Expr → Bool
  | call _ _ _ => true
  | syscall _ _ _ => true
  | _ => false

/-- Evaluating the expression can have no effect. -/
def isPure (e : Expr) : Bool := e.nodes.all fun x => !x.isCall

end Expr

namespace Stmt

private def exprNodes (e : Expr) : List Node := e.nodes.map Node.expr

mutual

/-- A statement and everything inside it. -/
def nodes : Stmt → List Node
  | import_ o a p => [.stmt (import_ o a p)]
  | enum o n es => [.stmt (enum o n es)]
  | let_ o n s v u => .stmt (let_ o n s v u) :: exprNodes v
  | fn o n s ps bo body u =>
      .stmt (fn o n s ps bo body u) :: .stmt (block bo body) :: nodesOfAll body
  | retain o ns => [.stmt (retain o ns)]
  | return_ o v => .stmt (return_ o v) :: (v.toList.flatMap exprNodes)
  | if_ o c blockAt then_ else_ =>
      .stmt (if_ o c blockAt then_ else_) ::
        (exprNodes c ++ .stmt (block blockAt then_) :: nodesOfAll then_ ++ nodesOfElse else_)
  | block o body => .stmt (block o body) :: nodesOfAll body
  | assign o n s v u => .stmt (assign o n s v u) :: exprNodes v
  | setMember o t p v => .stmt (setMember o t p v) :: (exprNodes t ++ exprNodes v)
  | expr x => .stmt (expr x) :: exprNodes x

def nodesOfAll : List Stmt → List Node
  | [] => []
  | s :: rest => nodes s ++ nodesOfAll rest

def nodesOfElse : Option Stmt → List Node
  | none => []
  | some s => nodes s

end

end Stmt

def Tree.nodes (t : Tree) : List Node := Stmt.nodesOfAll t.statements

/-! ## Reads -/

/-- A place that reads a binding or a foreign name, with the records it is listed
in. -/
structure Read where
  offset : Nat
  usage : Option UsageId
  record : Option ForeignId
deriving DecidableEq, Repr, Inhabited

/-- The read that an expression performs by itself. -/
def Expr.read? : Expr → Option Read
  | name o _ (.own _ usage) => some ⟨o, usage, none⟩
  | name o _ (.std _ record) => some ⟨o, none, record⟩
  | imported o _ _ record => some ⟨o, none, record⟩
  | _ => none

def Node.read? : Node → Option Read
  | expr e => e.read?
  | stmt _ => none

/-- Takes a read off the records it is listed in. -/
def Ledger.release (file : NamespaceId) (l : Ledger) (r : Read) : Ledger :=
  let reader : Reader := ⟨file, r.offset⟩
  let l := match r.usage with
    | some u => l.removeReader u reader
    | none => l
  match r.record with
  | some f => l.removeForeignReader f reader
  | none => l

/-- Takes all reads inside some nodes off the records. -/
def Ledger.releaseAll (file : NamespaceId) (l : Ledger) (nodes : List Node) : Ledger :=
  (nodes.filterMap Node.read?).foldl (Ledger.release file) l

end Splice

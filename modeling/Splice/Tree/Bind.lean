import Splice.Tree.Parser

/-!
# Binding names

Binding decides for every bare name whether it reads a binding of its own
namespace or a name of the standard library.  A name is visible in the whole list
of statements that declares it by `let` or `fn`, and parameters in the whole body
of their function.  A visible name is given a symbol of its own namespace; a name
that is neither visible nor an enum of the namespace becomes a reference to the
standard library.
-/

namespace Splice

/-- The names that statements declare directly. -/
def Stmt.declaredNames (statements : List Stmt) : List Text :=
  statements.filterMap fun s => s.declared?.map (·.1)

namespace Program

/-- Binds one bare name; `member` is the name accessed on it, or empty. -/
def bindName (n : NamespaceId) (visible : List Text) (member : Text) (offset : Nat)
    (name : Text) : StateM Program NameRead := do
  let p ← get
  if visible.contains name then
    let (s, p) := p.addSymbol n name
    set p
    return .own s none
  else if ((p.spaceAt n).enum? name).isSome then return .unbound
  else
    let (r, p) := p.addReference n [] name member offset
    set p
    return .std r none

mutual

def bindExpr (n : NamespaceId) (visible : List Text) : Expr → StateM Program Expr
  | .name o name _ => return .name o name (← bindName n visible [] o name)
  | .member o (.name nameAt target _) name p e => do
      let read ← bindName n visible name nameAt target
      return .member o (.name nameAt target read) name p e
  | .member o x name p e => return .member o (← bindExpr n visible x) name p e
  | .call o callee args => do
      let callee ← bindExpr n visible callee
      return .call o callee (← bindExprs n visible args)
  | .syscall o name args => return .syscall o name (← bindExprs n visible args)
  | .object o keys values => return .object o keys (← bindExprs n visible values)
  | .binary o op left right => do
      let left ← bindExpr n visible left
      return .binary o op left (← bindExpr n visible right)
  | .unary o op x => return .unary o op (← bindExpr n visible x)
  | .number o v => return .number o v
  | .string o v => return .string o v
  | .bool o v => return .bool o v
  | .nil o => return .nil o
  | .imported o r m f => return .imported o r m f

def bindExprs (n : NamespaceId) (visible : List Text) : List Expr → StateM Program (List Expr)
  | [] => return []
  | x :: rest => do
      let x ← bindExpr n visible x
      return x :: (← bindExprs n visible rest)

end

def bindOptional (n : NamespaceId) (visible : List Text) :
    Option Expr → StateM Program (Option Expr)
  | none => return none
  | some x => return some (← bindExpr n visible x)

mutual

def bindStmt (n : NamespaceId) (visible : List Text) : Stmt → StateM Program Stmt
  | .let_ o name s value u => return .let_ o name s (← bindExpr n visible value) u
  | .fn o name s params bo body u => do
      let inner := Stmt.declaredNames body ++ params.map (·.name) ++ visible
      return .fn o name s params bo (← bindStmts n inner body) u
  | .assign o name s value u => return .assign o name s (← bindExpr n visible value) u
  | .setMember o target p value => do
      let target ← bindExpr n visible target
      return .setMember o target p (← bindExpr n visible value)
  | .return_ o value => return .return_ o (← bindOptional n visible value)
  | .if_ o c blockAt then_ else_ => do
      let c ← bindExpr n visible c
      let then_ ← bindStmts n (Stmt.declaredNames then_ ++ visible) then_
      return .if_ o c blockAt then_ (← bindElse n visible else_)
  | .block o body => return .block o (← bindStmts n (Stmt.declaredNames body ++ visible) body)
  | .expr x => return .expr (← bindExpr n visible x)
  | .import_ o a p => return .import_ o a p
  | .enum o name es => return .enum o name es
  | .retain o names => return .retain o names

/-- Binds statements among which all of `visible` can be read. -/
def bindStmts (n : NamespaceId) (visible : List Text) : List Stmt → StateM Program (List Stmt)
  | [] => return []
  | s :: rest => do
      let s ← bindStmt n visible s
      return s :: (← bindStmts n visible rest)

def bindElse (n : NamespaceId) (visible : List Text) :
    Option Stmt → StateM Program (Option Stmt)
  | none => return none
  | some s => return some (← bindStmt n visible s)

end

/-- Reads the source of a namespace into a tree whose names are bound. -/
def parse (n : NamespaceId) : Linking Tree := do
  let statements ← parseStatements n
  let (bound, p) := bindStmts n (Stmt.declaredNames statements) statements (← get)
  set p
  advance n .parsed
  return { owner := n, statements := bound }

end Program

end Splice

import Splice.Tree.Bind

/-!
# Analysing reads and definitions

Analysis walks over a tree and enters every definition and every read into the
ledger.  Each list of statements has a scope of its own, which holds what it
declares from its start on; parameters belong to the scope of the function's
body.  The nodes of the tree are given the records they belong to.  At the first
mistake the rest of the tree is left as it is.
-/

namespace Splice

/-- The truth value of a literal. -/
def Expr.truth : Expr → Truth
  | .bool _ v => Truth.ofBool v
  | .nil _ => .falsy
  | .number _ v => Truth.ofBool (v != 0)
  | .string _ v => Truth.ofBool (!v.isEmpty)
  | .object _ _ _ => .truthy
  | _ => .unknown

/-- What analysis knows of the namespace it works on. -/
structure CheckContext where
  file : NamespaceId
  space : Text
  unit : SourceUnit
  enums : List Enumeration

/-- What analysis has found so far. -/
structure Check where
  ledger : Ledger
  mistake : Option Diagnostic := none

abbrev Checking := StateM Check

namespace Check

/-- Works on something only as long as there was no mistake. -/
def unlessFailed {α : Type} (x : α) (work : Checking α) : Checking α := do
  if (← get).mistake.isSome then return x else work

def fail (c : CheckContext) (offset : Nat) (message : Text) : Checking Unit :=
  modify fun k => { k with mistake := some ⟨message, some c.unit, offset⟩ }

def define (c : CheckContext) (s : ScopeId) (name : Text) : Checking UsageId := do
  let k ← get
  let (u, ledger) := k.ledger.define s (Symbol.idOf c.space name)
  set { k with ledger }
  return u

def track (u : UsageId) (v : Truth) : Checking Unit :=
  modify fun k => { k with ledger := k.ledger.track u v }

def openChild (s : ScopeId) : Checking ScopeId := do
  let k ← get
  let (child, ledger) := k.ledger.openChild s
  set { k with ledger }
  return child

def readForeign (c : CheckContext) (s : ScopeId) (qualifier name : Text) (offset : Nat) :
    Checking ForeignId := do
  let k ← get
  let (f, ledger) := k.ledger.mentionForeign s qualifier name (some ⟨c.file, offset⟩)
  set { k with ledger }
  return f

def checkName (c : CheckContext) (s : ScopeId) (offset : Nat) (name : Text) :
    NameRead → Checking NameRead
  | .own symbol usage => do
      let k ← get
      match k.ledger.find? s (Symbol.idOf c.space name) with
      | none =>
          fail c offset (name ++ " is bound but no enclosing scope declares it")
          return .own symbol usage
      | some u =>
          set { k with ledger := k.ledger.addReader u ⟨c.file, offset⟩ }
          return .own symbol (some u)
  | .std reference _ => do
      let f ← readForeign c s [] name offset
      return .std reference (some f)
  | .unbound => do
      fail c offset ("enum " ++ name ++ " cannot be used as a value")
      return .unbound

/-- Looks up the entry that a member access names, if its target is a free name
that is an enum of the namespace. -/
def enumOfTarget? (c : CheckContext) : Expr → Option Enumeration
  | .name _ _ (.own _ _) => none
  | .name _ name _ => c.enums.find? (·.name == name)
  | _ => none

mutual

/-- `refs` gives the alias and name of a reference. -/
def checkExpr (c : CheckContext) (refs : ReferenceId → Reference) (s : ScopeId) :
    Expr → Checking Expr
  | .name o name read => unlessFailed (.name o name read) do
      return .name o name (← checkName c s o name read)
  | .imported o r m record => unlessFailed (.imported o r m record) do
      let f ← readForeign c s (refs r).qualifier (refs r).name o
      return .imported o r m (some f)
  | .member o x name p entry => unlessFailed (.member o x name p entry) do
      match enumOfTarget? c x with
      | some enum =>
          match enum.entry? name with
          | some e => return .member o x name p (some ⟨enum.name, e.name, e.value⟩)
          | none =>
              fail c o ("enum " ++ enum.name ++ " has no entry " ++ name)
              return .member o x name p entry
      | none => return .member o (← checkExpr c refs s x) name p entry
  | .call o callee args => do
      let callee ← checkExpr c refs s callee
      return .call o callee (← checkExprs c refs s args)
  | .syscall o name args => return .syscall o name (← checkExprs c refs s args)
  | .object o keys values => return .object o keys (← checkExprs c refs s values)
  | .binary o op left right => do
      let left ← checkExpr c refs s left
      return .binary o op left (← checkExpr c refs s right)
  | .unary o op x => return .unary o op (← checkExpr c refs s x)
  | .number o v => return .number o v
  | .string o v => return .string o v
  | .bool o v => return .bool o v
  | .nil o => return .nil o

def checkExprs (c : CheckContext) (refs : ReferenceId → Reference) (s : ScopeId) :
    List Expr → Checking (List Expr)
  | [] => return []
  | x :: rest => do
      let x ← checkExpr c refs s x
      return x :: (← checkExprs c refs s rest)

end

def checkOptional (c : CheckContext) (refs : ReferenceId → Reference) (s : ScopeId) :
    Option Expr → Checking (Option Expr)
  | none => return none
  | some x => return some (← checkExpr c refs s x)

/-- Enters what statements declare, so that all of them can read it. -/
def hoist (c : CheckContext) (s : ScopeId) (statements : List Stmt) : Checking Unit :=
  unlessFailed () do
    for name in Stmt.declaredNames statements do
      let _ ← define c s name

mutual

def checkStmt (c : CheckContext) (refs : ReferenceId → Reference) (s : ScopeId) :
    Stmt → Checking Stmt
  | .let_ o name symbol value usage => do
      let value ← checkExpr c refs s value
      unlessFailed (.let_ o name symbol value usage) do
        let u ← define c s name
        track u value.truth
        return .let_ o name symbol value (some u)
  | .fn o name symbol params bo body usage =>
      unlessFailed (.fn o name symbol params bo body usage) do
        let u ← define c s name
        track u .truthy
        let inner ← openChild s
        for param in params do
          let _ ← define c inner param.name
        hoist c inner body
        return .fn o name symbol params bo (← checkStmts c refs inner body) (some u)
  | .assign o name symbol value usage => do
      let value ← checkExpr c refs s value
      unlessFailed (.assign o name symbol value usage) do
        let k ← get
        match k.ledger.assign? s (Symbol.idOf c.space name) with
        | none =>
            fail c o ("assignment to undeclared name " ++ name)
            return .assign o name symbol value usage
        | some (u, ledger) =>
            set { k with ledger }
            track u value.truth
            return .assign o name symbol value (some u)
  | .setMember o target p value => do
      let target ← checkExpr c refs s target
      return .setMember o target p (← checkExpr c refs s value)
  | .return_ o value => return .return_ o (← checkOptional c refs s value)
  | .if_ o condition blockAt then_ else_ => do
      let condition ← checkExpr c refs s condition
      unlessFailed (.if_ o condition blockAt then_ else_) do
        let inner ← openChild s
        hoist c inner then_
        let then_ ← checkStmts c refs inner then_
        return .if_ o condition blockAt then_ (← checkElse c refs s else_)
  | .block o body => unlessFailed (.block o body) do
      let inner ← openChild s
      hoist c inner body
      return .block o (← checkStmts c refs inner body)
  | .expr x => return .expr (← checkExpr c refs s x)
  | .import_ o a p => return .import_ o a p
  | .enum o name es => return .enum o name es
  | .retain o names => return .retain o names

/-- Statements whose declarations are entered already. -/
def checkStmts (c : CheckContext) (refs : ReferenceId → Reference) (s : ScopeId) :
    List Stmt → Checking (List Stmt)
  | [] => return []
  | st :: rest => do
      let st ← checkStmt c refs s st
      return st :: (← checkStmts c refs s rest)

def checkElse (c : CheckContext) (refs : ReferenceId → Reference) (s : ScopeId) :
    Option Stmt → Checking (Option Stmt)
  | none => return none
  | some st => return some (← checkStmt c refs s st)

end

end Check

namespace Program

def checkContext (p : Program) (n : NamespaceId) : CheckContext :=
  let ns := p.spaceAt n
  ⟨n, ns.id, ns.unit, ns.enums⟩

/-- Analyses a tree, unless that is done already.  The tree comes back with the
records of its nodes, together with what went wrong, if anything. -/
def check (t : Tree) : StateM Program (Tree × Option Failure) := do
  let p ← get
  if t.root.isSome then return (t, none)
  let c := p.checkContext t.owner
  let (root, ledger) := p.ledger.openRoot
  let work : Checking (List Stmt) := do
    Check.hoist c root t.statements
    Check.checkStmts c p.reference root t.statements
  let (statements, k) := work { ledger }
  let p := { p with ledger := k.ledger }
  match k.mistake with
  | some d =>
      set p
      return ({ t with statements }, some (.source d))
  | none =>
      let p := p.modifySpace t.owner fun ns => { ns with root := some root }
      let t := { t with statements, root := some root }
      match advance t.owner .analyzed p with
      | .ok _ p =>
          set p
          return (t, none)
      | .error e p =>
          set p
          return (t, some e)

end Program

end Splice

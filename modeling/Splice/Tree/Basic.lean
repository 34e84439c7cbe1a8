import Splice.Token
import Splice.Program.Basic

/-!
# Syntax trees

The tree of a source is a list of statements.  Every node has the offset that
diagnostics point at: that of the operator for an operation, of the opening
parenthesis for a call, and of the innermost target for a member access.  A node
that mentions a name holds the symbol made for it.  What the later steps find out
is filled in as they go: which binding a name reads, and with which record of the
ledger the read is listed.
-/

namespace Splice

inductive BinaryOp where
  | equal
  | notEqual
  | less
  | greater
  | add
  | sub
  | mul
  | div
deriving DecidableEq, Repr, Inhabited

namespace BinaryOp

def ofToken? : TokenKind → Option BinaryOp
  | .equal => some equal
  | .notEqual => some notEqual
  | .less => some less
  | .greater => some greater
  | .plus => some add
  | .minus => some sub
  | .star => some mul
  | .slash => some div
  | _ => none

def token : BinaryOp → TokenKind
  | equal => .equal
  | notEqual => .notEqual
  | less => .less
  | greater => .greater
  | add => .plus
  | sub => .minus
  | mul => .star
  | div => .slash

def opcode : BinaryOp → Opcode
  | equal => .eq
  | notEqual => .neq
  | less => .lt
  | greater => .gt
  | add => .add
  | sub => .sub
  | mul => .mul
  | div => .div

/-- How tightly an operator binds: comparisons least, products most. -/
def level : BinaryOp → Nat
  | equal => 0
  | notEqual => 0
  | less => 0
  | greater => 0
  | add => 1
  | sub => 1
  | mul => 2
  | div => 2

end BinaryOp

inductive UnaryOp where
  | not
  | neg
deriving DecidableEq, Repr, Inhabited

namespace UnaryOp

def ofToken? : TokenKind → Option UnaryOp
  | .not => some not
  | .minus => some neg
  | _ => none

def token : UnaryOp → TokenKind
  | not => .not
  | neg => .minus

def opcode : UnaryOp → Opcode
  | not => .not
  | neg => .neg

end UnaryOp

/-- What a bare name reads. -/
inductive NameRead where
  /-- Nothing that is known: the name is not looked up yet, or it is an enum. -/
  | unbound
  /-- A binding of the same namespace. -/
  | own (symbol : SymbolId) (usage : Option UsageId)
  /-- A name of the standard library. -/
  | std (reference : ReferenceId) (record : Option ForeignId)
deriving DecidableEq, Repr, Inhabited

/-- An entry of an enum of the same namespace. -/
structure EntryRead where
  enum : Text
  entry : Text
  value : Int64
deriving DecidableEq, Repr, Inhabited

inductive Expr where
  | number (offset : Nat) (value : Int64)
  | string (offset : Nat) (value : Text)
  | bool (offset : Nat) (value : Bool)
  | nil (offset : Nat)
  | name (offset : Nat) (name : Text) (read : NameRead)
  /-- `alias.name` or `alias.name.member` for an import alias. -/
  | imported (offset : Nat) (reference : ReferenceId) (member : Option SymbolId)
      (record : Option ForeignId)
  | member (offset : Nat) (target : Expr) (name : Text) (property : SymbolId)
      (entry : Option EntryRead)
  | call (offset : Nat) (callee : Expr) (args : List Expr)
  | syscall (offset : Nat) (name : Text) (args : List Expr)
  /-- There are as many keys as values. -/
  | object (offset : Nat) (keys : List SymbolId) (values : List Expr)
  | binary (offset : Nat) (op : BinaryOp) (left right : Expr)
  | unary (offset : Nat) (op : UnaryOp) (operand : Expr)
deriving Repr, Inhabited

structure Param where
  name : Text
  symbol : SymbolId
deriving DecidableEq, Repr, Inhabited

inductive Stmt where
  | import_ (offset : Nat) (qualifier path : Text)
  | enum (offset : Nat) (name : Text) (entries : List Text)
  | let_ (offset : Nat) (name : Text) (symbol : SymbolId) (value : Expr)
      (usage : Option UsageId)
  | fn (offset : Nat) (name : Text) (symbol : SymbolId) (params : List Param)
      (bodyOffset : Nat) (body : List Stmt) (usage : Option UsageId)
  | retain (offset : Nat) (names : List Text)
  | return_ (offset : Nat) (value : Option Expr)
  /-- The other branch, if any, is a block or again an `if`. -/
  | if_ (offset : Nat) (condition : Expr) (thenOffset : Nat) (then_ : List Stmt)
      (else_ : Option Stmt)
  | block (offset : Nat) (body : List Stmt)
  | assign (offset : Nat) (name : Text) (symbol : SymbolId) (value : Expr)
      (usage : Option UsageId)
  | setMember (offset : Nat) (target : Expr) (property : SymbolId) (value : Expr)
  | expr (value : Expr)
deriving Repr, Inhabited

def Expr.offset : Expr → Nat
  | number o _ => o
  | string o _ => o
  | bool o _ => o
  | nil o => o
  | name o _ _ => o
  | imported o _ _ _ => o
  | member o _ _ _ _ => o
  | call o _ _ => o
  | syscall o _ _ => o
  | object o _ _ => o
  | binary o _ _ _ => o
  | unary o _ _ => o

def Stmt.offset : Stmt → Nat
  | import_ o _ _ => o
  | enum o _ _ => o
  | let_ o _ _ _ _ => o
  | fn o _ _ _ _ _ _ => o
  | retain o _ => o
  | return_ o _ => o
  | if_ o _ _ _ _ => o
  | block o _ => o
  | assign o _ _ _ _ => o
  | setMember o _ _ _ => o
  | expr x => x.offset

/-- The name that a statement declares in the list it stands in. -/
def Stmt.declared? : Stmt → Option (Text × SymbolId)
  | let_ _ name symbol _ _ => some (name, symbol)
  | fn _ name symbol _ _ _ _ => some (name, symbol)
  | _ => none

structure Tree where
  owner : NamespaceId
  statements : List Stmt
  /-- The outermost scope, once the tree is analysed. -/
  root : Option ScopeId := none
deriving Repr, Inhabited

end Splice

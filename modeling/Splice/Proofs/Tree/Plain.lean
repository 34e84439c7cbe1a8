import Splice.Proofs.Token.Spelling
import Splice.Tree.Basic

/-!
# Plain syntax

A plain expression or statement is what a source says, without the offsets and symbols
that a tree has besides.  `Expr.plain?` and `Stmt.plain?` leave these out of a tree; a
symbol is replaced by its name, and one that is named otherwise than the node it stands
in has no plain form.  Imports have no plain form either, nor do names that lead to them.
A plain statement is regular if the parser's own rules allow it.
-/

namespace Splice

inductive PlainExpr where
  | number (value : Int64)
  | string (value : Text)
  | bool (value : Bool)
  | nil
  | name (name : Text)
  | member (target : PlainExpr) (name : Text)
  | call (callee : PlainExpr) (args : List PlainExpr)
  | syscall (name : Text) (args : List PlainExpr)
  /-- There are as many keys as values. -/
  | object (keys : List Text) (values : List PlainExpr)
  | binary (op : BinaryOp) (left right : PlainExpr)
  | unary (op : UnaryOp) (operand : PlainExpr)
deriving Repr, Inhabited

inductive PlainStmt where
  | enum (name : Text) (entries : List Text)
  | let_ (name : Text) (value : PlainExpr)
  | fn (name : Text) (params : List Text) (body : List PlainStmt)
  | retain (names : List Text)
  | return_ (value : Option PlainExpr)
  /-- The other branch, if any, is a block or again an `if`. -/
  | if_ (condition : PlainExpr) (then_ : List PlainStmt) (else_ : Option PlainStmt)
  | block (body : List PlainStmt)
  | assign (name : Text) (value : PlainExpr)
  | setMember (target : PlainExpr) (property : Text) (value : PlainExpr)
  | expr (value : PlainExpr)
deriving Repr, Inhabited

namespace Expr

mutual

/-- What an expression says, given the names of the symbols. -/
def plain? (names : SymbolId → Text) : Expr → Option PlainExpr
  | number _ value => some (.number value)
  | string _ value => some (.string value)
  | bool _ value => some (.bool value)
  | nil _ => some .nil
  | name _ text _ => some (.name text)
  | imported .. => none
  | member _ target text property _ =>
      if names property = text then (target.plain? names).map (.member · text) else none
  | call _ callee args => Option.map₂ .call (callee.plain? names) (plainOfAll? names args)
  | syscall _ text args => (plainOfAll? names args).map (.syscall text)
  | object _ keys values => (plainOfAll? names values).map (.object (keys.map names))
  | binary _ op left right =>
      Option.map₂ (.binary op) (left.plain? names) (right.plain? names)
  | unary _ op operand => (operand.plain? names).map (.unary op)

def plainOfAll? (names : SymbolId → Text) : List Expr → Option (List PlainExpr)
  | [] => some []
  | x :: xs => Option.map₂ List.cons (x.plain? names) (plainOfAll? names xs)

end

end Expr

namespace Stmt

mutual

def plain? (names : SymbolId → Text) : Stmt → Option PlainStmt
  | import_ .. => none
  | enum _ text entries => some (.enum text entries)
  | let_ _ text symbol value _ =>
      if names symbol = text then (value.plain? names).map (.let_ text) else none
  | fn _ text symbol params _ body _ =>
      if names symbol = text ∧ ∀ p ∈ params, names p.symbol = p.name then
        (plainOfAll? names body).map (.fn text (params.map Param.name))
      else none
  | retain _ texts => some (.retain texts)
  | return_ _ none => some (.return_ none)
  | return_ _ (some value) => (value.plain? names).map fun v => .return_ (some v)
  | if_ _ condition _ then_ none =>
      Option.map₂ (.if_ · · none) (condition.plain? names) (plainOfAll? names then_)
  | if_ _ condition _ then_ (some else_) =>
      Option.map₂ (fun f e => f (some e))
        (Option.map₂ PlainStmt.if_ (condition.plain? names) (plainOfAll? names then_))
        (else_.plain? names)
  | block _ body => (plainOfAll? names body).map .block
  | assign _ text symbol value _ =>
      if names symbol = text then (value.plain? names).map (.assign text) else none
  | setMember _ target property value =>
      Option.map₂ (.setMember · (names property) ·) (target.plain? names) (value.plain? names)
  | expr value => (value.plain? names).map .expr

def plainOfAll? (names : SymbolId → Text) : List Stmt → Option (List PlainStmt)
  | [] => some []
  | s :: ss => Option.map₂ List.cons (s.plain? names) (plainOfAll? names ss)

end

end Stmt

namespace PlainExpr

mutual

/-- Whether the numbers of an expression can be written, and its names are identifiers. -/
def isRegular : PlainExpr → Bool
  | number value => 0 ≤ value
  | string _ => true
  | bool _ => true
  | nil => true
  | name text => text.isIdentifier
  | member target text => target.isRegular && text.isIdentifier
  | call callee args => callee.isRegular && areRegular args
  | syscall text args => text.isIdentifier && areRegular args
  | object keys values =>
      keys.length == values.length && keys.all Text.isIdentifier && areRegular values
  | binary _ left right => left.isRegular && right.isRegular
  | unary _ operand => operand.isRegular

def areRegular : List PlainExpr → Bool
  | [] => true
  | e :: es => e.isRegular && areRegular es

end

end PlainExpr

namespace PlainStmt

def isBranch : PlainStmt → Bool
  | block _ => true
  | if_ .. => true
  | _ => false

mutual

/-- Whether a statement is one that the parser can read; `top` tells whether it stands at
the top level of a file. -/
def isRegular : PlainStmt → (top : Bool) → Bool
  | enum text entries, top =>
      top && text.isIdentifier && entries.all Text.isIdentifier && decide entries.Nodup
  | let_ text value, _ => text.isIdentifier && value.isRegular
  | fn text params body, _ =>
      text.isIdentifier && params.all Text.isIdentifier && areRegular body false
  | retain texts, _ => !texts.isEmpty && texts.all Text.isIdentifier
  | return_ none, _ => true
  | return_ (some value), _ => value.isRegular
  | if_ condition then_ none, _ => condition.isRegular && areRegular then_ false
  | if_ condition then_ (some else_), _ =>
      condition.isRegular && areRegular then_ false && else_.isBranch && else_.isRegular false
  | block body, _ => areRegular body false
  | assign text value, _ => text.isIdentifier && value.isRegular
  | setMember target text value, _ =>
      target.isRegular && text.isIdentifier && value.isRegular
  | expr value, _ => value.isRegular

def areRegular : List PlainStmt → (top : Bool) → Bool
  | [], _ => true
  | s :: ss, top => s.isRegular top && areRegular ss top

end

def enumName? : PlainStmt → Option Text
  | enum text _ => some text
  | _ => none

/-- Whether statements can stand in one file: no two enums have the same name. -/
def isFile (ss : List PlainStmt) : Bool :=
  areRegular ss true && decide (ss.filterMap enumName?).Nodup

end PlainStmt

end Splice

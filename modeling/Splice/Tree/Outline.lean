import Splice.Tree.Basic

/-!
# Outlines of trees

An outline shows a tree as indented lines, one for each node.
-/

namespace Splice.Program

def outlineLine (depth : Nat) (t : Text) : Text :=
  List.replicate (2 * depth) 32 ++ t ++ [Text.newline]

def symbolText (p : Program) (s : SymbolId) : Text := (p.symbol s).id

def nameText (p : Program) (name : Text) : NameRead → Text
  | .own s _ => "ident " ++ p.symbolText s
  | .std _ _ => "std " ++ name
  | .unbound => "name " ++ name

mutual

def outlineExpr (p : Program) (depth : Nat) : Expr → Text
  | .number _ v => outlineLine depth ("number " ++ Text.ofInt64 v)
  | .string _ v => outlineLine depth ("string " ++ Text.quote v)
  | .bool _ v => outlineLine depth ("bool " ++ Text.ofBool v)
  | .nil _ => outlineLine depth "nil"
  | .name _ name read => outlineLine depth (p.nameText name read)
  | .imported _ r _ _ => outlineLine depth ("foreign " ++ (p.reference r).spelling)
  | .member _ x _ s entry =>
      match entry with
      | some e =>
          outlineLine depth
            ("enum " ++ e.enum ++ "." ++ e.entry ++ " = " ++ Text.ofInt64 e.value)
      | none => outlineLine depth ("get " ++ p.symbolText s) ++ outlineExpr p (depth + 1) x
  | .call _ callee args =>
      outlineLine depth "call" ++ outlineExpr p (depth + 1) callee ++
        outlineExprs p (depth + 1) args
  | .syscall _ name args => outlineLine depth ("$" ++ name) ++ outlineExprs p (depth + 1) args
  | .object _ keys values => outlineLine depth "object" ++ outlineFields p depth keys values
  | .binary _ op left right =>
      outlineLine depth ("binary " ++ op.token.name) ++ outlineExpr p (depth + 1) left ++
        outlineExpr p (depth + 1) right
  | .unary _ op x =>
      outlineLine depth ("unary " ++ op.token.name) ++ outlineExpr p (depth + 1) x

def outlineExprs (p : Program) (depth : Nat) : List Expr → Text
  | [] => []
  | x :: rest => outlineExpr p depth x ++ outlineExprs p depth rest

def outlineFields (p : Program) (depth : Nat) : List SymbolId → List Expr → Text
  | k :: ks, v :: vs =>
      outlineLine (depth + 1) (p.symbolText k ++ ":") ++ outlineExpr p (depth + 2) v ++
        outlineFields p depth ks vs
  | _, _ => []

end

mutual

def outlineStmt (p : Program) (depth : Nat) : Stmt → Text
  | .import_ _ qualifier path =>
      outlineLine depth ("import " ++ qualifier ++ " from " ++ Text.quote path)
  | .enum _ name entries =>
      outlineLine depth ("enum " ++ name ++ " \x7b" ++ Text.join ", " entries ++ "\x7d")
  | .let_ _ _ s value _ =>
      outlineLine depth ("let " ++ p.symbolText s) ++ outlineExpr p (depth + 1) value
  | .fn _ _ s params _ body _ =>
      outlineLine depth ("fn " ++ p.symbolText s ++ "(" ++
        Text.join ", " (params.map (·.name)) ++ ")") ++
        outlineLine (depth + 1) "block" ++ outlineStmts p (depth + 2) body
  | .retain _ names => outlineLine depth ("retain " ++ Text.join ", " names)
  | .return_ _ value =>
      outlineLine depth "return" ++ value.toList.flatMap (outlineExpr p (depth + 1))
  | .if_ _ condition _ then_ else_ =>
      outlineLine depth "if" ++ outlineExpr p (depth + 1) condition ++
        outlineLine (depth + 1) "block" ++ outlineStmts p (depth + 2) then_ ++
        outlineElse p depth else_
  | .block _ body => outlineLine depth "block" ++ outlineStmts p (depth + 1) body
  | .assign _ _ s value _ =>
      outlineLine depth ("assign " ++ p.symbolText s) ++ outlineExpr p (depth + 1) value
  | .setMember _ target s value =>
      outlineLine depth ("set " ++ p.symbolText s) ++ outlineExpr p (depth + 1) target ++
        outlineExpr p (depth + 1) value
  | .expr x => outlineExpr p depth x

def outlineStmts (p : Program) (depth : Nat) : List Stmt → Text
  | [] => []
  | s :: rest => outlineStmt p depth s ++ outlineStmts p depth rest

def outlineElse (p : Program) (depth : Nat) : Option Stmt → Text
  | none => []
  | some s => outlineLine depth "else" ++ outlineStmt p (depth + 1) s

end

def outline (p : Program) (t : Tree) : Text :=
  let ns := p.spaceAt t.owner
  "namespace " ++ ns.id ++ " (" ++ ns.unit.location ++ ")\n" ++
    outlineStmts p 1 t.statements

end Splice.Program

import Splice.Program.Enums
import Splice.Tree.Basic

/-!
# Generating code

Every statement that does something becomes one instruction.  Reads of enum
entries become the values of the entries, which are marked as used on the way.
-/

namespace Splice.Program

def operand (p : Program) (s : SymbolId) : Instr := (p.symbol s).operand

/-- The value of an enum entry of any namespace, which is marked as used. -/
def entryValue (space enum entry : Text) (value : Int64) : Linking Instr := do
  let p ← get
  match p.byId? space with
  | some n => set (p.markEntryUsed n enum entry)
  | none => pure ()
  return .number value

/-- A load of the binding that a linked reference denotes. -/
def referenceValue (n : NamespaceId) (r : ReferenceId) : Linking Instr := do
  let p ← get
  match (p.reference r).resolution with
  | .value s => return .node .load [p.operand s]
  | _ =>
      throw (.coded ⟨.internal,
        "reference " ++ (p.reference r).spelling ++ " was not linked to a value",
        [("namespace", (p.spaceAt n).id)]⟩)

/-- A load of what a bare name reads. -/
def nameValue (n : NamespaceId) : NameRead → Linking Instr
  | .own s (some _) => do return .node .load [(← get).operand s]
  | .std r _ => referenceValue n r
  | _ => do
      throw (.coded ⟨.internal,
        "namespace " ++ ((← get).spaceAt n).id ++ " emitted before analysis", []⟩)

/-- The enum entry that a name of the standard library denotes together with the
member accessed on it. -/
def stdRead? (p : Program) : Expr → Option (Text × Text × Text × Int64)
  | .name _ _ (.std r _) =>
      match (p.reference r).resolution with
      | .entry space enum name value => some (space, enum, name, value)
      | _ => none
  | _ => none

/-- Keys and values in turn. -/
def interleave : List Instr → List Instr → List Instr
  | k :: ks, v :: vs => k :: v :: interleave ks vs
  | _, _ => []

mutual

def generateExpr (n : NamespaceId) : Expr → Linking Instr
  | .number _ v => return .number v
  | .string _ v => return .string v
  | .bool _ v => return .bool v
  | .nil _ => return .nil
  | .name _ _ read => nameValue n read
  | .imported _ r m _ => do
      match ((← get).reference r).resolution with
      | .entry space enum name value => entryValue space enum name value
      | _ =>
          let value ← referenceValue n r
          match m with
          | some s => return .node .get [value, (← get).operand s]
          | none => return value
  | .member _ x _ s entry => do
      match entry with
      | some e =>
          modify fun p => p.markEntryUsed n e.enum e.entry
          return .number e.value
      | none =>
          match (← get).stdRead? x with
          | some (space, enum, name, value) => entryValue space enum name value
          | none =>
              let target ← generateExpr n x
              return .node .get [target, (← get).operand s]
  | .call _ callee args => do
      let callee ← generateExpr n callee
      return .node .call (callee :: (← generateExprs n args))
  | .syscall _ name args => return .syscall name (← generateExprs n args)
  | .object _ keys values => do
      let values ← generateExprs n values
      let p ← get
      return .node .object (interleave (keys.map p.operand) values)
  | .binary _ op left right => do
      let left ← generateExpr n left
      return .node op.opcode [left, ← generateExpr n right]
  | .unary _ op x => return .node op.opcode [← generateExpr n x]

def generateExprs (n : NamespaceId) : List Expr → Linking (List Instr)
  | [] => return []
  | x :: rest => do
      let x ← generateExpr n x
      return x :: (← generateExprs n rest)

end

def generateReturn (n : NamespaceId) : Option Expr → Linking Instr
  | none => return .node .return_ [.nil]
  | some x => return .node .return_ [← generateExpr n x]

mutual

/-- The instruction of a statement; declarations without an effect have none. -/
def generateStmt (n : NamespaceId) : Stmt → Linking (Option Instr)
  | .import_ _ _ _ => return none
  | .enum _ _ _ => return none
  | .retain _ _ => return none
  | .let_ _ _ s value _ => do
      let value ← generateExpr n value
      return some (.node .define [(← get).operand s, value])
  | .fn _ _ s params _ body _ => do
      let body ← generateStmts n body
      let p ← get
      let func : Instr :=
        .node .func (params.map (fun q => p.operand q.symbol) ++ [.block body])
      return some (.node .define [p.operand s, func])
  | .assign _ _ s value _ => do
      let value ← generateExpr n value
      return some (.node .store [(← get).operand s, value])
  | .setMember _ target s value => do
      let target ← generateExpr n target
      let value ← generateExpr n value
      return some (.node .set [target, (← get).operand s, value])
  | .return_ _ value => return some (← generateReturn n value)
  | .if_ _ condition _ then_ else_ => do
      let condition ← generateExpr n condition
      let then_ ← generateStmts n then_
      return some (.node .branch [condition, .block then_, ← generateElse n else_])
  | .block _ body => return some (.block (← generateStmts n body))
  | .expr x => return some (.node .pop [← generateExpr n x])

def generateStmts (n : NamespaceId) : List Stmt → Linking (List Instr)
  | [] => return []
  | s :: rest => do
      let s ← generateStmt n s
      return s.toList ++ (← generateStmts n rest)

/-- A missing branch is an empty block. -/
def generateElse (n : NamespaceId) : Option Stmt → Linking Instr
  | none => return .block []
  | some s => do return (← generateStmt n s).getD (.block [])

end

/-- The instructions of a tree, one for each top-level statement. -/
def generateTree (t : Tree) : Linking (List Instr) := do
  let instrs ← generateStmts t.owner t.statements
  advance t.owner .emitted
  return instrs

end Splice.Program

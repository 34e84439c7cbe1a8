import Splice.Tree.Basic

/-!
# Reports on symbols

A report shows, scope by scope, the bindings of a tree with their readers, most
read first, and the names of other namespaces that the scope reads.
-/

namespace Splice.Program

private def indent (depth : Nat) : Text := List.replicate (2 * depth) 32

/-- The rows and columns of readers, as offsets of the reported file. -/
def readerPositions (unit : SourceUnit) (readers : List Reader) : Text :=
  Text.join ", " (readers.map fun r =>
    let (row, column) := unit.position r.offset
    Text.ofNat row ++ ":" ++ Text.ofNat column)

def truthText (t : Truth) : Text :=
  match t.constant? with
  | some b => Text.ofBool b
  | none => "-"

def usageLines (unit : SourceUnit) (depth : Nat) (u : Usage) : Text :=
  let head := indent depth ++ "- " ++ u.id ++ " defined=" ++ Text.ofBool u.defined ++
    " truthy=" ++ truthText u.truth
  if u.isRead then
    head ++ "\n" ++ indent depth ++ "  read " ++ Text.ofNat u.readers.length ++ "x at " ++
      readerPositions unit u.readers ++ "\n"
  else head ++ " (never read)\n"

def foreignLine (l : Ledger) (depth : Nat) (f : ForeignUsage) : Text :=
  let target : Text := if f.qualifier.isEmpty then f.name else f.qualifier ++ "." ++ f.name
  let state : Text :=
    if f.isEnum then "enum"
    else match f.resolved with
      | some u => "-> " ++ (l.usage u).id
      | none => "unlinked"
  indent depth ++ "foreign " ++ target ++ " readers=" ++ Text.ofNat f.readers.length ++ " " ++
    state ++ "\n"

/-- The records of a scope, most read first. -/
def sortedUsages (l : Ledger) (s : ScopeId) : List Usage :=
  ((l.scope s).usages.map l.usage).mergeSort fun a b => b.readers.length ≤ a.readers.length

def scopeLines (l : Ledger) (unit : SourceUnit) : (fuel depth : Nat) → ScopeId → Text
  | 0, _, _ => []
  | fuel + 1, depth, s =>
      let usages := sortedUsages l s
      let foreign := (l.scope s).foreign.map l.foreignUsage
      let head : Text := indent depth ++ Text.ofNat usages.length ++ " in scope\n"
      let childHead : Text := indent depth ++ "scope\n"
      head ++ usages.flatMap (usageLines unit depth) ++ foreign.flatMap (foreignLine l depth) ++
        (l.scope s).children.flatMap fun child =>
          childHead ++ scopeLines l unit fuel (depth + 1) child

def symbolReport (p : Program) (t : Tree) : Text :=
  let ns := p.spaceAt t.owner
  "symbols of " ++ ns.id ++ "\n" ++
    match t.root with
    | none => "  (not analyzed)\n"
    | some root => scopeLines p.ledger ns.unit (p.ledger.scopes.size + 1) 1 root

end Splice.Program

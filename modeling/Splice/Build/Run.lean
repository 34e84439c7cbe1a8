import Splice.Build.Discovery
import Splice.Tree.Generate
import Splice.Tree.Outline
import Splice.Tree.Prune
import Splice.Tree.Report

/-!
# Running a build

A build discovers the files of a program, assigns enum values and short names,
analyses and links all namespaces, removes dead code if asked to, and emits the
linked code: the registrations of enum entries, then the namespaces in build
order.
-/

namespace Splice.Program

def checkAll : List Tree → Linking (List Tree)
  | [] => return []
  | t :: rest => do
      let ((t, failure), p) := check t (← get)
      set p
      match failure with
      | some e => throw e
      | none => return t :: (← checkAll rest)

def linkAll (trees : List Tree) : Linking Unit :=
  trees.forM fun t => link t.owner

/-- One pass of dead code removal over all trees. -/
def pruneAll : List Tree → StateM Program (List Tree × Bool)
  | [] => return ([], false)
  | t :: rest => do
      let (t, changed) ← prune t
      let (rest, restChanged) ← pruneAll rest
      return (t :: rest, changed || restChanged)

/-- Passes until one removes nothing or the limit is reached; the number of
passes comes along. -/
def prunePasses : (limit : Nat) → List Tree → StateM Program (List Tree × Nat)
  | 0, trees => return (trees, 0)
  | limit + 1, trees => do
      let (trees, changed) ← pruneAll trees
      if changed then
        let (trees, passes) ← prunePasses limit trees
        return (trees, passes + 1)
      else return (trees, 1)

def mangleIfAsked (o : BuildOptions) (order : List NamespaceId) : Linking (List MangleEntry) := do
  if o.mangle then
    let (symbols, p) := (← get).mangle order
    set p
    return symbols
  else return []

def pruneIfAsked (o : BuildOptions) (trees : List Tree) : Linking (List Tree × Nat) := do
  if o.removeDeadCode then
    let (pruned, p) := prunePasses o.passLimit trees (← get)
    set p
    return pruned
  else return (trees, 0)

def reports (p : Program) (o : BuildOptions) (trees : List Tree) : List Text :=
  trees.flatMap fun t =>
    (if o.analyseAst then [p.outline t] else []) ++
      (if o.analyseSymbols then [p.symbolReport t] else [])

def emitAll : List Tree → Linking (List NamespaceCode)
  | [] => return []
  | t :: rest => do
      let ns := (← get).spaceAt t.owner
      let instrs ← (generateTree t).mapFailure fun e => e.addContext "namespace" ns.id
      let first : NamespaceCode := ⟨ns.id, ns.unit.location, Instr.encodeAll instrs⟩
      return first :: (← emitAll rest)

/-- A row of the enum table: the full name, the value, and whether emitted code
reads the entry. -/
structure EnumRow where
  name : Text
  value : Int64
  used : Bool
deriving DecidableEq, Repr

def enumRows (p : Program) (trees : List Tree) : List EnumRow :=
  trees.flatMap fun t =>
    let ns := p.spaceAt t.owner
    ns.enums.flatMap fun e => e.entries.map fun entry =>
      ⟨ns.entryName e.name entry.name, entry.value, ns.isEntryUsed e.name entry.name⟩

def isRegistered (o : BuildOptions) (row : EnumRow) : Bool := !o.removeDeadCode || row.used

def enumReport (o : BuildOptions) (row : EnumRow) : Text :=
  (if isRegistered o row then "enum entry registered: " else "unused enum entry: ") ++ row.name

def buildPhases (loader : Loader) (cancelled : Bool) (o : BuildOptions) (entry : Text) :
    Linking BuildResult := do
  let d ← Linking.phase "discovery" (discover loader cancelled o.stdPath entry)
  Linking.phase "enums" assignEnumValues
  let symbols ← mangleIfAsked o d.order
  let trees ← Linking.phase "analysis" (checkAll d.orderedTrees)
  Linking.phase "link" (linkAll trees)
  let (trees, prunePasses) ← pruneIfAsked o trees
  let treeReports := (← get).reports o trees
  let namespaces ← Linking.phase "emit" (emitAll trees)
  let p ← get
  let rows := if o.includeEnumLookup then p.enumRows trees else []
  let enumTable := (rows.filter (isRegistered o)).map fun row => (row.name, row.value)
  let enumReports := if o.analyseSymbols then rows.map (enumReport o) else []
  return {
    code := (enumTable.flatMap fun (name, value) => Code.enum name value) ++
      namespaces.flatMap (·.code)
    enumTable
    namespaces
    symbols
    prunePasses
    reports := treeReports ++ enumReports }

/-- Links the program that starts at an entry. -/
def build (loader : Loader) (workingDir : Text) (cancelled : Bool) (o : BuildOptions)
    (entry : Text) (readPattern : PatternReader := Glob.reader) :
    Except Failure BuildResult := do
  let p ← create workingDir o.retain readPattern
  match buildPhases loader cancelled o entry p with
  | .ok result _ => .ok result
  | .error e _ => .error e

end Splice.Program

import Splice.Program.Basic

/-!
# Short codes for names

Mangling replaces names by the numbers 0, 1, 2, …  The names with the most symbols
come first, because small numbers take the fewest bytes; equally frequent names
keep the order of the namespaces, then of first use, and properties come last.  A
name whose first symbol is retained is left out.
-/

namespace Splice

/-- One name and the number that stands for it. -/
structure MangleEntry where
  /-- Empty for properties. -/
  space : Text
  name : Text
  kind : SymbolKind
  code : Int64
  /-- How many symbols the name has. -/
  uses : Nat
deriving DecidableEq, Repr, Inhabited

/-- A name with its symbols. -/
structure NameGroup where
  space : Text
  name : Text
  members : List SymbolId
deriving DecidableEq, Repr, Inhabited

namespace Program

/-- The names of some namespaces in order, and then the properties. -/
def nameGroups (p : Program) (spaces : List NamespaceId) : List NameGroup :=
  (spaces.flatMap fun n =>
    let ns := p.spaceAt n
    ns.groups.map fun (name, members) => ⟨ns.id, name, members⟩) ++
  p.properties.map fun (name, members) => ⟨[], name, members⟩

def isMangled (p : Program) (g : NameGroup) : Bool :=
  match g.members with
  | [] => false
  | leading :: _ => !(p.symbol leading).retained

/-- The names that are given numbers, most frequent first. -/
def manglePool (p : Program) (spaces : List NamespaceId) : List NameGroup :=
  ((p.nameGroups spaces).mergeSort fun a b => b.members.length ≤ a.members.length).filter
    p.isMangled

def mangleEntry (p : Program) (g : NameGroup) (code : Nat) : MangleEntry where
  space := g.space
  name := g.name
  kind := (p.symbol (g.members.headD 0)).kind
  code := Int64.ofNat code
  uses := g.members.length

def mangleGroup (p : Program) (g : NameGroup) (code : Nat) : Program :=
  g.members.foldl (fun p s => p.modifySymbol s (·.mangle (Int64.ofNat code))) p

/-- Gives the names of some namespaces, and all properties, their numbers. -/
def mangle (p : Program) (spaces : List NamespaceId) : List MangleEntry × Program :=
  let pool := (p.manglePool spaces).zipIdx
  (pool.map fun (g, code) => p.mangleEntry g code,
    pool.foldl (fun p (g, code) => p.mangleGroup g code) p)

end Program

end Splice

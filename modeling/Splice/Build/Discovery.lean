import Splice.Build.Basic
import Splice.Program.Link
import Splice.StandardLibrary
import Splice.Tree.Bind

/-!
# Discovering the files of a program

Discovery starts with the standard library and then follows the imports of the
entry file, depth first and in the order of their declaration.  A namespace is
parsed when it is first reached, which ends cycles, and takes its place in the
build order when all its imports are done, so that it comes after them.
-/

namespace Splice

/-- The trees found so far and the order of the namespaces that are done. -/
structure Discovery where
  trees : List Tree := []
  order : List NamespaceId := []
deriving Repr, Inhabited

namespace Discovery

def isSeen (d : Discovery) (n : NamespaceId) : Bool := d.trees.any (·.owner == n)

def treeOf? (d : Discovery) (n : NamespaceId) : Option Tree := d.trees.find? (·.owner == n)

def orderedTrees (d : Discovery) : List Tree := d.order.filterMap d.treeOf?

end Discovery

namespace Linking

/-- Changes the failure of an action. -/
def mapFailure {α : Type} (f : Failure → Failure) (action : Linking α) : Linking α :=
  fun p =>
    match action p with
    | .ok a p => .ok a p
    | .error e p => .error (f e) p

/-- Names the phase that a coded failure comes from. -/
def phase {α : Type} (name : Text) (action : Linking α) : Linking α :=
  action.mapFailure fun e => (e.updateContext? "phase" name).getD e

end Linking

namespace Program

/-- Opens an import of a namespace and sets its alias. -/
def openImport (loader : Loader) (n : NamespaceId) (i : PendingImport) :
    Linking NamespaceId := do
  let id := ((← get).spaceAt n).id
  let (target, _) ← (openAt (some loader) i.location).mapFailure fun e =>
    (e.addContext "namespace" id).addContext "symbol" i.qualifier
  modify fun p => p.bindImport n i.qualifier target
  return target

/-- Parses a namespace and everything it imports, unless that is done. -/
def visit (loader : Loader) (cancelled : Bool) :
    (fuel : Nat) → NamespaceId → Discovery → Linking Discovery
  | 0, _, _ => throw (.plain "imports are nested too deeply")
  | fuel + 1, n, d => do
      if d.isSeen n then return d
      if cancelled then throw (.plain "context canceled")
      let tree ← parse n
      let (pending, p) := (← get).drainImports n
      set p
      let d ← pending.foldlM
        (fun d i => do
          let target ← openImport loader n i
          visit loader cancelled fuel target d)
        { d with trees := d.trees ++ [tree] }
      let id := ((← get).spaceAt n).id
      (bindReferences n).mapFailure fun e => e.addContext "namespace" id
      advance n .importsResolved
      return { d with order := d.order ++ [n] }

def openStd (loader : Loader) (stdPath : Text) : Linking NamespaceId := do
  if stdPath.isEmpty then
    let ((n, _), p) := (← get).openUnit StandardLibrary.unit
    set p
    return n
  else
    let (n, _) ← openAt (some loader) stdPath
    return n

/-- How deep visits are nested at most.  The namespaces on a path of imports are sources
of their own, or the built-in library; but a location that is not its own normal form is
opened again and again, so that other sources may stand between any two of these. -/
def discoveryFuel (loader : Loader) : Nat :=
  (loader.sources.length + 2) * (loader.sources.length + 2)

/-- Finds all files of the program that starts at an entry, with visits nested no deeper
than a bound. -/
def discoverWithin (depth : Nat) (loader : Loader) (cancelled : Bool) (stdPath entry : Text) :
    Linking Discovery := do
  let std ← openStd loader stdPath
  modify fun p => { p with std := some std }
  let d ← visit loader cancelled depth std {}
  let (root, _) ← openAt (some loader) entry
  visit loader cancelled depth root d

/-- Finds all files of the program that starts at an entry. -/
def discover (loader : Loader) (cancelled : Bool) (stdPath entry : Text) : Linking Discovery :=
  discoverWithin (discoveryFuel loader) loader cancelled stdPath entry

end Program

end Splice

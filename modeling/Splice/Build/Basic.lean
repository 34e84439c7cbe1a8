import Splice.Program.Mangle

/-!
# Builds

What a build is asked to do and what comes out of it.
-/

namespace Splice

structure BuildOptions where
  /-- Replace names by short numbers. -/
  mangle : Bool := false
  removeDeadCode : Bool := false
  /-- How many passes dead code removal may take; none given means the default. -/
  prunePassLimit : Int64 := 0
  /-- Report the trees. -/
  analyseAst : Bool := false
  /-- Report the symbols. -/
  analyseSymbols : Bool := false
  /-- Register the enum entries ahead of the program. -/
  includeEnumLookup : Bool := false
  /-- Patterns of property names that keep their spelling. -/
  retain : List Text := []
  /-- A standard library of its own; empty for the built-in one. -/
  stdPath : Text := []
deriving DecidableEq, Repr, Inhabited

namespace BuildOptions

def defaultPassLimit : Nat := 1000

/-- How many passes dead code removal may take. -/
def passLimit (o : BuildOptions) : Nat :=
  if o.prunePassLimit ≤ 0 then defaultPassLimit else o.prunePassLimit.toInt.toNat

end BuildOptions

structure NamespaceCode where
  id : Text
  location : Text
  code : Code
deriving DecidableEq, Repr, Inhabited

structure BuildResult where
  code : Code
  /-- The registered enum entries by their full names. -/
  enumTable : List (Text × Int64)
  namespaces : List NamespaceCode
  symbols : List MangleEntry
  prunePasses : Nat
  reports : List Text
deriving DecidableEq, Repr, Inhabited

end Splice

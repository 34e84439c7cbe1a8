import Splice.Text.Basic

/-!
# The ledger of bindings and reads

For every lexical scope the ledger keeps a record of each binding it holds, and
of each name of another namespace that is read in it.  A record lists its
readers.  Scopes and records are known by their position and are never removed.
-/

namespace Splice

/-- A place that reads: an offset of a file. -/
structure Reader where
  file : Nat
  offset : Nat
deriving DecidableEq, Repr, Inhabited

/-- What is known of the truth value of a binding. -/
inductive Truth where
  | untracked
  | truthy
  | falsy
  | unknown
deriving DecidableEq, Repr, Inhabited

namespace Truth

def ofBool (b : Bool) : Truth := if b then truthy else falsy

/-- The constant truth value, if it is known. -/
def constant? : Truth → Option Bool
  | truthy => some true
  | falsy => some false
  | _ => none

end Truth

/-- The record of one binding in one scope. -/
structure Usage where
  id : Text
  defined : Bool := false
  readers : List Reader := []
  truth : Truth := .untracked
deriving DecidableEq, Repr, Inhabited

abbrev UsageId := Nat

namespace Usage

def isRead (u : Usage) : Bool := !u.readers.isEmpty

/-- Folds one observed value into what is known.  A binding that was already
defined and read, or that takes a second value, is unknown for good. -/
def track (u : Usage) (v : Truth) : Usage :=
  let truth :=
    if u.truth == .unknown || v == .untracked || v == .unknown || (u.defined && u.isRead) then
      .unknown
    else if u.truth == .untracked then v
    else if u.truth == v then v
    else .unknown
  { u with truth }

end Usage

/-- The record of a name of another namespace that a scope reads. -/
structure ForeignUsage where
  qualifier : Text
  name : Text
  readers : List Reader := []
  /-- The record of the binding, once it is known. -/
  resolved : Option UsageId := none
  /-- The name is an enum and has no binding. -/
  isEnum : Bool := false
deriving DecidableEq, Repr, Inhabited

abbrev ForeignId := Nat

abbrev ScopeId := Nat

/-- A scope, with its own records and children in the order of their creation. -/
structure Scope where
  parent : Option ScopeId := none
  children : List ScopeId := []
  usages : List UsageId := []
  foreign : List ForeignId := []
deriving DecidableEq, Repr, Inhabited

structure Ledger where
  scopes : Array Scope := #[]
  usages : Array Usage := #[]
  foreign : Array ForeignUsage := #[]
deriving DecidableEq, Repr, Inhabited

namespace Ledger

def scope (l : Ledger) (s : ScopeId) : Scope := l.scopes.getD s {}

def usage (l : Ledger) (u : UsageId) : Usage := l.usages.getD u { id := [] }

def foreignUsage (l : Ledger) (f : ForeignId) : ForeignUsage :=
  l.foreign.getD f { qualifier := [], name := [] }

def modifyUsage (l : Ledger) (u : UsageId) (f : Usage → Usage) : Ledger :=
  { l with usages := l.usages.modify u f }

def modifyForeign (l : Ledger) (i : ForeignId) (f : ForeignUsage → ForeignUsage) : Ledger :=
  { l with foreign := l.foreign.modify i f }

def modifyScope (l : Ledger) (s : ScopeId) (f : Scope → Scope) : Ledger :=
  { l with scopes := l.scopes.modify s f }

/-! ## Scopes -/

def openRoot (l : Ledger) : ScopeId × Ledger :=
  (l.scopes.size, { l with scopes := l.scopes.push {} })

def openChild (l : Ledger) (s : ScopeId) : ScopeId × Ledger :=
  let child := l.scopes.size
  let l := l.modifyScope s fun sc => { sc with children := sc.children ++ [child] }
  (child, { l with scopes := l.scopes.push { parent := some s } })

/-- A scope and what encloses it, innermost first. -/
def chainFuel (l : Ledger) : (fuel : Nat) → ScopeId → List ScopeId
  | 0, s => [s]
  | fuel + 1, s =>
      match (l.scope s).parent with
      | none => [s]
      | some p => s :: chainFuel l fuel p

/-- A scope is opened after its parent, so its position bounds its depth. -/
def chain (l : Ledger) (s : ScopeId) : List ScopeId := l.chainFuel s s

/-- A scope and everything inside it, each before its children. -/
def belowFuel (l : Ledger) : (fuel : Nat) → ScopeId → List ScopeId
  | 0, s => [s]
  | fuel + 1, s => s :: (l.scope s).children.flatMap (belowFuel l fuel)

def below (l : Ledger) (s : ScopeId) : List ScopeId := l.belowFuel l.scopes.size s

end Ledger

end Splice

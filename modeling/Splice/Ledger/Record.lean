import Splice.Ledger.Basic

/-!
# Recording definitions and reads

A definition is recorded in the scope it stands in.  A read is recorded with the
innermost record of its name in the enclosing scopes.  A read of another
namespace is recorded in the scope it stands in and, once the binding is known,
with the binding as well.
-/

namespace Splice.Ledger

/-! ## Bindings -/

/-- A scope's own record of a binding. -/
def own? (l : Ledger) (s : ScopeId) (id : Text) : Option UsageId :=
  (l.scope s).usages.find? fun u => (l.usage u).id == id

/-- The innermost record of a binding in a scope and what encloses it. -/
def find? (l : Ledger) (s : ScopeId) (id : Text) : Option UsageId :=
  (l.chain s).findSome? fun s => l.own? s id

/-- A scope's own record of a binding, made if it is missing. -/
def ownOrNew (l : Ledger) (s : ScopeId) (id : Text) : UsageId × Ledger :=
  match l.own? s id with
  | some u => (u, l)
  | none =>
      let u := l.usages.size
      let l := { l with usages := l.usages.push { id } }
      (u, l.modifyScope s fun sc => { sc with usages := sc.usages ++ [u] })

/-- The innermost record of a binding; without one, a new one of the scope. -/
def findOrNew (l : Ledger) (s : ScopeId) (id : Text) : UsageId × Ledger :=
  match l.find? s id with
  | some u => (u, l)
  | none => l.ownOrNew s id

def addReader (l : Ledger) (u : UsageId) (r : Reader) : Ledger :=
  l.modifyUsage u fun usage => { usage with readers := usage.readers ++ [r] }

def markDefined (l : Ledger) (u : UsageId) : Ledger :=
  l.modifyUsage u fun usage => { usage with defined := true }

def define (l : Ledger) (s : ScopeId) (id : Text) : UsageId × Ledger :=
  let (u, l) := l.ownOrNew s id
  (u, l.markDefined u)

/-- Records a mention of a binding: a definition, a read by someone, or both. -/
def mention (l : Ledger) (s : ScopeId) (id : Text) (defining : Bool) (reader : Option Reader) :
    UsageId × Ledger :=
  let (u, l) := if defining then l.define s id else l.findOrNew s id
  match reader with
  | some r => (u, l.addReader u r)
  | none => (u, l)

/-- Records a store into the innermost binding of a name, if there is one. -/
def assign? (l : Ledger) (s : ScopeId) (id : Text) : Option (UsageId × Ledger) :=
  (l.find? s id).map fun u => (u, l.markDefined u)

/-- The innermost scope with a defined record of a binding. -/
def definingScope? (l : Ledger) (s : ScopeId) (id : Text) : Option ScopeId :=
  (l.chain s).find? fun s => (l.own? s id).any fun u => (l.usage u).defined

def track (l : Ledger) (u : UsageId) (v : Truth) : Ledger :=
  l.modifyUsage u fun usage => usage.track v

def removeReader (l : Ledger) (u : UsageId) (r : Reader) : Ledger :=
  l.modifyUsage u fun usage => { usage with readers := usage.readers.filter (· != r) }

def hasReader (l : Ledger) (u : UsageId) (r : Reader) : Bool := (l.usage u).readers.contains r

/-! ## Names of other namespaces -/

/-- A scope's own record of a name of another namespace. -/
def ownForeign? (l : Ledger) (s : ScopeId) (qualifier name : Text) : Option ForeignId :=
  (l.scope s).foreign.find? fun f =>
    (l.foreignUsage f).qualifier == qualifier && (l.foreignUsage f).name == name

def foreignOrNew (l : Ledger) (s : ScopeId) (qualifier name : Text) : ForeignId × Ledger :=
  match l.ownForeign? s qualifier name with
  | some f => (f, l)
  | none =>
      let f := l.foreign.size
      let l := { l with foreign := l.foreign.push { qualifier, name } }
      (f, l.modifyScope s fun sc => { sc with foreign := sc.foreign ++ [f] })

def addForeignReader (l : Ledger) (f : ForeignId) (r : Reader) : Ledger :=
  let l := l.modifyForeign f fun usage => { usage with readers := usage.readers ++ [r] }
  match (l.foreignUsage f).resolved with
  | some u => l.addReader u r
  | none => l

/-- Records a mention of a name of another namespace, read by someone or not. -/
def mentionForeign (l : Ledger) (s : ScopeId) (qualifier name : Text) (reader : Option Reader) :
    ForeignId × Ledger :=
  let (f, l) := l.foreignOrNew s qualifier name
  match reader with
  | some r => (f, l.addForeignReader f r)
  | none => (f, l)

/-- Ties a record to the binding it names, which takes over its readers. -/
def tie (l : Ledger) (f : ForeignId) (u : UsageId) : Ledger :=
  let readers := (l.foreignUsage f).readers
  let l := l.modifyForeign f fun usage => { usage with resolved := some u }
  l.modifyUsage u fun usage => { usage with readers := usage.readers ++ readers }

def markEnum (l : Ledger) (f : ForeignId) : Ledger :=
  l.modifyForeign f fun usage => { usage with isEnum := true }

/-- Drops a reader of a name of another namespace, here and at its binding. -/
def removeForeignReader (l : Ledger) (f : ForeignId) (r : Reader) : Ledger :=
  let l := l.modifyForeign f fun usage => { usage with readers := usage.readers.filter (· != r) }
  match (l.foreignUsage f).resolved with
  | some u => l.removeReader u r
  | none => l

/-- Whether a reader is listed with a name of another namespace or its binding. -/
def hasForeignReader (l : Ledger) (f : ForeignId) (r : Reader) : Bool :=
  (l.foreignUsage f).readers.contains r ||
    (l.foreignUsage f).resolved.any fun u => l.hasReader u r

end Splice.Ledger

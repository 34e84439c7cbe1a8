import Splice.Program.Basic

/-!
# Linking namespaces

Linking settles what each reference of a namespace denotes and ties the ledger's
records of foreign names to the bindings they read.  A name that is an enum of
its owner denotes an entry, any other name a binding at the owner's top level.
-/

namespace Splice.Program

/-- The namespace behind an alias; no alias means the standard library. -/
def importTarget (n : NamespaceId) (qualifier : Text) : Linking NamespaceId := do
  let p ← get
  let ns := p.spaceAt n
  if qualifier.isEmpty then
    match p.std with
    | some std => return std
    | none =>
        throw (.coded ⟨.internal, "namespace " ++ ns.id ++
          " references the standard library but none is loaded", []⟩)
  else
    match ns.import? qualifier with
    | some target => return target
    | none =>
        throw (.coded ⟨.internal, "import " ++ qualifier ++ " of namespace " ++ ns.id ++
          " was never resolved", []⟩)

/-- The analysed namespace behind an alias, with its outermost scope. -/
def linkTarget (n : NamespaceId) (qualifier : Text) : Linking (NamespaceId × ScopeId) := do
  let target ← importTarget n qualifier
  let p ← get
  match (p.spaceAt target).root with
  | some root => return (target, root)
  | none =>
      throw (.coded ⟨.internal, "namespace " ++ (p.spaceAt n).id ++
        " linked against unanalyzed namespace " ++ (p.spaceAt target).id, []⟩)

/-- The record of a binding that a namespace defines at its top level. -/
def definedUsage? (p : Program) (n : NamespaceId) (root : ScopeId) (name : Text) :
    Option UsageId :=
  match p.ledger.find? root (Symbol.idOf (p.spaceAt n).id name) with
  | some u => if (p.ledger.usage u).defined then some u else none
  | none => none

def notDefined (what owner : Text) : FailureHead :=
  ⟨.unresolvedSymbol, what ++ " is not defined in namespace " ++ owner,
    [("namespace", owner), ("symbol", what)]⟩

def unresolvedFailure (p : Program) (n target : NamespaceId) (r : Reference) (what : Text) :
    Failure :=
  .caused (notDefined what (p.spaceAt target).id)
    (.source ⟨"undefined: " ++ r.spelling, some (p.spaceAt n).unit, r.offset⟩)

def settle (r : ReferenceId) (resolution : Resolution) : Linking Unit := do
  let p ← get
  match (p.reference r).resolve resolution with
  | .ok settled => set { p with references := p.references.modify r fun _ => settled }
  | .error message => throw (.plain message)

def resolveReference (n : NamespaceId) (r : ReferenceId) : Linking Unit := do
  let ref := (← get).reference r
  let (target, root) ← linkTarget n ref.qualifier
  let p ← get
  let owner := p.spaceAt target
  match owner.enum? ref.name with
  | some enum =>
      if ref.member.isEmpty then
        throw (.source ⟨"enum " ++ ref.spelling ++ " cannot be used as a value",
          some (p.spaceAt n).unit, ref.offset⟩)
      else
        match enum.entry? ref.member with
        | none => throw (p.unresolvedFailure n target ref (ref.name ++ "." ++ ref.member))
        | some entry => settle r (.entry owner.id enum.name entry.name entry.value)
  | none =>
      match p.definedUsage? target root ref.name with
      | none => throw (p.unresolvedFailure n target ref ref.name)
      | some _ =>
          match ref.target.or (p.symbolsOf target ref.name).head? with
          | some s => settle r (.value s)
          | none => throw (p.unresolvedFailure n target ref ref.name)

/-- Ties a record of a foreign name to its binding, or marks it as an enum. -/
def linkUsage (n : NamespaceId) (f : ForeignId) : Linking Unit := do
  let usage := (← get).ledger.foreignUsage f
  let (target, root) ← linkTarget n usage.qualifier
  let p ← get
  let owner := p.spaceAt target
  if (owner.enum? usage.name).isSome then
    set { p with ledger := p.ledger.markEnum f }
  else
    match p.definedUsage? target root usage.name with
    | some u => set { p with ledger := p.ledger.tie f u }
    | none => throw (.coded (notDefined usage.name owner.id))

/-- Resolves every reference of a namespace and ties every record of a foreign
name.  What is settled already is left alone. -/
def link (n : NamespaceId) : Linking Unit := do
  let ns := (← get).spaceAt n
  match ns.root with
  | none => throw (.coded ⟨.internal, "namespace " ++ ns.id ++ " linked before analysis", []⟩)
  | some root =>
      for r in ns.references do
        if !((← get).reference r).isResolved then resolveReference n r
      for s in (← get).ledger.below root do
        for f in ((← get).ledger.scope s).foreign do
          let usage := (← get).ledger.foreignUsage f
          if usage.resolved.isNone && !usage.isEnum then linkUsage n f
      advance n .crossLinked

/-- Gives every reference to a value a symbol of its own in the namespace that
owns the name, so that the read counts there. -/
def bindReferences (n : NamespaceId) : Linking Unit := do
  for r in ((← get).spaceAt n).references do
    let ref := (← get).reference r
    if ref.target.isNone && !ref.isResolved then
      let target ← importTarget n ref.qualifier
      let p ← get
      if ((p.spaceAt target).enum? ref.name).isNone then
        let (s, p) := p.addSymbol target ref.name
        set { p with references := p.references.modify r fun ref => { ref with target := some s } }

end Splice.Program

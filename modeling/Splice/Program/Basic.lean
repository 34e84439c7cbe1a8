import Splice.Enumeration
import Splice.Failure
import Splice.Glob
import Splice.Ledger.Record
import Splice.Reference

/-!
# Programs

A program is made of namespaces, one for each source file.  It owns everything
they share: the symbols and references, the ledger of reads, the property names
and the numbers handed out.  Namespaces, symbols and references are known by
their position and are never removed.
-/

namespace Splice

/-- How far a namespace has come.  It only moves forward. -/
structure Stage where
  rank : Int
deriving DecidableEq, Repr, Inhabited

namespace Stage

def created : Stage := ⟨0⟩
def parsed : Stage := ⟨1⟩
def importsResolved : Stage := ⟨2⟩
def analyzed : Stage := ⟨3⟩
def crossLinked : Stage := ⟨4⟩
def pruned : Stage := ⟨5⟩
def emitted : Stage := ⟨6⟩

/-- The name of a stage.  There is no stage before the first. -/
def name? (s : Stage) : Option Text :=
  if s.rank < 0 then none
  else
    match s.rank.toNat with
    | 0 => some "created"
    | 1 => some "parsed"
    | 2 => some "imports-resolved"
    | 3 => some "analyzed"
    | 4 => some "cross-linked"
    | 5 => some "pruned"
    | 6 => some "emitted"
    | _ => some "unknown"

/-- How messages call a stage, whether or not there is such a stage. -/
def name (s : Stage) : Text :=
  s.name?.getD ("%!s(PANIC=String method: runtime error: index out of range [" ++
    Text.ofInt s.rank ++ "])")

end Stage

/-- Symbols by name: the names in the order of their first use, each with the
symbols made for it. -/
abbrev Groups := List (Text × List SymbolId)

namespace Groups

def members (groups : Groups) (name : Text) : List SymbolId :=
  ((groups.find? (·.1 == name)).map (·.2)).getD []

def add (s : SymbolId) (name : Text) : Groups → Groups
  | [] => [(name, [s])]
  | (n, members) :: rest =>
      if n == name then (n, members ++ [s]) :: rest
      else (n, members) :: add s name rest

end Groups

abbrev NamespaceId := Nat

/-- An import whose target has not been opened yet. -/
structure PendingImport where
  qualifier : Text
  location : Text
  offset : Int
deriving DecidableEq, Repr, Inhabited

structure Namespace where
  id : Text
  unit : SourceUnit
  /-- The normal form of the unit's location. -/
  key : Text
  stage : Stage := .created
  groups : Groups := []
  imports : List (Text × NamespaceId) := []
  pending : List PendingImport := []
  enums : List Enumeration := []
  /-- The entries that emitted code reads, as `enum.entry`. -/
  usedEntries : List Text := []
  references : List ReferenceId := []
  /-- The outermost scope, once the namespace is analysed. -/
  root : Option ScopeId := none
deriving Repr, Inhabited

namespace Namespace

def enum? (ns : Namespace) (name : Text) : Option Enumeration :=
  ns.enums.find? (·.name == name)

def import? (ns : Namespace) (qualifier : Text) : Option NamespaceId :=
  (ns.imports.find? (·.1 == qualifier)).map (·.2)

/-- Aliases of imports, bound or waiting. -/
def aliases (ns : Namespace) : List Text :=
  ns.imports.map (·.1) ++ ns.pending.map (·.qualifier)

def entryName (ns : Namespace) (enum entry : Text) : Text :=
  ns.id ++ ":" ++ enum ++ "." ++ entry

def isEntryUsed (ns : Namespace) (enum entry : Text) : Bool :=
  ns.usedEntries.contains (enum ++ "." ++ entry)

/-- Where an import path of this namespace leads. -/
def importLocation (ns : Namespace) (path : Text) : Text :=
  if Path.isAbsolute path then path else Path.join [ns.unit.dir, path]

def aliasDeclaredTwice (qualifier : Text) : Text :=
  "import alias " ++ qualifier ++ " is declared twice"

end Namespace

/-- Where source texts come from: the sources that exist, by location, and what
is said about any other location. -/
structure Loader where
  sources : List (Text × Text)
  missing : Text → Failure

def Loader.load (l : Loader) (location : Text) : Except Failure Text :=
  match l.sources.find? (·.1 == Path.clean location) with
  | some (_, text) => .ok text
  | none => .error (l.missing location)

/-- Sources that are held in memory. -/
def Loader.ofSources (sources : List (Text × Text)) : Loader where
  sources := sources
  missing := fun location => .plain (location ++ ": file does not exist")

structure Program where
  workingDir : Text := "/"
  /-- Properties that keep their names. -/
  retainGlobs : List NamePattern := []
  symbols : Array Symbol := #[]
  references : Array Reference := #[]
  namespaces : Array Namespace := #[]
  /-- The standard library. -/
  std : Option NamespaceId := none
  properties : Groups := []
  retainedNames : List Text := []
  /-- How many names have been made up. -/
  generated : Nat := 0
  enumsAssigned : Bool := false
  ledger : Ledger := {}
deriving Inhabited

/-- Actions on a program that can fail.  What was done before a failure stays
done. -/
abbrev Linking := EStateM Failure Program

namespace Program

/-- An empty program that retains the properties matched by some patterns, whatever the
reader makes of them. -/
def create (workingDir : Text) (patterns : List Text) (readPattern : PatternReader := Glob.reader) :
    Except Failure Program := do
  let retainGlobs ← patterns.mapM fun pattern =>
    (readPattern pattern).mapError fun e =>
      .caused ⟨.validation, "invalid retain pattern " ++ Text.quote pattern, []⟩ (.plain e)
  .ok { workingDir, retainGlobs }

def spaceAt (p : Program) (n : NamespaceId) : Namespace :=
  p.namespaces.getD n { id := [], unit := ⟨[], []⟩, key := [] }

def symbol (p : Program) (s : SymbolId) : Symbol :=
  p.symbols.getD s (Symbol.ofProperty [] false)

def reference (p : Program) (r : ReferenceId) : Reference :=
  p.references.getD r ⟨[], [], [], 0, none, .unresolved⟩

def modifySpace (p : Program) (n : NamespaceId) (f : Namespace → Namespace) : Program :=
  { p with namespaces := p.namespaces.modify n f }

def modifySymbol (p : Program) (s : SymbolId) (f : Symbol → Symbol) : Program :=
  { p with symbols := p.symbols.modify s f }

/-! ## Opening namespaces -/

/-- The normal form of a location: absolute, unless it starts with a dollar
sign. -/
def normalLocation (p : Program) (location : Text) : Text :=
  let location := location.trim
  if Text.startsWith location "$" then Path.clean location
  else Path.absolute p.workingDir location

/-- The namespace registered last for a normal location. -/
def findKey? (p : Program) (key : Text) : Option NamespaceId :=
  (List.range p.namespaces.size).reverse.find? fun n => (p.spaceAt n).key == key

def lookup? (p : Program) (location : Text) : Option NamespaceId :=
  p.findKey? (p.normalLocation location)

/-- The first namespace with an identifier. -/
def byId? (p : Program) (id : Text) : Option NamespaceId :=
  (List.range p.namespaces.size).find? fun n => (p.spaceAt n).id == id

def isUsedId (p : Program) (id : Text) : Bool := p.namespaces.any (·.id == id)

/-- The name itself, or the name with the first suffix `_2`, `_3`, … that makes it
new.  Among one more candidate than there are namespaces one is new. -/
def uniqueId (p : Program) (base : Text) : Text :=
  let candidates :=
    base :: (List.range p.namespaces.size).map fun n => base ++ "_" ++ Text.ofNat (n + 2)
  (candidates.find? fun id => !p.isUsedId id).getD base

def register (p : Program) (unit : SourceUnit) : NamespaceId × Program :=
  let ns : Namespace :=
    { id := p.uniqueId unit.shortName, unit, key := p.normalLocation unit.location }
  (p.namespaces.size, { p with namespaces := p.namespaces.push ns })

/-- The namespace of a unit's location, registered if it is new; whether it is
new comes along. -/
def openUnit (p : Program) (unit : SourceUnit) : (NamespaceId × Bool) × Program :=
  match p.lookup? unit.location with
  | some n => ((n, false), p)
  | none =>
      let (n, p) := p.register unit
      ((n, true), p)

/-- The namespace of a location, loaded if it is new; whether it is new comes
along. -/
def openAt (loader : Option Loader) (location : Text) : Linking (NamespaceId × Bool) := do
  let p ← get
  let location := p.normalLocation location
  match p.findKey? location with
  | some n => return (n, false)
  | none =>
      match loader with
      | none => throw (.coded ⟨.internal, "namespace context has no loader", []⟩)
      | some loader =>
          match loader.load location with
          | .error e =>
              throw (.caused ⟨.importFailed, "cannot load source", [("path", location)]⟩ e)
          | .ok text =>
              let (n, p) := p.register ⟨text, location⟩
              set p
              return (n, true)

/-! ## Names -/

/-- A new symbol for a name of a namespace. -/
def addSymbol (p : Program) (n : NamespaceId) (name : Text) : SymbolId × Program :=
  let s := p.symbols.size
  let p := { p with symbols := p.symbols.push (Symbol.ofName (p.spaceAt n).id name) }
  (s, p.modifySpace n fun ns => { ns with groups := ns.groups.add s name })

def symbolsOf (p : Program) (n : NamespaceId) (name : Text) : List SymbolId :=
  (p.spaceAt n).groups.members name

def isRetainedName (p : Program) (name : Text) : Bool :=
  p.retainedNames.contains name || p.retainGlobs.any (·.matchesName name)

/-- The retained names, with a name that was just asked for: if a pattern matches it, it
is noted and never matched again. -/
def retainedNamesAfter (p : Program) (name : Text) : List Text :=
  if p.isRetainedName name then p.retainedNames.insert name else p.retainedNames

/-- A new symbol for a property name of the program. -/
def addProperty (p : Program) (name : Text) : SymbolId × Program :=
  let s := p.symbols.size
  (s, { p with
    symbols := p.symbols.push (Symbol.ofProperty name (p.isRetainedName name))
    properties := p.properties.add s name
    retainedNames := p.retainedNamesAfter name })

/-- Pins a property name, also where it is mentioned already. -/
def retainProperty (p : Program) (name : Text) : Program :=
  let p := { p with retainedNames := p.retainedNames ++ [name] }
  (p.properties.members name).foldl (fun p s => p.modifySymbol s Symbol.retain) p

/-- A name that no source can spell, with a number that is used once. -/
def generatedName (stem : Text) (n : Nat) : Text := "#" ++ stem ++ "_" ++ Text.ofNat n

def generate (p : Program) (stem : Text) : Text × Program :=
  (generatedName stem p.generated, { p with generated := p.generated + 1 })

/-! ## Imports, enums and references -/

def addPending (p : Program) (n : NamespaceId) (qualifier path : Text) (offset : Int) : Program :=
  p.modifySpace n fun ns =>
    { ns with pending := ns.pending ++ [⟨qualifier, ns.importLocation path, offset⟩] }

/-- Adds an import; an alias is declared once. -/
def addImport (p : Program) (n : NamespaceId) (qualifier path : Text) (offset : Int) :
    Except Diagnostic Program :=
  let ns := p.spaceAt n
  if ns.aliases.contains qualifier then
    .error ⟨Namespace.aliasDeclaredTwice qualifier, some ns.unit, offset⟩
  else .ok (p.addPending n qualifier path offset)

/-- Hands out the waiting imports of a namespace. -/
def drainImports (p : Program) (n : NamespaceId) : List PendingImport × Program :=
  ((p.spaceAt n).pending, p.modifySpace n fun ns => { ns with pending := [] })

def bindImport (p : Program) (n : NamespaceId) (qualifier : Text) (target : NamespaceId) :
    Program :=
  p.modifySpace n fun ns =>
    { ns with
      imports :=
        if ns.imports.any (·.1 == qualifier) then
          ns.imports.map fun i => if i.1 == qualifier then (qualifier, target) else i
        else ns.imports ++ [(qualifier, target)] }

def addEnum (p : Program) (n : NamespaceId) (name : Text) (offset : Int) : Program :=
  p.modifySpace n fun ns => { ns with enums := ns.enums ++ [⟨name, offset, []⟩] }

/-- Declares an enum; a namespace has one of a name. -/
def declareEnum (p : Program) (n : NamespaceId) (name : Text) (offset : Int) :
    Except Diagnostic Program :=
  let ns := p.spaceAt n
  if (ns.enum? name).isSome then
    .error ⟨Enumeration.declaredTwice name, some ns.unit, offset⟩
  else .ok (p.addEnum n name offset)

def addEntry (p : Program) (n : NamespaceId) (enum : Text) (entry : EnumEntry) : Program :=
  p.modifySpace n fun ns =>
    { ns with enums := ns.enums.map fun e => if e.name == enum then e.addEntry entry else e }

/-- Adds an entry to an enum; an enum has one of a name. -/
def declareEntry (p : Program) (n : NamespaceId) (enum : Enumeration) (entry : EnumEntry) :
    Except Diagnostic Program :=
  if (enum.entry? entry.name).isSome then
    .error ⟨Enumeration.hasEntryAlready enum.name entry.name, some (p.spaceAt n).unit,
      entry.offset⟩
  else .ok (p.addEntry n enum.name entry)

/-- Adds a reference to a name that another namespace owns. -/
def addReference (p : Program) (n : NamespaceId) (qualifier name member : Text) (offset : Int) :
    ReferenceId × Program :=
  let r := p.references.size
  let p := { p with references := p.references.push { qualifier, name, member, offset } }
  (r, p.modifySpace n fun ns => { ns with references := ns.references ++ [r] })

/-! ## Stages -/

def advance (n : NamespaceId) (stage : Stage) : Linking Unit := do
  let p ← get
  let ns := p.spaceAt n
  if stage.rank < ns.stage.rank then
    throw (.plain ("namespace " ++ ns.id ++ " cannot move from " ++ ns.stage.name ++
      " back to " ++ stage.name))
  else set (p.modifySpace n fun ns => { ns with stage })

/-- Moves a namespace forward unless it is further already. -/
def advanceIfBefore (p : Program) (n : NamespaceId) (stage : Stage) : Program :=
  p.modifySpace n fun ns =>
    { ns with stage := if stage.rank < ns.stage.rank then ns.stage else stage }

end Program

end Splice

import Splice.Program.Basic

/-!
# Values of enum entries

Explicit values are taken first and must differ throughout the program.  The
other entries are then given values in the order of namespaces and declarations:
a counter that starts at 1 moves past every explicit value it meets and skips
those that are taken anywhere.
-/

namespace Splice.Program

/-- An entry with the namespace and the enum it belongs to. -/
structure OwnedEntry where
  owner : NamespaceId
  enum : Text
  entry : EnumEntry
deriving Repr

/-- All entries of the program in the order of their namespaces. -/
def enumEntries (p : Program) : List OwnedEntry :=
  (List.range p.namespaces.size).flatMap fun n =>
    (p.spaceAt n).enums.flatMap fun e => e.entries.map fun entry => ⟨n, e.name, entry⟩

def ownedName (p : Program) (c : OwnedEntry) : Text :=
  (p.spaceAt c.owner).entryName c.enum c.entry.name

/-- The first entry whose explicit value an earlier one has, with the earlier
one. -/
def firstConflict? : (seen rest : List OwnedEntry) → Option (OwnedEntry × OwnedEntry)
  | _, [] => none
  | seen, c :: rest =>
      if c.entry.explicit then
        match seen.find? (·.entry.value == c.entry.value) with
        | some owner => some (c, owner)
        | none => firstConflict? (seen ++ [c]) rest
      else firstConflict? seen rest

/-- The first value from a counter on that is not taken. -/
def nextFree (taken : List Int64) : (fuel : Nat) → Int64 → Int64
  | 0, next => next
  | fuel + 1, next =>
      if taken.contains next then nextFree taken fuel (next + 1) else next

/-- Gives the entries of one enum their values. -/
def assignEntries :
    (taken : List Int64) → (next : Int64) → List EnumEntry →
      List EnumEntry × List Int64 × Int64
  | taken, next, [] => ([], taken, next)
  | taken, next, e :: rest =>
      if e.explicit then
        let next := if e.value ≥ next then e.value + 1 else next
        let (rest, taken, next) := assignEntries taken next rest
        (e :: rest, taken, next)
      else
        let value := nextFree taken (taken.length + 1) next
        let (rest, taken, next) := assignEntries (value :: taken) (value + 1) rest
        ({ e with value } :: rest, taken, next)

def assignEnums :
    (taken : List Int64) → (next : Int64) → List Enumeration →
      List Enumeration × List Int64 × Int64
  | taken, next, [] => ([], taken, next)
  | taken, next, e :: rest =>
      let (entries, taken, next) := assignEntries taken next e.entries
      let (rest, taken, next) := assignEnums taken next rest
      ({ e with entries } :: rest, taken, next)

def assignSpaces :
    (taken : List Int64) → (next : Int64) → List Namespace → List Namespace
  | _, _, [] => []
  | taken, next, ns :: rest =>
      let (enums, taken, next) := assignEnums taken next ns.enums
      { ns with enums } :: assignSpaces taken next rest

def conflictFailure (p : Program) (c owner : OwnedEntry) : Failure :=
  let value := Text.ofInt64 c.entry.value
  let name := p.ownedName c
  .caused
    ⟨.conflict, "enum value " ++ value ++ " of " ++ name ++ " is already used by " ++
      p.ownedName owner, [("enum", name)]⟩
    (.source ⟨"duplicate enum value " ++ value, some (p.spaceAt c.owner).unit, c.entry.offset⟩)

/-- Gives every entry of the program its value, once. -/
def assignEnumValues : Linking Unit := do
  let p ← get
  if p.enumsAssigned then return ()
  match firstConflict? [] p.enumEntries with
  | some (c, owner) => throw (p.conflictFailure c owner)
  | none =>
      let taken := (p.enumEntries.filter (·.entry.explicit)).map (·.entry.value)
      set { p with
        namespaces := (assignSpaces taken 1 p.namespaces.toList).toArray
        enumsAssigned := true }

/-- Notes that emitted code reads an entry. -/
def markEntryUsed (p : Program) (n : NamespaceId) (enum entry : Text) : Program :=
  p.modifySpace n fun ns => { ns with usedEntries := ns.usedEntries ++ [enum ++ "." ++ entry] }

end Splice.Program

import Splice.Failure
import Splice.Instant
import Splice.Program.Mangle
import Splice.Text.Quoted

/-!
# Recorded names

A build with short names records what its numbers stand for, so that a number that
is met later can be led back to its name.  Builds and names are kept in two tables:
a build has its identifier as key, a name the identifier of its build and its
number.  Removing a build removes its names.
-/

namespace Splice

/-- One name of a build and the number that stands for it. -/
structure NameEntry where
  code : Int64
  /-- Empty for properties. -/
  space : Text
  name : Text
  kind : Text
  uses : Int
deriving DecidableEq, Repr, Inhabited

namespace NameEntry

/-- The name as a reader wants to see it. -/
def describe (e : NameEntry) : Text :=
  if e.space.isEmpty then "." ++ e.name else e.space ++ ":" ++ e.name

def ofMangled (e : MangleEntry) : NameEntry := ⟨e.code, e.space, e.name, e.kind.name, e.uses⟩

end NameEntry

structure BuildRecord where
  id : Text
  /-- The entry file of the build. -/
  entry : Text
  time : Instant
  symbolCount : Nat
deriving DecidableEq, Repr, Inhabited

/-- Whether one build counts as newer than another, or is the same: the written
times decide, and the identifiers where they agree. -/
def BuildRecord.isNewer (a b : BuildRecord) : Bool :=
  if a.time.text == b.time.text then Text.le b.id a.id else Text.le b.time.text a.time.text

/-- The two tables. -/
structure NameMap where
  builds : List BuildRecord := []
  /-- Names with the identifiers of their builds. -/
  names : List (Text × NameEntry) := []
deriving DecidableEq, Repr, Inhabited

namespace NameMap

/-- Why something cannot be recorded or found. -/
inductive Error where
  | blankId
  /-- The same number for two names of one build. -/
  | repeatedCode (code : Int64)
  | nothingRecorded
  /-- The time of the newest build cannot be read back. -/
  | unreadableTime (written rest expected : Text)
  | notMapped (code : Int64) (build : Text)
deriving DecidableEq, Repr, Inhabited

def Error.toFailure : Error → Failure
  | blankId => .coded ⟨.validation, "build id must not be empty", []⟩
  | repeatedCode code =>
      .plain ("save build: insert code " ++ Text.ofInt64 code ++
        ": constraint failed: UNIQUE constraint failed: symbols.build_id, symbols.code (1555)")
  | nothingRecorded =>
      .caused ⟨.notFound, "no build has been recorded", []⟩
        (.plain "load latest build: sql: no rows in result set")
  | unreadableTime written rest expected =>
      .plain ("parse build timestamp " ++ Text.quote written ++ ": parsing time " ++
        Text.quote written ++ " as " ++ Text.quote Instant.layout ++ ": cannot parse " ++
        Text.quote rest ++ " as " ++ Text.quote expected)
  | notMapped code build =>
      .caused
        ⟨.notFound, "code " ++ Text.ofInt64 code ++ " is not mapped in build " ++ build,
          [("build_id", build)]⟩
        (.plain "lookup code: sql: no rows in result set")

/-- Removes builds, and with them their names. -/
def removeBuilds (m : NameMap) (gone : Text → Bool) : NameMap where
  builds := m.builds.filter fun b => !gone b.id
  names := m.names.filter fun (build, _) => !gone build

/-- The name that a number stands for in a build. -/
def find? (m : NameMap) (build : Text) (code : Int64) : Option NameEntry :=
  (m.names.find? fun (b, e) => b == build && e.code == code).map (·.2)

def addName (build : Text) (m : NameMap) (e : NameEntry) : Except Error NameMap :=
  if (m.find? build e.code).isSome then .error (.repeatedCode e.code)
  else .ok { m with names := m.names ++ [(build, e)] }

/-- Records a build in place of an earlier one with its identifier.  If that
fails, everything stays as it was. -/
def save (m : NameMap) (id entry : Text) (time : Instant) (entries : List NameEntry) :
    Except Error NameMap :=
  if id.isAllBlank then .error .blankId
  else
    let cleared := m.removeBuilds (· == id)
    entries.foldlM (addName id)
      { cleared with builds := cleared.builds ++ [⟨id, entry, time, entries.length⟩] }

/-- The builds, newest first. -/
def newestFirst (m : NameMap) : List BuildRecord := m.builds.mergeSort BuildRecord.isNewer

def latest (m : NameMap) : Except Error BuildRecord :=
  match m.newestFirst with
  | [] => .error .nothingRecorded
  | b :: _ =>
      match b.time.unreadable? with
      | none => .ok b
      | some (rest, expected) => .error (.unreadableTime b.time.text rest expected)

/-- What a number stands for in a build; no identifier means the newest build. -/
def lookup (m : NameMap) (build : Text) (code : Int64) : Except Error NameEntry := do
  let build ← if build.isEmpty then (m.latest).map (·.id) else .ok build
  match m.find? build code with
  | some e => .ok e
  | none => .error (.notMapped code build)

/-- The names of a build, ordered by number. -/
def entries (m : NameMap) (build : Text) : List NameEntry :=
  ((m.names.filter (·.1 == build)).map (·.2)).mergeSort fun a b => a.code ≤ b.code

/-- Removes all builds but the newest ones; how many were removed comes along. -/
def prune (m : NameMap) (keep : Int) : NameMap × Nat :=
  let kept := (m.newestFirst.take keep.toNat).map (·.id)
  let m' := m.removeBuilds fun id => !kept.contains id
  (m', m.builds.length - m'.builds.length)

end NameMap

end Splice

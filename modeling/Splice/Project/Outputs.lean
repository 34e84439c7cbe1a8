import Splice.Build.Listing
import Splice.Build.Run
import Splice.Project.Basic

/-!
# Building a project

A build links the program and then writes what the configuration asks for, one
after another: the program, its listing, and the names behind its numbers.  What
was written before something fails stays written.
-/

namespace Splice

/-- What sets one build apart from all others. -/
structure BuildStamp where
  id : Text
  time : Instant
deriving DecidableEq, Repr, Inhabited

/-- The sources of a disk, by their absolute paths and by their paths relative to
the working directory. -/
def Disk.loader (disk : Disk) (workingDir : Text) : Loader where
  sources := disk.files ++ disk.files.filterMap fun (path, content) =>
    if Path.isWithin path workingDir then
      (Path.relative? workingDir path).map fun rel => (rel, content)
    else none
  missing := fun location =>
    match disk.read (Path.absolute workingDir location) with
    | .ok _ => .ofDisk ⟨"open", location, .missing⟩
    | .error e => .ofDisk { e with path := location }

/-- The sources without some that cannot be read, for the reasons that come with them. -/
def Loader.without (l : Loader) (unreadable : List (Text × Failure)) : Loader where
  sources := l.sources.filter fun s => (unreadable.lookup s.1).isNone
  missing := fun location =>
    (unreadable.lookup (Path.clean location)).getD (l.missing location)

/-- What the system refuses in the course of a build. -/
structure Mishaps where
  /-- Sources that cannot be read. -/
  sources : List (Text × Failure) := []
  program : Option Disk.Refusal := none
  listing : Option Disk.Refusal := none
  /-- The names cannot be recorded. -/
  names : Option Failure := none
  /-- Older builds cannot be removed from the record. -/
  pruning : Bool := false
deriving DecidableEq, Repr, Inhabited

/-- What the outputs of a build go to. -/
structure OutputTarget where
  disk : Disk
  store : Option NameStore
deriving Inhabited

/-- Writing outputs; what is written stays if a later step fails. -/
abbrev Writing := EStateM Failure OutputTarget

namespace Writing

/-- Replaces a file; `action` names the failure. -/
def file (refusal : Option Disk.Refusal) (action path content : Text) : Writing Unit := fun t =>
  match t.disk.replaceUnless path content refusal with
  | (.ok (), disk) => .ok () { t with disk }
  | (.error e, disk) =>
      .error (.caused ⟨.internal, action, [("path", path)]⟩ (.ofDisk e)) { t with disk }

/-- Writes the listing, if one is wanted. -/
def listing (p : Project) (r : BuildResult) (mishaps : Mishaps) : Writing Unit := do
  if !p.paths.disasm.isEmpty then
    match r.listing with
    | .error e => throw e
    | .ok text => file mishaps.listing "write listing" p.paths.disasm text

/-- How many builds stay recorded. -/
def keptBuilds : Int := 20

/-- Records the names behind the numbers of a build, if there are any. -/
def names (p : Project) (r : BuildResult) (stamp : BuildStamp) (mishaps : Mishaps) :
    Writing Unit := do
  let t ← get
  match t.store with
  | none => return
  | some store =>
      if !r.symbols.isEmpty then
        let recorded :=
          match mishaps.names with
          | none =>
              store.record stamp.time stamp.id p.paths.entry .unset
                (r.symbols.map NameEntry.ofMangled)
          | some e => .error e
        match recorded with
        | .error e => throw (e.addContext "build_id" stamp.id)
        | .ok store =>
            let store :=
              match store.prune keptBuilds with
              | .ok (pruned, _) => if mishaps.pruning then store else pruned
              | .error _ => store
            set { t with store := some store, disk := store.keep t.disk : OutputTarget }

def outputs (p : Project) (r : BuildResult) (stamp : BuildStamp) (mishaps : Mishaps) :
    Writing Unit := do
  file mishaps.program "write program" p.paths.output r.code
  listing p r mishaps
  names p r stamp mishaps

end Writing

namespace Project

def link (p : Project) (disk : Disk) (workingDir : Text) (mishaps : Mishaps) :
    Except Failure BuildResult :=
  let loader := (disk.loader workingDir).without mishaps.sources
  Program.build loader workingDir false p.options p.paths.entry

/-- Builds a project and remembers the outcome. -/
def buildUnder (mishaps : Mishaps) (p : Project) (disk : Disk) (workingDir : Text)
    (stamp : BuildStamp) (changed : List Text) : Except Failure BuildResult × Project × Disk :=
  match p.link disk workingDir mishaps with
  | .error e => (.error e, { p with last := some { changed, failure := some e } }, disk)
  | .ok r =>
      let update : BuildUpdate :=
        { buildId := stamp.id, changed, namespaces := r.namespaces.length, bytes := r.code.length }
      match Writing.outputs p r stamp mishaps ⟨disk, p.store⟩ with
      | .ok _ t => (.ok r, { p with store := t.store, last := some update }, t.disk)
      | .error e t =>
          (.error e,
            { p with store := t.store, last := some { update with failure := some e } }, t.disk)

/-- Builds a project where nothing but the disk stands in the way. -/
def build (p : Project) (disk : Disk) (workingDir : Text) (stamp : BuildStamp)
    (changed : List Text) : Except Failure BuildResult × Project × Disk :=
  p.buildUnder {} disk workingDir stamp changed

end Project

end Splice

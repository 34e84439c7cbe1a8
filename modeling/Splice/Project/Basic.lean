import Splice.Config.Paths
import Splice.Config.Validate
import Splice.NameMap.Store
import Splice.Watch.Watcher

/-!
# Projects

A project is a configuration in a directory, together with what its builds have
left behind: the store of recorded names, the outcome of the last build and the
watcher, if there is one.
-/

namespace Splice

structure BuildUpdate where
  /-- Empty if nothing was linked. -/
  buildId : Text := []
  /-- The changed files that made the build necessary. -/
  changed : List Text := []
  namespaces : Nat := 0
  bytes : Nat := 0
  failure : Option Failure := none
deriving DecidableEq, Repr, Inhabited

structure Project where
  config : Config
  paths : ProjectPaths
  options : BuildOptions
  /-- Only builds with short names record them. -/
  store : Option NameStore := none
  last : Option BuildUpdate := none
  watcher : Option Watcher := none
deriving Inhabited

namespace Project

/-- Several complaints as one failure; there must be at least one. -/
def joinComplaints : Text → List Text → Failure
  | first, rest => rest.foldl (fun f t => .joined f (.plain t)) (.plain first)

def ofConfig (workingDir root : Text) (store : Option NameStore) :
    Option Config → Except Failure Project
  | none => .error (.plain "config is required")
  | some config =>
      match config.complaints with
      | first :: rest =>
          .error (.caused ⟨.validation, "invalid config", []⟩ (joinComplaints first rest))
      | [] =>
          match config.paths workingDir root with
          | .error complaint => .error (.plain complaint)
          | .ok paths =>
              .ok {
                config
                paths
                options := { config.buildOptions with stdPath := paths.stdlib }
                store }

/-- Opens the store of recorded names, if builds of the configuration record
names. -/
def openStore (disk : Disk) (workingDir root : Text) (config : Config) :
    Except Failure (Option NameStore) × Disk :=
  if config.build.mangle then
    match config.paths workingDir root with
    | .error complaint => (.error (.plain complaint), disk)
    | .ok paths =>
        let (store, disk) := NameStore.openAt disk workingDir paths.symbolMap
        (store.map some, disk)
  else (.ok none, disk)

/-- A project with the store that its configuration asks for.  The store is opened
before the configuration is checked. -/
def create (disk : Disk) (workingDir root : Text) (config : Option Config) :
    Except Failure Project × Disk :=
  match config with
  | none => (ofConfig workingDir root none none, disk)
  | some c =>
      let (store, disk) := openStore disk workingDir root c
      (store.bind fun store => ofConfig workingDir root store (some c), disk)

/-- Leads a number back to its name; no build means the newest one. -/
def demangle (p : Project) (build : Text) (code : Int64) : Except Failure NameEntry :=
  match p.store with
  | none => .error (.coded ⟨.notSupported, "symbol map is only kept for mangled builds", []⟩)
  | some store => store.lookup build code

def close (p : Project) : Project :=
  { p with watcher := none, store := p.store.map NameStore.close }

end Project

end Splice

import Splice.Disk
import Splice.NameMap.Address

/-!
# The store of recorded names

A store keeps recorded names in a file, or in memory only.  It is opened once, every
change reaches the file at once, and after it is closed every request fails.
-/

namespace Splice

structure NameStore where
  /-- The path as it was given, without blanks around it. -/
  path : Text
  /-- Where the file is, if there is one. -/
  place : Option Text
  readOnly : Bool := false
  map : NameMap
  isOpen : Bool := true
deriving DecidableEq, Repr, Inhabited

/-- Why a store cannot be used. -/
inductive StoreFault where
  | address (fault : AddressFault)
  | cannotOpen
  /-- The file has a name that leaves no room for the files beside it. -/
  | noJournal
  | readOnly
  | notNames
deriving DecidableEq, Repr, Inhabited

def StoreFault.message : StoreFault → Text
  | address fault => fault.message
  | cannotOpen => "unable to open database file: out of memory (14)"
  | noJournal => "unable to open database file (14)"
  | readOnly => "attempt to write a readonly database (8)"
  | notNames => "file is not a database (26)"

namespace NameStore

/-- Makes the file of a store, if it has one. -/
def makeFile (s : NameStore) (disk : Disk) : Disk :=
  match s.place with
  | some place => disk.set (Path.elements place) (.names s.map)
  | none => disk

/-- Writes the recorded names to their file.  A file that something else has taken the
place of is out of reach. -/
def keep (s : NameStore) (disk : Disk) : Disk :=
  match s.place.map fun place => disk.find (Path.elements place) with
  | some (.ok (.names _)) => s.makeFile disk
  | _ => disk

/-- What the names of the files beside a store's file have more than its own. -/
def journalEnding : Text := "-journal"

/-- Paths of stores have at most so many bytes, those of the files beside them
included. -/
def pathLimit : Nat := 512

/-- A map that is yet to be written. -/
def freshMap (place : Text) (mode : StoreMode) : Except StoreFault NameMap :=
  if mode == .readOnly then .error .readOnly
  else if Disk.maxElement < ((Path.base place) ++ journalEnding).length then .error .noJournal
  else .ok {}

/-- The recorded names that a file holds; a new or empty file holds none. -/
def readMap (disk : Disk) (place : Text) (mode : StoreMode) : Except StoreFault NameMap :=
  if pathLimit < (place ++ journalEnding).length then .error .cannotOpen
  else
    match disk.find (Path.elements place) with
    | .ok (.names map) => .ok map
    | .ok (.file []) => freshMap place mode
    | .ok (.file _) => .error .notNames
    | .ok .directory => .error .cannotOpen
    | .error fault =>
        if fault == .missing && mode == .create && disk.isDirectory (Path.dir place) then
          freshMap place mode
        else .error .cannotOpen

/-- The file that a path leads to, wherever it is. -/
def fileOf (workingDir path : Text) : Text :=
  match NameAddress.parse path with
  | .ok address => Path.absolute workingDir address.file
  | .error _ => Path.absolute workingDir path

/-- The store that the address of a path leads to. -/
def ofAddress (disk : Disk) (workingDir path : Text) : Except StoreFault NameStore := do
  let address ← (NameAddress.parse path).mapError .address
  let place := Path.absolute workingDir address.file
  let map ← if address.isInMemory then .ok {} else readMap disk place address.mode
  (NameAddress.checkSettings path).mapError .address
  return {
    path
    place := if address.isInMemory then none else some place
    readOnly := address.mode == .readOnly
    map }

/-- Opens the store at a path, which may be relative to the working directory; the
directory of its file is made if it is missing, whatever comes of the rest. -/
def openAt (disk : Disk) (workingDir path : Text) : Except Failure NameStore × Disk :=
  let path := path.trim
  let dir := Path.dir path
  let refuse (disk : Disk) (cause action : Text) : Except Failure NameStore × Disk :=
    (.error ((Failure.plain cause).label (action ++ " " ++ Text.quote path)), disk)
  if path.isEmpty then (.error (.plain "symbol map path must not be empty"), disk)
  else if disk.isDirectory (Path.absolute workingDir path) then
    (.error (.plain ("symbol map path " ++ Text.quote path ++ " is a directory, expected file")),
      disk)
  else
    match disk.makeDirectories (Path.absolute workingDir dir) with
    | .error e =>
        let shown := if Path.isAbsolute dir then e.path
          else (Text.afterStart? (workingDir ++ [Path.slash]) e.path).getD e.path
        (.error ((Failure.ofDisk { e with path := shown }).label
          ("create symbol map directory " ++ Text.quote dir)), disk)
    | .ok disk =>
        match ofAddress disk workingDir path with
        | .error fault => refuse disk fault.message "ping sqlite symbol map"
        | .ok store =>
            if store.readOnly && store.place.isNone then
              refuse disk ("create schema_migrations table: " ++ StoreFault.readOnly.message)
                "initialize sqlite schema"
            else (.ok store, store.makeFile disk)

def closedFailure (action : Text) : Failure := .plain (action ++ ": sql: database is closed")

/-- Lets a request through to an open store. -/
def request {α : Type} (s : NameStore) (action : Text) (answer : Except NameMap.Error α) :
    Except Failure α :=
  if s.isOpen then answer.mapError NameMap.Error.toFailure else .error (closedFailure action)

/-- Lets a request that changes something through to an open store. -/
def change {α : Type} (s : NameStore) (action : Text) (answer : Except NameMap.Error α) :
    Except Failure α :=
  if s.isOpen && s.readOnly then .error (.plain (action ++ ": " ++ StoreFault.readOnly.message))
  else s.request action answer

def save (s : NameStore) (id entry : Text) (time : Instant) (entries : List NameEntry) :
    Except Failure NameStore :=
  if id.isAllBlank then .error (NameMap.Error.toFailure .blankId)
  else (s.change "save build" (s.map.save id entry time entries)).map fun map => { s with map }

/-- Records a build under the time that is given for it, or else under the present one. -/
def record (s : NameStore) (now : Instant) (id entry : Text) (given : Instant)
    (entries : List NameEntry) : Except Failure NameStore :=
  s.save id entry (if given == Instant.unset then now else given) entries

def latest (s : NameStore) : Except Failure BuildRecord :=
  s.request "load latest build" s.map.latest

/-- What a number stands for; no identifier means the newest build. -/
def lookup (s : NameStore) (build : Text) (code : Int64) : Except Failure NameEntry :=
  let action : Text := if build.isEmpty then "load latest build" else "lookup code"
  s.request action (s.map.lookup build code)

def entries (s : NameStore) (build : Text) : Except Failure (List NameEntry) :=
  s.request "load entries" (.ok (s.map.entries build))

/-- Removes all builds but the newest ones. -/
def prune (s : NameStore) (keep : Int) : Except Failure (NameStore × Nat) :=
  (s.change "prune builds" (.ok (s.map.prune keep))).map fun (map, removed) =>
    ({ s with map }, removed)

def close (s : NameStore) : NameStore := { s with isOpen := false }

end NameStore

end Splice

import Splice.Text.Percent
import Splice.Text.Quoted

/-!
# Addresses of recorded names

The path of a store is read as an address, followed by the settings that every store
has.  A host may stand in front, options may follow a question mark, a number sign
ends the address, and percent escapes stand for bytes.  The options say how a file
may be used, or that names are held in memory only.
-/

namespace Splice

/-- How the names of a store are reached. -/
inductive StoreMode where
  | readOnly
  /-- A file that has to be there. -/
  | existing
  /-- A file that is made if it is missing. -/
  | create
  | memory
deriving DecidableEq, Repr, Inhabited

namespace StoreMode

def ofName? (t : Text) : Option StoreMode :=
  if t == "ro" then some .readOnly
  else if t == "rw" then some .existing
  else if t == "rwc" then some .create
  else if t == "memory" then some .memory
  else none

/-- How much a mode allows. -/
def allowed : StoreMode → Nat
  | readOnly => 1
  | existing => 2
  | create => 6
  | memory => 128

/-- How much a mode asks for. -/
def needed : StoreMode → Nat
  | memory => 0
  | m => m.allowed

end StoreMode

/-- Why an address cannot be used. -/
inductive AddressFault where
  | semicolon
  | badEscape (piece : Text)
  | conflict (layers : List Text)
  | malformed
  | denied
  | unknownSetting (key value : Text)
deriving DecidableEq, Repr, Inhabited

def AddressFault.message : AddressFault → Text
  | semicolon => "invalid semicolon separator in query"
  | badEscape piece => "invalid URL escape " ++ Text.quote piece
  | conflict layers =>
      "conflicting vfs query parameters: [" ++ Text.join " " layers ++ "]"
  | malformed => "SQL logic error: out of memory (1)"
  | denied => "access permission denied: out of memory (3)"
  | unknownSetting key value => "unknown " ++ key ++ " " ++ Text.quote value

/-- Where a store keeps its names, and how they are reached. -/
structure NameAddress where
  file : Text
  mode : StoreMode
deriving DecidableEq, Repr, Inhabited

namespace NameAddress

/-- The settings of every store, as they follow its path. -/
def settings : Text :=
  "?_pragma=busy_timeout(2000)&_pragma=journal_mode(WAL)&_pragma=foreign_keys(ON)"

/-! ## The query

What follows the first question mark is a list of keys and values.  Here a plus sign
stands for a blank, and every percent sign has to start an escape. -/

private def ampersand : UInt8 := 38

private def equalsSign : UInt8 := 61

private def decodePart (t : Text) : Except AddressFault Text :=
  (Text.Percent.decode (Text.replaceByte 43 " " t)).mapError .badEscape

def queryPair (piece : Text) : Except AddressFault (Text × Text) := do
  let (key, value) := Text.cut equalsSign piece
  return (← decodePart key, ← decodePart (value.getD []))

/-- The keys and values of a query; a semicolon anywhere is a fault before all
others. -/
def query (t : Text) : Except AddressFault (List (Text × Text)) :=
  let pieces := (Text.splitAt ampersand t).filter fun piece => !piece.isEmpty
  if t.contains 59 then .error .semicolon else pieces.mapM queryPair

/-- The key of storage layers. -/
def layerKey : Text := "vfs"

def valuesOf (pairs : List (Text × Text)) (key : Text) : List Text :=
  (pairs.filter (·.1 == key)).map (·.2)

/-- The storage layer that a query asks for; one that is named again has to be the
same. -/
def layerIn (pairs : List (Text × Text)) : Except AddressFault Text :=
  let layers := valuesOf pairs layerKey
  layers.foldlM
    (fun found layer =>
      if !found.isEmpty && found != layer then .error (.conflict layers) else .ok layer) []

/-- The query of a store's path. -/
def queryOf (path : Text) : Except AddressFault (List (Text × Text)) :=
  query ((Text.cut 63 (path ++ settings)).2.getD [])

/-- Settings of a path have to be among those that are known. -/
def checkSettings (path : Text) : Except AddressFault Unit := do
  let pairs ← queryOf path
  let check (key : Text) (known : List Text) (shape : Text → Text) : Except AddressFault Unit :=
    let value := (valuesOf pairs key).headD []
    if value.isEmpty || known.contains (shape value) then .ok ()
    else .error (.unknownSetting key value)
  check "_time_format" ["sqlite"] id
  check "_txlock" ["deferred", "immediate", "exclusive"] Text.lower

/-! ## The address

Here percent signs that start no escape stand for themselves. -/

/-- What follows the host of an address; the host can only be this machine. -/
def afterHost? : Text → Option Text
  | 47 :: 47 :: rest =>
      let host := rest.takeWhile (· != 47)
      if host.isEmpty || host == "localhost" then some (rest.drop host.length) else none
  | t => some t

/-- The options of an address; those without a name count for nothing. -/
def options (t : Text) : List (Text × Text) :=
  (Text.splitAt ampersand t).filterMap fun piece =>
    let (key, value) := Text.cut equalsSign piece
    let key := Text.Percent.reveal key
    if key.isEmpty then none else some (key, Text.Percent.reveal (value.getD []))

/-- The mode after one more option; no option may ask for more than is allowed. -/
def applyOption (mode : StoreMode) (option : Text × Text) : Except AddressFault StoreMode :=
  let (key, value) := option
  if key == "cache" then
    if value == "shared" || value == "private" then .ok mode else .error .malformed
  else if key == "mode" then
    match StoreMode.ofName? value with
    | none => .error .malformed
    | some next => if mode.allowed < next.needed then .error .denied else .ok next
  else .ok mode

def usualLayer : Text := "unix"

def memoryLayer : Text := "memdb"

/-- The storage layers that there are. -/
def layers : List Text := [usualLayer, "unix-none", "unix-dotfile", "unix-excl", memoryLayer]

def parse (path : Text) : Except AddressFault NameAddress := do
  let asked ← layerIn (← queryOf path)
  match afterHost? ((path ++ settings).takeWhile (· != 0)) with
  | none => .error .malformed
  | some rest =>
      let (file, rest) := Text.cut 63 (rest.takeWhile (· != 35))
      let options := options (rest.getD [])
      let mode ← options.foldlM applyOption .create
      let fallback := if asked.isEmpty then usualLayer else asked
      let layer := (valuesOf options layerKey).getLastD fallback
      if !layers.contains layer then .error .malformed
      return ⟨Text.Percent.reveal file, if layer == memoryLayer then .memory else mode⟩

/-- Names without a file are gone once their store is closed. -/
def isInMemory (a : NameAddress) : Bool :=
  a.mode == .memory || a.file.isEmpty || a.file == ":memory:"

end NameAddress

end Splice

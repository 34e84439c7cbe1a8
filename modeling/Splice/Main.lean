import Splice.Command.Run
import Splice.Project.Watch

/-!
# The command

Reads what a run looks at into a disk in memory, runs the command on it, and
writes what has changed back.  Sources that turn out to be missing are looked for
and the run is repeated.
-/

namespace Splice.Command

def toBytes (t : Text) : ByteArray := ⟨t.toArray⟩

def ofBytes (bytes : ByteArray) : Text := bytes.toList

def nodeOf (content : Text) : DiskNode :=
  match NameMap.decode? content with
  | some map => if content.isEmpty then .file content else .names map
  | none => .file content

/-- Reads what stands at some elements below others that are known. -/
def readBelow (disk : Disk) (above : List Text) : List Text → IO Disk
  | [] => return disk
  | e :: rest => do
      let es := above ++ [e]
      let path := (← IO.currentDir) / (Path.ofElements true es).toString
      if ← path.isDir then readBelow (disk.set es .directory) es rest
      else if ← path.pathExists then
        return disk.set es (nodeOf (ofBytes (← IO.FS.readBinFile path)))
      else return disk

/-- Reads what stands at a path, and the directories above it. -/
def readPath (disk : Disk) (path : Text) : IO Disk := readBelow disk [] (Path.elements path)

def writeFile (es : List Text) (content : Text) : IO Unit := do
  let path := (← IO.currentDir) / (Path.ofElements true es).toString
  let draft := (← IO.currentDir) / (Disk.draftPath (Path.ofElements true es)).toString
  IO.FS.writeBinFile draft (toBytes content)
  IO.FS.rename draft path

/-- Writes what one disk has and another has not. -/
def writeChanges (old new : Disk) : IO Unit := do
  for (es, node) in new.nodes do
    if old.node? es != some node then
      match node with
      | .directory =>
          IO.FS.createDirAll ((← IO.currentDir) / (Path.ofElements true es).toString)
      | .file content => writeFile es content
      | .names map => writeFile es map.encode

/-- The present moment, taken from a file that is written now. -/
def now : IO Instant := do
  let (_, path) ← IO.FS.createTempFile
  let modified := (← path.metadata).modified
  IO.FS.removeFile path
  return ⟨modified.sec * Instant.nanosPerSecond + modified.nsec.toNat⟩

/-- A random identifier in five groups of hexadecimal digits. -/
def freshId : IO Text := do
  let bytes := ofBytes (← IO.getRandomBytes 16)
  let bytes := bytes.zipIdx.map fun (b, i) =>
    if i == 6 then b % 16 + 64 else if i == 8 then b % 64 + 128 else b
  let digits := bytes.flatMap fun b => Text.hex 2 b.toNat
  return Text.join "-" [digits.take 8, (digits.drop 8).take 4, (digits.drop 12).take 4,
    (digits.drop 16).take 4, digits.drop 20]

def freshStamp : IO BuildStamp := return ⟨← freshId, ← now⟩

def readEnvironment : IO Environment := do
  let values ← Environment.names.mapM fun name => do
    return (← IO.getEnv name.toString).map fun value => (name, Text.ofString value)
  return values.filterMap id

def put (stream : IO.FS.Stream) (t : Text) : IO Unit := do
  stream.write (toBytes t)
  stream.flush

def report (o : Outcome) : IO Unit := do
  put (← IO.getStdout) o.stdout
  put (← IO.getStderr) o.stderr
  for l in o.log do
    put (← IO.getStderr) (line ("time=" ++ (← now).text ++ " " ++ l))

/-- Repeats an action with more and more sources on the disk, until none of those
it misses can be found. -/
partial def withSources {α : Type} (disk : Disk) (act : Disk → α) (missing? : α → Option Text) :
    IO (α × Disk) := do
  let result := act disk
  match missing? result with
  | none => return (result, disk)
  | some path =>
      let more ← readPath disk path
      if more == disk then return (result, disk) else withSources more act missing?

/-! ## Watching -/

/-- The sources below a directory, with the times of their last changes. -/
partial def sourcesBelow (w : Watcher) (dir : Text) : IO (List (Text × Int × Nat)) := do
  let path := (← IO.currentDir) / dir.toString
  if !(← path.isDir) then return []
  let mut found := []
  for e in ← path.readDir do
    let place := Path.join [dir, Text.ofString e.fileName]
    if ← e.path.isDir then
      if !w.isExcluded place then found := found ++ (← sourcesBelow w place)
    else if Watcher.isSource place then
      let modified := (← e.path.metadata).modified
      found := found ++ [(place, modified.sec, modified.nsec.toNat)]
  return found

def allSources (p : Project) : IO (List (Text × Int × Nat)) := do
  let w := p.watcher.getD {}
  return (← p.watchRoots.mapM (sourcesBelow w)).flatten

/-- Builds a project from what its disk holds now. -/
def rebuild (p : Project) (workingDir : Text) (changed : List Text) : IO Project := do
  let stamp ← freshStamp
  let places := [p.paths.root, p.paths.entry, p.paths.stdlib, p.paths.output, p.paths.disasm]
  let disk ← (places.filter fun path => !path.isEmpty).foldlM readPath ({} : Disk)
  let ((result, p, after), disk) ← withSources disk (fun d => p.build d workingDir stamp changed)
    fun (result, _, _) =>
      match result with
      | .error e => { exitCode := 1, failure := some e : Outcome }.missingSource?
      | .ok _ => none
  writeChanges disk after
  match result with
  | .error e => put (← IO.getStderr) (line e.display)
  | .ok _ =>
      put (← IO.getStdout) (line ("rebuilt after " ++ Text.ofNat changed.length ++
        " change(s) " ++ stamp.id))
  return p

/-- Rebuilds a project whenever its sources have changed and come to rest. -/
partial def watch (p : Project) (workingDir : Text) (w : Watcher)
    (seen : List (Text × Int × Nat)) : IO Unit := do
  IO.sleep (p.config.watch.debounce.toInt.toNat / 1000000).toUInt32
  let present ← allSources p
  let changed := (present.filter fun s => !seen.contains s) ++
    seen.filter fun s => !present.any (·.1 == s.1)
  let w := changed.foldl (fun w s => w.schedule s.1) w
  if changed.isEmpty then
    let (batch, w) := w.flush
    match batch with
    | none => watch p workingDir w present
    | some paths => watch (← rebuild p workingDir paths) workingDir w present
  else watch p workingDir w present

end Splice.Command

open Splice Splice.Command in
def main (args : List String) : IO UInt32 := do
  let args := args.map Text.ofString
  let workingDir := Text.ofString (← IO.currentDir).toString
  let i : Invocation := { args, env := ← readEnvironment, workingDir, stamp := ← freshStamp }
  if let .error e := Flags.parse args then put (← IO.getStderr) (line e.message)
  let start ← (workingDir :: pathsOf i {}).foldlM readPath {}
  let start ← (pathsOf i start).foldlM readPath start
  let ((outcome, after), disk) ← withSources start (run i) fun (o, _) => o.missingSource?
  writeChanges disk after
  report outcome
  match outcome.watching with
  | none => return outcome.exitCode.toUInt32
  | some p =>
      watch p workingDir {} (← allSources p)
      return 0

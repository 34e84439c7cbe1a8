import Splice.Command.Display
import Splice.Command.Overrides
import Splice.Config.Environment
import Splice.Config.Validate
import Splice.Project.Outputs

/-!
# Running the command

One run of the command: read the flags, load the configuration and let the
environment and the flags override it, and then build the project or lead a number
back to its name.
-/

namespace Splice.Command

/-- What a run is given. -/
structure Invocation where
  args : List Text
  env : Environment := []
  workingDir : Text
  stamp : BuildStamp

/-- What a run leaves behind, next to the disk. -/
structure Outcome where
  exitCode : Nat
  stdout : Text := []
  stderr : Text := []
  log : List Text := []
  /-- The failure of a build or a look-up. -/
  failure : Option Failure := none
  /-- The project that the command is asked to go on watching. -/
  watching : Option Project := none
deriving Inhabited

def versionText : Text := "1.0.0"

def line (t : Text) : Text := t ++ [Text.newline]

namespace Outcome

def ofLog (lines : List Text) : Outcome := { exitCode := 1, log := lines }

def ofComplaint (t : Text) : Outcome := { exitCode := 1, stderr := line t }

def ofFailure (f : Failure) : Outcome :=
  { exitCode := 1, stderr := line f.display, failure := some f }

end Outcome

def demangle (p : Project) (flags : Flags) : Outcome :=
  match p.demangle flags.buildId flags.demangle with
  | .error e => .ofFailure e
  | .ok e =>
      { exitCode := 0
        stdout := line (Text.ofInt64 e.code ++ "\t" ++ e.describe ++ "\t" ++ e.kind) }

def build (i : Invocation) (p : Project) (flags : Flags) (disk : Disk) : Outcome × Disk :=
  let (result, p, disk) := p.build disk i.workingDir i.stamp []
  let watching := if flags.watch then some p else none
  match result with
  | .error e =>
      ({ Outcome.ofFailure e with exitCode := if flags.watch then 0 else 1, watching }, disk)
  | .ok r => ({ exitCode := 0, stdout := line (r.summary p.paths), watching }, disk)

def runProject (i : Invocation) (flags : Flags) (root : Text) (config : Config) (disk : Disk) :
    Outcome × Disk :=
  match Project.create disk i.workingDir root (some config) with
  | (.error e, disk) => (.ofLog [LogLine.error "failed to initialize app" e], disk)
  | (.ok p, disk) =>
      if 0 ≤ flags.demangle then (demangle p flags, disk) else build i p flags disk

/-- The configuration that a run works with; without one the run is over.  Only
the default file may be missing. -/
def configure (i : Invocation) (flags : Flags) (disk : Disk) : Except Outcome Config :=
  let path := Path.absolute i.workingDir flags.config
  match Config.loadFile disk (flags.config == Flags.defaultConfig) path with
  | .error e => .error (.ofLog [LogLine.error "failed to load config" e.toFailure])
  | .ok config =>
      match flags.override (i.env.override config) with
      | (_, some complaint) => .error (.ofComplaint complaint)
      | (config, none) =>
          match config.complaints with
          | [] => .ok config
          | complaints =>
              .error (.ofLog (complaints.map fun t => LogLine.error "invalid config" (.plain t)))

/-- The directory of the project: the one of its configuration file. -/
def rootOf (i : Invocation) (flags : Flags) : Text :=
  Path.dir (Path.absolute i.workingDir flags.config)

def runFlags (i : Invocation) (flags : Flags) (disk : Disk) : Outcome × Disk :=
  match configure i flags disk with
  | .error outcome => (outcome, disk)
  | .ok config => runProject i flags (rootOf i flags) config disk

/-- Runs the command.  Flags that cannot be read end it at once. -/
def run (i : Invocation) (disk : Disk) : Outcome × Disk :=
  match Flags.parse i.args with
  | .error _ => ({ exitCode := 2 }, disk)
  | .ok flags =>
      if flags.version then ({ exitCode := 0, stdout := line ("weave v" ++ versionText) }, disk)
      else runFlags i flags disk

/-- The paths that a run looks at before it knows what its sources import. -/
def pathsOf (i : Invocation) (disk : Disk) : List Text :=
  match Flags.parse i.args with
  | .error _ => []
  | .ok flags =>
      let others :=
        match configure i flags disk with
        | .error _ => []
        | .ok config =>
            match config.paths i.workingDir (rootOf i flags) with
            | .error _ => []
            | .ok p =>
                [p.root, p.entry, p.stdlib, p.output, p.disasm,
                  NameStore.fileOf i.workingDir p.symbolMap]
      (Path.absolute i.workingDir flags.config :: others).filter fun path => !path.isEmpty

/-- The source that a run misses, if that is why it failed. -/
def Outcome.missingSource? (o : Outcome) : Option Text := do
  let (head, _) ← (← o.failure).firstCoded?
  if head.code == .importFailed then (head.context.find? (·.1 == ("path" : Text))).map (·.2)
  else none

end Splice.Command

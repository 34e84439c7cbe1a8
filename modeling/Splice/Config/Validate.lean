import Splice.Config.Decode
import Splice.Disk
import Splice.Failure
import Splice.Glob

/-!
# Validating configurations

Four checks, one for each part of a configuration; each gives its first
complaint.  Loading stops at the first complaint of all, `Config.complaints` gives
the complaint of every check.  A file that may be missing stands for the configuration
in which nothing is set.
-/

namespace Splice.Config

def checkVersion (c : Config) : Except Text Unit :=
  if c.version == 1 then .ok ()
  else .error ("unsupported config version " ++ Text.ofInt64 c.version ++
    "; supported version is 1")

def sourceExtension : Text := ".wv"

/-- The first pattern that cannot be read, with its position. -/
def checkPatterns (readPattern : PatternReader) (what : Text) (patterns : List Text) :
    Except Text Unit :=
  patterns.zipIdx.forM fun (pattern, i) =>
    match readPattern pattern with
    | .ok _ => .ok ()
    | .error e =>
        .error (what ++ "[" ++ Text.ofNat i ++ "] " ++ Text.quote pattern ++
          " is not a valid pattern: " ++ e)

def checkBuild (readPattern : PatternReader) (c : Config) : Except Text Unit :=
  if Path.extension c.entry != sourceExtension then
    .error ("entry " ++ Text.quote c.entry ++ " must be a .wv file")
  else if !c.stdlib.isEmpty && Path.extension c.stdlib != sourceExtension then
    .error ("stdlib " ++ Text.quote c.stdlib ++ " must be a .wv file")
  else if c.build.prunePassLimit < 1 then
    .error ("build.prune_pass_limit must be >= 1, got " ++ Text.ofInt64 c.build.prunePassLimit)
  else checkPatterns readPattern "build.retain" c.build.retain

/-- The first of some named paths that an earlier one has as well. -/
def checkDistinct : (seen : List (Text × Text)) → List (Text × Text) → Except Text Unit
  | _, [] => .ok ()
  | seen, (key, path) :: rest =>
      if path.isEmpty then checkDistinct seen rest
      else
        match seen.find? (·.1 == Path.clean path) with
        | some (_, earlier) =>
            .error ("output conflict: " ++ earlier ++ " and " ++ key ++
              " share the same path " ++ Text.quote path)
        | none => checkDistinct (seen ++ [(Path.clean path, key)]) rest

def checkOutput (c : Config) : Except Text Unit :=
  if c.output.path.isEmpty then .error "output.path must not be empty"
  else
    checkDistinct []
      [("output.path", c.output.path), ("output.disasm", c.output.disasm),
        ("output.symbol_map", c.output.symbolMap)]

/-- Directory patterns must be readable and not blank. -/
def checkExcludeDirs (readPattern : PatternReader) (dirs : List Text) : Except Text Unit :=
  dirs.zipIdx.forM fun (dir, i) =>
    let name := "watch.exclude_dirs[" ++ Text.ofNat i ++ "]"
    if dir.isAllBlank then .error (name ++ " must not be empty")
    else
      match readPattern dir with
      | .ok _ => .ok ()
      | .error e => .error (name ++ " " ++ Text.quote dir ++ " is not a valid pattern: " ++ e)

def checkWatch (readPattern : PatternReader) (c : Config) : Except Text Unit :=
  let debounce := c.watch.debounce
  if debounce.toInt < 0 || (Duration.minute : Int) < debounce.toInt then
    .error ("watch.debounce must be between 0 and 1m, got " ++ debounce.render)
  else if c.watch.maxRebuildsPerSecond.isNegative then
    .error "watch.max_rebuilds_per_second must not be negative"
  else checkExcludeDirs readPattern c.watch.excludeDirs

/-- What is wrong with a configuration, check by check. -/
def complaints (c : Config) (readPattern : PatternReader := Glob.reader) : List Text :=
  [checkVersion c, checkBuild readPattern c, checkOutput c, checkWatch readPattern c].filterMap fun
    | .ok _ => none
    | .error e => some e

/-- Why a configuration file cannot be used. -/
inductive LoadError where
  | unreadable (cause : Failure)
  /-- The text is no document, or a value has the wrong type. -/
  | malformed
  | invalid (complaint : Text)

/-- The configuration that a file's text describes, complete and checked. -/
def load (text : Text) : Except LoadError Config :=
  match ofToml? text with
  | none => .error .malformed
  | some c =>
      let c := c.withDefaults.normalize
      match c.complaints with
      | [] => .ok c
      | complaint :: _ => .error (.invalid complaint)

def LoadError.toFailure : LoadError → Failure
  | unreadable cause => cause
  | malformed => .plain "toml: malformed document"
  | invalid complaint => .plain complaint

def loadFile (disk : Disk) (mayBeMissing : Bool) (path : Text) : Except LoadError Config :=
  match disk.read path with
  | .ok text => load text
  | .error e =>
      if mayBeMissing && e.fault == .missing then .ok default
      else .error (.unreadable (.ofDisk e))

end Splice.Config

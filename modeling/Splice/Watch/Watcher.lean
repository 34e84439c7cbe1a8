import Splice.Disk
import Splice.Glob
import Splice.Path

/-!
# Watching for changes

A watcher knows which directories it watches and which changed files it has not
reported yet.  Changes are collected, and reported as one sorted batch once they
have come to rest.  Directories that lie below another one need not be watched on their
own: a few roots cover them all.
-/

namespace Splice

structure Watcher where
  /-- Directories with such names are not watched. -/
  excluded : List NamePattern := []
  /-- The directories that are watched, sorted. -/
  directories : List Text := []
  /-- The changed files that are not reported yet, sorted. -/
  pending : List Text := []
  isClosed : Bool := false
deriving Inhabited

namespace Watcher

def sourceExtension : Text := ".wv"

/-- Why there can be no watcher. -/
inductive Error where
  /-- Nobody is there to report changes to. -/
  | noSubscriber
  | badPattern (cause : Text)

def Error.message : Error → Text
  | noSubscriber => "invalid argument"
  | badPattern cause => cause

/-- A watcher that leaves out directories by the patterns of their names. -/
def create (hasSubscriber : Bool) (excludeDirs : List Text)
    (readPattern : PatternReader := Glob.reader) : Except Error Watcher :=
  if !hasSubscriber then .error .noSubscriber
  else
    match excludeDirs.mapM readPattern with
    | .ok excluded => .ok { excluded }
    | .error e => .error (.badPattern e)

def isExcluded (w : Watcher) (path : Text) : Bool :=
  w.excluded.any fun g => g.matchesName (Path.base path)

/-- Whether a change of a file matters; the case of the extension does not. -/
def isSource (path : Text) : Bool := (Path.extension path).lower == sourceExtension

/-- A sorted list with one more member. -/
def insertSorted (t : Text) : List Text → List Text
  | [] => [t]
  | x :: rest =>
      if x == t then x :: rest
      else if Text.le t x then t :: x :: rest
      else x :: insertSorted t rest

def schedule (w : Watcher) (path : Text) : Watcher :=
  { w with pending := insertSorted path w.pending }

/-- Reports what has changed, if anything has and the watcher is not closed. -/
def flush (w : Watcher) : Option (List Text) × Watcher :=
  let batch := if w.pending.isEmpty || w.isClosed then none else some w.pending
  (batch, { w with pending := [] })

/-- Notes all sources at a path and below it as changed. -/
def scheduleAll (w : Watcher) (disk : Disk) (path : Text) : Watcher :=
  (disk.below (Path.elements path)).foldl
    (fun w (es, node) =>
      let path := Path.ofElements true es
      match node with
      | .directory => w
      | _ => if isSource path then w.schedule path else w)
    w

/-- Whether a directory below a root is watched: neither it nor a directory
between the two has an excluded name. -/
def reaches (w : Watcher) (root es : List Text) : Bool :=
  (es.drop root.length).all fun name => !w.isExcluded name

/-- The directories from a root on that are to be watched.  The root itself is
never excluded. -/
def directoriesFrom (w : Watcher) (disk : Disk) (root : List Text) : List Text :=
  let found := (disk.below root).filterMap fun
    | (es, .directory) => if w.reaches root es then some (Path.ofElements true es) else none
    | _ => none
  if root.isEmpty then Path.ofElements true [] :: found else found

/-- Watches a directory and everything below it.  A root that is a file has
nothing to watch. -/
def watch (w : Watcher) (disk : Disk) (root : Text) : Except Failure Watcher :=
  let es := Path.elements root
  match disk.find es with
  | .error fault => .error (.ofDisk ⟨"lstat", root, fault⟩)
  | .ok .directory =>
      if w.isClosed then .error (.plain "watcher already closed")
      else
        .ok { w with directories := (w.directoriesFrom disk es).foldr insertSorted w.directories }
  | .ok _ => .ok w

/-- Watches several roots, up to the first that cannot be watched. -/
def watchAll (w : Watcher) (disk : Disk) : List Text → Except Failure Watcher
  | [] => .ok w
  | root :: rest => do (← w.watch disk root).watchAll disk rest

/-- A closed watcher reports nothing more. -/
def close (w : Watcher) : Watcher := { w with directories := [], isClosed := true }

end Watcher

end Splice

namespace Splice.Watch

/-- Adds a cleaned path to roots: the first root that covers it makes it
superfluous, and it takes the place of the first root that it covers itself. -/
def addRoot (candidate : Text) : List Text → List Text
  | [] => [candidate]
  | root :: rest =>
      if Path.isWithin candidate root then root :: rest
      else if Path.isWithin root candidate then candidate :: rest
      else root :: addRoot candidate rest

/-- The roots for some paths, in order of their first appearance. -/
def roots (paths : List Text) : List Text :=
  paths.foldl (fun found path => addRoot (Path.clean path) found) []

end Splice.Watch

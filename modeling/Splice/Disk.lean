import Splice.NameMap.Format
import Splice.Path

/-!
# Directories and files

A disk is a tree of directories with files in them, held in memory and addressed
by the elements of absolute paths.  Recorded names are files of their own kind: no
text that someone writes is taken for them.  Every operation gives the disk that it
leaves behind, so that a run of the whole program is a function of the disk it
starts with.
-/

namespace Splice

/-- What stands at a path. -/
inductive DiskNode where
  | directory
  | file (content : Text)
  | names (map : NameMap)
deriving DecidableEq, Repr, Inhabited

/-- Why a path cannot be used. -/
inductive DiskFault where
  | missing
  | notDirectory
  | isDirectory
  | occupied
  | nameTooLong
  | invalid
  | separatorInName
  /-- Whatever else the system gives as its reason. -/
  | refused (reason : Text)
deriving DecidableEq, Repr, Inhabited

def DiskFault.message : DiskFault → Text
  | missing => "no such file or directory"
  | notDirectory => "not a directory"
  | isDirectory => "is a directory"
  | occupied => "file exists"
  | nameTooLong => "file name too long"
  | invalid => "invalid argument"
  | separatorInName => "pattern contains path separator"
  | refused reason => reason

/-- A fault with the action that ran into it. -/
structure DiskError where
  action : Text
  path : Text
  fault : DiskFault
deriving DecidableEq, Repr, Inhabited

def DiskError.message (e : DiskError) : Text := e.action ++ " " ++ e.path ++ ": " ++ e.fault.message

def Failure.ofDisk (e : DiskError) : Failure := .plain e.message

/-- All nodes below the root, which is always there. -/
structure Disk where
  nodes : List (List Text × DiskNode) := []
deriving DecidableEq, Repr, Inhabited

namespace Disk

/-- The node at the end of some elements, wherever they lead. -/
def node? (d : Disk) (es : List Text) : Option DiskNode :=
  if es.isEmpty then some .directory else (d.nodes.find? (·.1 == es)).map (·.2)

/-- No element of a path may have more bytes. -/
def maxElement : Nat := 255

/-- All paths have fewer bytes. -/
def pathLimit : Nat := 4096

/-- Follows elements down from a node. -/
def descend (d : Disk) : (above rest : List Text) → Except DiskFault DiskNode
  | above, [] =>
      match d.node? above with
      | some n => .ok n
      | none => .error .missing
  | above, e :: rest =>
      match d.node? above with
      | some .directory =>
          if maxElement < e.length then .error .nameTooLong else descend d (above ++ [e]) rest
      | some _ => .error .notDirectory
      | none => .error .missing

/-- What stands at the end of some elements; all before it must be directories. -/
def find (d : Disk) (es : List Text) : Except DiskFault DiskNode :=
  if es.any (·.contains 0) then .error .invalid
  else if pathLimit ≤ (Path.ofElements true es).length then .error .nameTooLong
  else d.descend [] es

def isDirectory (d : Disk) (path : Text) : Bool :=
  match d.find (Path.elements path) with
  | .ok .directory => true
  | _ => false

def set (d : Disk) (es : List Text) (n : DiskNode) : Disk :=
  ⟨d.nodes.filter (·.1 != es) ++ [(es, n)]⟩

/-- The disk without a path and everything below it. -/
def remove (d : Disk) (path : Text) : Disk :=
  let es := Path.elements path
  ⟨d.nodes.filter fun (at_, _) => !es.isPrefixOf at_⟩

def read (d : Disk) (path : Text) : Except DiskError Text :=
  match d.find (Path.elements path) with
  | .ok (.file content) => .ok content
  | .ok (.names map) => .ok map.encode
  | .ok .directory => .error ⟨"read", path, .isDirectory⟩
  | .error fault => .error ⟨"open", path, fault⟩

/-- Makes a directory and the ones above it; the elements come last one first.  A
directory that is only made for the sake of a deeper one is named with a slash
behind it. -/
def makeDirectoriesAt (d : Disk) (forDeeper : Bool) : List Text → Except DiskError Disk
  | [] => .ok d
  | e :: above =>
      let es := (e :: above).reverse
      let name := Path.ofElements true es ++ if forDeeper then [Path.slash] else []
      match d.find es with
      | .ok .directory => .ok d
      | .ok _ => .error ⟨"mkdir", name, if forDeeper then .occupied else .notDirectory⟩
      | .error _ => do
          let d ← makeDirectoriesAt d true above
          match d.find es with
          | .error .missing => .ok (d.set es .directory)
          | .error fault => .error ⟨"mkdir", name, fault⟩
          | .ok _ => .ok d

/-- Makes a directory and the ones above it, as far as they are missing. -/
def makeDirectories (d : Disk) (path : Text) : Except DiskError Disk :=
  d.makeDirectoriesAt false (Path.elements path).reverse

/-- The path of the temporary file that a file is prepared in. -/
def draftPath (path : Text) : Text := Path.join [Path.dir path, "." ++ Path.base path ++ ".tmp"]

/-- Replaces a file in one step: its content is prepared next to it and then takes
its place, so that no reader sees half of it.  The disk comes back in any case,
because directories that were made stay and a draft that cannot take its place is
left behind. -/
def replace (d : Disk) (path content : Text) : Except DiskError Unit × Disk :=
  let draft := draftPath path
  match d.makeDirectories (Path.dir path) with
  | .error e => (.error e, d)
  | .ok d =>
      if Path.base path == [Path.slash] then (.error ⟨"createtemp", "./.*", .separatorInName⟩, d)
      else if d.isDirectory path then
        (.error ⟨"rename " ++ draft, path, .occupied⟩,
          d.set (Path.elements draft) (.file content))
      else
        match d.find (Path.elements draft) with
        | .error .nameTooLong => (.error ⟨"open", draft, .nameTooLong⟩, d)
        | .error .invalid => (.error ⟨"open", draft, .invalid⟩, d)
        | _ => (.ok (), d.set (Path.elements path) (.file content))

/-- How the system may refuse to replace a file although nothing on the disk stands in the
way.  The file itself is not touched before its draft takes its place. -/
inductive Refusal where
  /-- The directories cannot all be made; so many are missing in the end. -/
  | directories (missing : Nat) (error : DiskError)
  /-- The draft cannot be written or cannot take its place; it may be left behind. -/
  | draft (left : Option Text) (error : DiskError)
deriving DecidableEq, Repr, Inhabited

/-- Replaces a file in one step, unless the system refuses. -/
def replaceUnless (d : Disk) (path content : Text) : Option Refusal → Except DiskError Unit × Disk
  | none => d.replace path content
  | some (.directories missing e) =>
      let made := (Path.elements (Path.dir path)).reverse.drop missing
      (.error e, (d.makeDirectoriesAt true made).toOption.getD d)
  | some (.draft left e) =>
      match d.makeDirectories (Path.dir path) with
      | .error e => (.error e, d)
      | .ok d =>
          (.error e, match left with
            | none => d
            | some text => d.set (Path.elements (draftPath path)) (.file text))

/-- The nodes at a path and below it, sorted by path. -/
def below (d : Disk) (es : List Text) : List (List Text × DiskNode) :=
  (d.nodes.filter fun (at_, _) => es.isPrefixOf at_).mergeSort fun a b =>
    Text.le (Text.join [0] a.1) (Text.join [0] b.1)

/-- All files by their absolute paths, sorted. -/
def files (d : Disk) : List (Text × Text) :=
  let found := d.nodes.filterMap fun
    | (es, .file content) => some (Path.ofElements true es, content)
    | (es, .names map) => some (Path.ofElements true es, map.encode)
    | (_, .directory) => none
  found.mergeSort fun a b => Text.le a.1 b.1

end Disk

end Splice

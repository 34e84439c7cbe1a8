import Splice.Text.Character

/-!
# Slash-separated paths

Paths are texts; `/` separates their elements and starts the absolute ones.
`Path.clean` is the shortest path with the same meaning: it drops empty and `.`
elements and resolves each `..` against the element before it.  The functions
below work on the list of elements that a cleaned path is made of.
-/

namespace Splice.Path

def slash : UInt8 := 47

def dot : Text := [46]

def dotDot : Text := [46, 46]

def isAbsolute (p : Text) : Bool := p.head? == some slash

/-- Adds one element to the reversed elements of a cleaned path. -/
def push (rooted : Bool) (elements : List Text) (element : Text) : List Text :=
  if element.isEmpty || element == dot then elements
  else if element == dotDot then
    match elements with
    | [] => if rooted then [] else [dotDot]
    | last :: before => if last == dotDot then dotDot :: elements else before
  else element :: elements

def elements (p : Text) : List Text :=
  ((Text.splitAt slash p).foldl (push (isAbsolute p)) []).reverse

/-- The path that elements spell. -/
def ofElements (rooted : Bool) (es : List Text) : Text :=
  if rooted then slash :: Text.join [slash] es
  else if es.isEmpty then dot
  else Text.join [slash] es

def clean (p : Text) : Text := ofElements (isAbsolute p) (elements p)

/-- Paths put one below another, cleaned; leading empty ones are left out. -/
def join (ps : List Text) : Text :=
  match ps.dropWhile List.isEmpty with
  | [] => []
  | rest => clean (Text.join [slash] rest)

/-- The path made absolute against a working directory, cleaned. -/
def absolute (workingDir p : Text) : Text :=
  if isAbsolute p then clean p else join [workingDir, p]

/-- The bytes of a path up to and including its last slash. -/
private def upToSlash (p : Text) : Text := (p.reverse.dropWhile (· != slash)).reverse

/-- The last element; `.` for an empty path and `/` for one of slashes only. -/
def base (p : Text) : Text :=
  if p.isEmpty then dot
  else
    let stripped := p.reverse.dropWhile (· == slash)
    if stripped.isEmpty then [slash] else (stripped.takeWhile (· != slash)).reverse

/-- Everything but the last element, cleaned. -/
def dir (p : Text) : Text := clean (upToSlash p)

/-- The last element from its last dot on; empty without a dot. -/
def extension (p : Text) : Text :=
  let last := p.reverse.takeWhile (· != slash)
  match last.dropWhile (· != 46) with
  | [] => []
  | _ => ((last.takeWhile (· != 46)) ++ [46]).reverse

/-- Elements that are left of two lists after their common start. -/
def dropCommon : List Text → List Text → List Text × List Text
  | a :: as, b :: bs => if a == b then dropCommon as bs else (a :: as, b :: bs)
  | as, bs => (as, bs)

/-- The path from a base to a target: up from what only the base has, down to
what only the target has.  There is none from a base that climbs out by `..`
where the target does not, nor between an absolute and a relative path. -/
def relative? (from_ target : Text) : Option Text :=
  if clean from_ == clean target then some dot
  else if isAbsolute from_ != isAbsolute target then none
  else
    let targetElements :=
      if clean target == dot then [dot] else elements target
    let (up, down) := dropCommon (elements from_) targetElements
    match up, down with
    | first :: _, _ :: _ =>
        if first == dotDot then none
        else some (Text.join [slash] (up.map (fun _ => dotDot) ++ down))
    | _, _ => some (Text.join [slash] (up.map (fun _ => dotDot) ++ down))

/-- Whether a path is the root itself or lies below it. -/
def isWithin (path root : Text) : Bool :=
  match relative? root path with
  | none => false
  | some rel => rel != dotDot && !(Text.startsWith rel (dotDot ++ [slash]))

/-- A configured path: blanks around it are dropped, an absolute one stands for
itself and any other is taken below the base. -/
def resolve (base_ value : Text) : Text :=
  let raw := value.trim
  if raw.isEmpty then clean base_
  else if isAbsolute raw then clean raw
  else join [base_, raw]

end Splice.Path

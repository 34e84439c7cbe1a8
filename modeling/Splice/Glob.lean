import Splice.Glob.Matcher
import Splice.NamePattern

/-!
# Globs

The patterns that the linker reads where nothing else is asked for.  A glob is compiled
into a matcher before it is used: neighbours that only count characters become one
count, neighbours of fixed widths become a row, and what is left is arranged around its
widest piece of a fixed width.
-/

namespace Splice

namespace Glob

/-! ## Joining neighbours -/

/-- The characters that a counting piece rules out; other pieces do not count. -/
def excluded? : Matcher → Option (List Nat)
  | .anything => some []
  | .single => some []
  | .oneOf points true => some points
  | _ => none

/-- Several pieces that rule out the same characters as one count of characters. -/
def joinCounts (ms : List Matcher) : Option Matcher := do
  let excluded ← ms.mapM excluded?
  let points ← excluded.head?
  if ms.length < 2 || excluded.any (· != points) then none
  else
    let count := (ms.filter fun m => !(m matches .anything)).length
    if ms.any (· matches .anything) then
      some (if count == 0 then .anything else .atLeast count)
    else
      let limits : List Matcher := [.atLeast count, .atMost count]
      some (.every (if points.isEmpty then limits
        else limits ++ [.lacking (points.flatMap Text.encodePoint)]))

/-- Several pieces of fixed widths as a row. -/
def joinRow (ms : List Matcher) : Option Matcher :=
  if ms.length < 2 || ms.any (·.width.isNone) then none else some (.row ms)

def join (ms : List Matcher) : Option Matcher := (joinCounts ms).or (joinRow ms)

/-- A run of neighbours that can be joined. -/
structure Joint where
  start : Nat
  count : Nat
  joined : Matcher

/-- All runs of neighbours that can be joined: earlier ones first, and of those with
the same start longer ones first. -/
def joints (ms : List Matcher) : List Joint :=
  (List.range ms.length).flatMap fun start =>
    (List.range (ms.length - start)).reverse.filterMap fun last =>
      (join ((ms.drop start).take (last + 1))).map fun joined => ⟨start, last + 1, joined⟩

/-- Whether a joint is preferred to another: it is wider, or joins more pieces. -/
def Joint.isBetter (a b : Joint) : Bool :=
  (match a.joined.width, b.joined.width with
    | some m, some n => n < m
    | _, _ => false) || b.count < a.count

/-- The joint that is preferred to all before it and not surpassed by one behind. -/
def bestJoint (ms : List Matcher) : Option Joint :=
  (joints ms).foldl
    (fun best j =>
      match best with
      | none => some j
      | some b => if j.isBetter b then some j else some b)
    none

/-- Joins neighbours until nothing is left to join.  Every step leaves fewer
pieces. -/
def joinAll : (fuel : Nat) → List Matcher → List Matcher
  | 0, ms => ms
  | fuel + 1, ms =>
      match bestJoint ms with
      | none => ms
      | some j => joinAll fuel (ms.take j.start ++ [j.joined] ++ ms.drop (j.start + j.count))

/-! ## Arranging pieces -/

/-- The position of the widest piece of a fixed width, the last of several. -/
def widest? (ms : List Matcher) : Option Nat :=
  let best := ms.zipIdx.foldl
    (fun (best : Option (Nat × Nat)) (m, i) =>
      match m.width, best with
      | none, _ => best
      | some w, none => some (w, i)
      | some w, some (v, _) => if v ≤ w then some (w, i) else best)
    none
  best.map (·.2)

/-- One matcher for pieces that follow one another. -/
def arrange : (fuel : Nat) → List Matcher → Matcher
  | _, [] => .nothing
  | _, [m] => m
  | 0, m :: _ => m
  | fuel + 1, m :: rest =>
      let ms := m :: rest
      match join ms with
      | some joined => joined
      | none =>
          match widest? ms with
          | none => .around m .nothing (arrange fuel rest)
          | some i =>
              .around (ms.getD i .nothing) (arrange fuel (ms.take i))
                (arrange fuel (ms.drop (i + 1)))

/-- A text with two neighbours by the shortest test there is. -/
def aroundText (value : Text) : (left right : Matcher) → Matcher
  | .nothing, .nothing => .text value
  | .anything, .anything => .containing value
  | .anything, .nothing => .endingWith value
  | .nothing, .anything => .startingWith value
  | .nothing, .endingWith ending => .framed value ending
  | .startingWith start, .nothing => .framed start value
  | left, right => .around (.text value) left right

/-- A matcher by the shortest test there is. -/
def simplify : Matcher → Matcher
  | .either [m] => m
  | .oneOf [point] false => .text (Text.encodePoint point)
  | .around (.text value) left right => aroundText value (simplify left) (simplify right)
  | .around middle left right => .around middle (simplify left) (simplify right)
  | m => m

/-! ## Choices -/

/-- What the parts of a choice have in common at their starts and at their ends, and
whether either may still grow. -/
structure CommonEnds where
  start : List Pattern := []
  ending : List Pattern := []
  startOpen : Bool := true
  endingOpen : Bool := true

/-- Whether two pieces are there and the same. -/
def isSamePiece : Option Pattern → Option Pattern → Bool
  | some p, some q => p.isSame q
  | _, _ => false

/-- Compares the pieces at distance `i` from both ends of the shortest part with those
of another part.  Ends that would reach into a common start are not common. -/
def CommonEnds.compare (shortest : List Pattern) (i : Nat) (ends : CommonEnds)
    (other : List Pattern) : CommonEnds :=
  let j := shortest.length - 1 - i
  let startOpen := ends.startOpen && isSamePiece shortest[i]? other[i]?
  let endingOpen := ends.endingOpen && !(startOpen && j ≤ i) &&
    isSamePiece shortest[j]? other[j + (other.length - shortest.length)]?
  { ends with startOpen, endingOpen }

/-- Extends what is in common by the pieces at distance `i` from both ends. -/
def CommonEnds.extend (shortest : List Pattern) (others : List (List Pattern))
    (ends : CommonEnds) (i : Nat) : CommonEnds :=
  if ends.start.length + ends.ending.length < shortest.length then
    let ends := others.foldl (CommonEnds.compare shortest i) ends
    { ends with
      start := if ends.startOpen then ends.start ++ shortest[i]?.toList else ends.start
      ending :=
        if ends.endingOpen then shortest[shortest.length - 1 - i]?.toList ++ ends.ending
        else ends.ending }
  else ends

/-- The position of the first part with the fewest pieces. -/
def shortestPart (parts : List (List Pattern)) : Nat :=
  let fewest := (parts.map List.length).foldl min ((parts.map List.length).foldl max 0)
  parts.findIdx (·.length == fewest)

/-- What several parts of a choice have in common; a part alone has nothing in common
with others. -/
def commonEnds (parts : List (List Pattern)) : CommonEnds :=
  if parts.length < 2 then {}
  else
    let k := shortestPart parts
    let shortest := parts.getD k []
    (List.range shortest.length).foldl (CommonEnds.extend shortest (parts.eraseIdx k)) {}

/-- Each of some lists once. -/
def distinct : List (List Pattern) → List (List Pattern)
  | [] => []
  | ps :: rest => ps :: (distinct rest).filter fun qs => !Pattern.areSame ps qs

/-- What is left of a choice between its common start and end. -/
def remainder (rests : List (List Pattern)) : List Pattern :=
  match distinct rests with
  | [[]] => []
  | [ps] => [.sequence ps]
  | parts => [.choice (parts.map .sequence)]

/-- A common start or end as a piece of its own. -/
def shared (ps : List Pattern) : List Pattern := if ps.isEmpty then [] else [.sequence ps]

/-- A choice whose parts start or end alike as a sequence. -/
def factor? (parts : List Pattern) : Option Pattern :=
  let lists := parts.map Pattern.pieces
  let ends := commonEnds lists
  if ends.start.isEmpty && ends.ending.isEmpty then none
  else
    let middle := remainder (lists.map fun ps =>
      (ps.drop ends.start.length).take (ps.length - ends.start.length - ends.ending.length))
    some (.sequence (shared ends.start ++ middle ++ shared ends.ending))

/-- The matcher of a pattern.  Every step takes the pattern apart, or takes common
pieces out of a choice. -/
def compile : (fuel : Nat) → Pattern → Matcher
  | 0, _ => .nothing
  | _ + 1, .text points => .text (points.flatMap Text.encodePoint)
  | _ + 1, .single => .single
  | _ + 1, .anything _ => .anything
  | _ + 1, .oneOf points negated => .oneOf points negated
  | _ + 1, .between low high negated => .between low high negated
  | fuel + 1, .sequence pieces =>
      let ms := pieces.map fun p => simplify (compile fuel p)
      simplify (arrange ms.length (joinAll ms.length ms))
  | fuel + 1, .choice parts =>
      match factor? parts with
      | some p => compile fuel p
      | none => .either (parts.map fun p => simplify (compile fuel p))

end Glob

structure Glob where
  matcher : Glob.Matcher
deriving Inhabited

namespace Glob

def parse (pattern : Text) : Except Error Glob :=
  (Pattern.parse pattern).map fun p => ⟨compile (4 * pattern.length + 4) p⟩

def matchesName (glob : Glob) (name : Text) : Bool := glob.matcher.accepts name

/-- Reads patterns as globs. -/
def reader : PatternReader := fun pattern =>
  match parse pattern with
  | .ok glob => .ok ⟨glob.matchesName⟩
  | .error e => .error e.message

end Glob

end Splice

import Splice.Glob.Pattern

/-!
# Matching names

A matcher accepts some texts, and can look for the first place of a text from which
on it accepts something.  Most matchers count characters, but a row steps through
its text by bytes: each of its parts is given the text from where the part before it
ended up to the first byte of its own last character.  A part that ends in a longer
character therefore sees only the start of that character.
-/

namespace Splice.Glob

inductive Matcher where
  /-- The empty text. -/
  | nothing
  | anything
  | text (value : Text)
  /-- At most one character. -/
  | single
  | oneOf (points : List Nat) (negated : Bool)
  | between (low high : Nat) (negated : Bool)
  | atLeast (characters : Nat)
  | atMost (characters : Nat)
  | containing (part : Text)
  | lacking (part : Text)
  | startingWith (start : Text)
  | endingWith (ending : Text)
  /-- A start and an ending, which may overlap. -/
  | framed (start ending : Text)
  | every (matchers : List Matcher)
  | either (matchers : List Matcher)
  /-- Parts of fixed widths one after another. -/
  | row (parts : List Matcher)
  /-- A middle part with something to its left and to its right. -/
  | around (middle left right : Matcher)
deriving Repr, Inhabited

namespace Matcher

/-! ## Widths -/

/-- The width that alternatives have in common.  Alternatives of no fixed width count
only behind one of a fixed width. -/
def commonWidth : List (Option Nat) → Option Nat
  | [] => none
  | none :: rest => commonWidth rest
  | some n :: rest => if rest.all (· == some n) then some n else none

mutual

/-- How many characters the accepted texts have, if that is fixed. -/
def width : Matcher → Option Nat
  | nothing => some 0
  | text value => some value.glyphs.length
  | single => some 1
  | oneOf _ _ => some 1
  | between _ _ _ => some 1
  | either ms => commonWidth (widths ms)
  | row parts => some (((widths parts).map (·.getD 0)).foldl (· + ·) 0)
  | around m l r =>
      match width m, width l, width r with
      | some a, some b, some c => some (a + b + c)
      | _, _, _ => none
  | _ => none

def widths : List Matcher → List (Option Nat)
  | [] => []
  | m :: ms => width m :: widths ms

end

def rowWidth (parts : List Matcher) : Nat := ((widths parts).map (·.getD 0)).foldl (· + ·) 0

/-! ## Places in texts -/

/-- The first occurrence of a part in a text. -/
def occurrence? (part : Text) : Text → Option Nat
  | [] => if part.isEmpty then some 0 else none
  | b :: rest =>
      if part.isPrefixOf (b :: rest) then some 0 else (occurrence? part rest).map (· + 1)

def lastOccurrence? (part : Text) : Text → Option Nat
  | [] => if part.isEmpty then some 0 else none
  | b :: rest =>
      match lastOccurrence? part rest with
      | some n => some (n + 1)
      | none => if part.isPrefixOf (b :: rest) then some 0 else none

/-- The offsets of characters, with the characters. -/
def places : (offset : Nat) → List Glyph → List (Nat × Glyph)
  | _, [] => []
  | offset, g :: gs => (offset, g) :: places (offset + g.bytes.length) gs

/-- The offset where a character ends; a broken byte counts as the character that
stands for it. -/
def endOf (place : Nat × Glyph) : Nat := place.1 + (Text.encodePoint place.2.point).length

/-- Every offset at which a character starts, and the end of the text. -/
def boundaries (t : Text) : List Nat := (places 0 t.glyphs).map (·.1) ++ [t.length]

def ends (t : Text) : List Nat := (places 0 t.glyphs).map endOf

/-- The code point of a text of at most one character. -/
def pointOf (t : Text) : Nat := (t.glyphs.head?.map Glyph.point).getD Text.replacement

/-- The first character that satisfies a condition, as a place and a length. -/
def firstCharacter? (holds : Nat → Bool) (t : Text) : Option (Nat × List Nat) :=
  ((places 0 t.glyphs).find? fun place => holds place.2.point).map fun place =>
    (place.1, [endOf place - place.1])

def isMember (points : List Nat) (negated : Bool) (point : Nat) : Bool :=
  points.contains point != negated

def isBetween (low high : Nat) (negated : Bool) (point : Nat) : Bool :=
  (low ≤ point && point ≤ high) != negated

/-- What a part of a row is given of a text: the text up to the first byte of the
part's last character.  There is nothing to give if the text has too few
characters. -/
def sliceFor (characters : Nat) (t : Text) : Option Text :=
  let gs := if characters == 0 then t.glyphs else t.glyphs.take characters
  if gs.length < characters then none
  else some (t.take ((Text.ofGlyphs gs.dropLast).length + 1))

/-- Looks for places of a middle part between an offset and a limit, one after
another, until the texts around one of them are accepted as well. -/
def search (find : Text → Option (Nat × List Nat)) (left right : Text → Bool) (t : Text)
    (limit : Nat) : (fuel offset : Nat) → Bool
  | 0, _ => false
  | fuel + 1, offset =>
      if limit ≤ offset then false
      else
        match find ((t.take limit).drop offset) with
        | none => false
        | some (place, lengths) =>
            let start := offset + place
            (left (t.take start) && lengths.any fun n => right (t.drop (start + n))) ||
              search find left right t limit fuel
                (start + ((Text.glyphs (t.drop start)).head?.map (·.bytes.length)).getD 1)

/-- The endings of a text that start after each occurrence of a part, longest
first, as lengths from the start of the text. -/
def lengthsThrough (part : Text) : (fuel : Nat) → Text → List Nat
  | 0, _ => []
  | fuel + 1, t =>
      match lastOccurrence? part t with
      | none => []
      | some n => (n + part.length) :: lengthsThrough part fuel (t.take n)

/-! ## Matching -/

mutual

/-- Whether a matcher accepts the whole of a text. -/
def accepts : Matcher → Text → Bool
  | nothing, t => t.isEmpty
  | anything, _ => true
  | text value, t => t == value
  | single, t => t.glyphs.length ≤ 1
  | oneOf points negated, t => t.glyphs.length ≤ 1 && isMember points negated (pointOf t)
  | between low high negated, t => t.glyphs.length ≤ 1 && isBetween low high negated (pointOf t)
  | atLeast n, t => n ≤ t.glyphs.length
  | atMost n, t => t.glyphs.length ≤ n
  | containing part, t => (occurrence? part t).isSome
  | lacking part, t => (occurrence? part t).isNone
  | startingWith start, t => start.isPrefixOf t
  | endingWith ending, t => ending.isSuffixOf t
  | framed start ending, t => start.isPrefixOf t && ending.isSuffixOf t
  | every ms, t => everyAccepts ms t
  | either ms, t => someAccepts ms t
  | row parts, t => t.glyphs.length == rowWidth parts && rowAccepts parts t
  | around middle left right, t =>
      search (find middle) (accepts left) (accepts right) t
        (t.length - (width right).getD 0) (t.length + 1) ((width left).getD 0)

def everyAccepts : List Matcher → Text → Bool
  | [], _ => true
  | m :: ms, t => accepts m t && everyAccepts ms t

def someAccepts : List Matcher → Text → Bool
  | [], _ => false
  | m :: ms, t => accepts m t || someAccepts ms t

/-- Whether the parts of a row accept the start of a text, one after another. -/
def rowAccepts : List Matcher → Text → Bool
  | [], _ => true
  | m :: ms, t =>
      match sliceFor ((width m).getD 0) t with
      | none => false
      | some slice => accepts m slice && rowAccepts ms (t.drop slice.length)

/-- The first place of a text from which on a matcher accepts something, with the
lengths that it accepts there.  What has no fixed middle is not looked for. -/
def find : Matcher → Text → Option (Nat × List Nat)
  | nothing, _ => some (0, [0])
  | anything, t => some (0, boundaries t)
  | text value, t => (occurrence? value t).map fun n => (n, [value.length])
  | single, t => firstCharacter? (fun _ => true) t
  | oneOf points negated, t => firstCharacter? (isMember points negated) t
  | between low high negated, t => firstCharacter? (isBetween low high negated) t
  | atLeast n, t =>
      let lengths := (ends t).drop (n - 1)
      if lengths.isEmpty then none else some (0, lengths)
  | atMost n, t => some (0, 0 :: (ends t).take n)
  | containing part, t =>
      (occurrence? part t).map fun n =>
        let offset := n + part.length
        (0, (boundaries (t.drop offset)).map (offset + ·))
  | lacking part, t => some (0, boundaries (t.take ((occurrence? part t).getD t.length)))
  | startingWith start, t =>
      (occurrence? start t).map fun n =>
        (n, start.length :: (ends (t.drop (n + start.length))).map (start.length + ·))
  | endingWith ending, t => (occurrence? ending t).map fun n => (0, [n + ending.length])
  | framed start ending, t => do
      let n ← occurrence? start t
      let lengths := lengthsThrough ending (t.length + 1) (t.drop n)
      if lengths.isEmpty then none else some (n, lengths)
  | every ms, t => findEvery ms t
  | either ms, t => findSome ms t
  | row parts, t =>
      let found := (places 0 t.glyphs).find? fun (offset, _) =>
        rowWidth parts ≤ t.length - offset && rowAccepts parts (t.drop offset)
      found.map fun (offset, _) => (offset, [rowWidth parts])
  | around _ _ _, _ => none

/-- The lengths that all of some matchers accept from the start of a text. -/
def findEvery : List Matcher → Text → Option (Nat × List Nat)
  | [], _ => none
  | [m], t => find m t
  | m :: ms, t => do
      let (_, lengths) ← find m t
      let (place, others) ← findEvery ms t
      let common := lengths.filter others.contains
      if common.isEmpty then none else some (place, common)

/-- The first place of any of some matchers, with the lengths of all that have a
place there. -/
def findSome : List Matcher → Text → Option (Nat × List Nat)
  | [], _ => none
  | m :: ms, t =>
      match find m t, findSome ms t with
      | none, others => others
      | some found, none => some found
      | some (n, lengths), some (k, others) =>
          if n < k then some (n, lengths)
          else if k < n then some (k, others)
          else some (n, lengths ++ others)

end

end Matcher

end Splice.Glob

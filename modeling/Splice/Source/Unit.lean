import Splice.Path

/-!
# Source units

A source unit is the text of one file together with its location.  Rows and
columns count from one and columns count bytes; an offset outside the text
stands for the nearest end of it.
-/

namespace Splice

structure SourceUnit where
  text : Text
  location : Text
deriving DecidableEq, Repr, Inhabited

namespace SourceUnit

def dir (u : SourceUnit) : Text := Path.dir u.location

/-- The characters of the file's name up to its first dot that may stand in a
name; `ns` if there are none. -/
def shortName (u : SourceUnit) : Text :=
  let stem := (Text.cut 46 (Path.base u.location)).1
  let word := Text.ofGlyphs (stem.glyphs.filter fun g => Text.isWord g.point)
  if word.isEmpty then "ns" else word

/-- The offsets just after each line end of a text that starts at `at_`. -/
def startsAfterBreaks : (at_ : Nat) → Text → List Nat
  | _, [] => []
  | at_, b :: rest =>
      if b == Text.newline then (at_ + 1) :: startsAfterBreaks (at_ + 1) rest
      else startsAfterBreaks (at_ + 1) rest

/-- The offsets at which the lines of the unit start; never empty. -/
def lineStarts (u : SourceUnit) : List Nat := 0 :: startsAfterBreaks 0 u.text

/-- An offset moved to the nearest one of the text. -/
def clamp (u : SourceUnit) (offset : Int) : Nat := min offset.toNat u.text.length

def position (u : SourceUnit) (offset : Int) : Nat × Nat :=
  let offset := u.clamp offset
  let before := u.lineStarts.takeWhile (· ≤ offset)
  (before.length, offset - before.getLastD 0 + 1)

/-- The text of a row without its line end; empty if there is no such row. -/
def line (u : SourceUnit) (row : Int) : Text :=
  if row < 1 then []
  else
    match u.lineStarts.drop (row.toNat - 1) with
    | [] => []
    | [start] => Text.withoutEnding [13] (u.text.drop start)
    | start :: next :: _ =>
        Text.withoutEnding [13] ((u.text.drop start).take (next - 1 - start))

end SourceUnit

end Splice

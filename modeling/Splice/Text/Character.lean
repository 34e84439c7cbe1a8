import Splice.Text.Basic
import Splice.Text.Tables

/-!
# Classes of characters

Letters, decimal digits, blanks and printable characters of Unicode, each given
by its ASCII part and a table for the rest.
-/

namespace Splice.Text

/-- Whether a code point lies in one of some closed ranges. -/
def inRanges (table : Array (Nat × Nat)) (n : Nat) : Bool :=
  table.any fun r => r.1 ≤ n && n ≤ r.2

def isLetter (n : Nat) : Bool :=
  if n < 0x80 then (65 ≤ n && n ≤ 90) || (97 ≤ n && n ≤ 122)
  else inRanges letterRanges n

def isDigit (n : Nat) : Bool :=
  if n < 0x80 then 48 ≤ n && n ≤ 57 else inRanges digitRanges n

/-- White space: the ASCII controls from tab to carriage return, the space, and
the separators of Unicode. -/
def isBlank (n : Nat) : Bool :=
  (9 ≤ n && n ≤ 13) || n == 32 || n == 0x85 || n == 0xA0 || n == 0x1680 ||
  (0x2000 ≤ n && n ≤ 0x200A) || n == 0x2028 || n == 0x2029 || n == 0x202F ||
  n == 0x205F || n == 0x3000

/-- Characters that are shown as they are: graphic characters and the space. -/
def isPrintable (n : Nat) : Bool :=
  if n < 0x80 then 32 ≤ n && n ≤ 126 else inRanges printableRanges n

/-- Characters of names: letters, digits and the underscore. -/
def isWord (n : Nat) : Bool := n == 95 || isLetter n || isDigit n

/-- A text without the white space at its two ends. -/
def trim (t : Text) : Text :=
  let blank := fun g : Glyph => isBlank g.point
  ofGlyphs ((((t.glyphs.dropWhile blank).reverse).dropWhile blank).reverse)

/-- Whether a text holds nothing but white space. -/
def isAllBlank (t : Text) : Bool := (trim t).isEmpty

end Splice.Text

import Splice.Terminal.Tables
import Splice.Text.Character

/-!
# Characters as a reader sees them

What a reader takes for one character may be several: a letter with its accents, the
parts of a Hangul syllable, two indicators that form a flag, pictographs that are tied
together by joiners, consonants of a conjunct.  A cluster is a longest run of characters
without a break between them, and takes as many cells of a line as its first
character.
-/

namespace Splice.Terminal

open Text (inRanges)

/-! ## Kinds of characters -/

/-- What decides whether there is a break next to a character. -/
inductive BreakKind where
  | other
  | control
  | extend
  | joiner
  | spacing
  /-- A sign that goes with what follows it. -/
  | preceding
  /-- A leading consonant, a vowel or a trailing consonant of a Hangul syllable. -/
  | leading
  | vowel
  | trailing
  /-- A Hangul syllable without a trailing consonant, and one with it. -/
  | openSyllable
  | closedSyllable
  /-- Half of a flag. -/
  | indicator
deriving DecidableEq, Repr, Inhabited

def controlRanges : Array (Nat × Nat) := #[
    (0x0, 0x1F), (0x7F, 0x9F), (0xAD, 0xAD), (0x61C, 0x61C), (0x180E, 0x180E), (0x200B, 0x200B),
    (0x200E, 0x200F), (0x2028, 0x202E), (0x2060, 0x206F), (0xFEFF, 0xFEFF), (0xFFF0, 0xFFFB),
    (0x13430, 0x1343F), (0x1BCA0, 0x1BCA3), (0x1D173, 0x1D17A), (0xE0000, 0xE001F),
    (0xE0080, 0xE00FF), (0xE01F0, 0xE0FFF)]

def precedingRanges : Array (Nat × Nat) := #[
    (0x600, 0x605), (0x6DD, 0x6DD), (0x70F, 0x70F), (0x890, 0x891), (0x8E2, 0x8E2),
    (0xD4E, 0xD4E), (0x110BD, 0x110BD), (0x110CD, 0x110CD), (0x111C2, 0x111C3),
    (0x113D1, 0x113D1), (0x1193F, 0x1193F), (0x11941, 0x11941), (0x11A84, 0x11A89),
    (0x11D46, 0x11D46), (0x11F02, 0x11F02)]

def vowelRanges : Array (Nat × Nat) := #[
    (0x1160, 0x11A7), (0xD7B0, 0xD7C6), (0x16D63, 0x16D63), (0x16D67, 0x16D6A)]

/-- The number of trailing consonants, with none of them counted too. -/
def trailingCount : Nat := 28

def breakKind (n : Nat) : BreakKind :=
  if inRanges controlRanges n then .control
  else if n == 0x200D then .joiner
  else if inRanges extendRanges n then .extend
  else if inRanges spacingMarkRanges n then .spacing
  else if inRanges precedingRanges n then .preceding
  else if (0x1100 ≤ n && n ≤ 0x115F) || (0xA960 ≤ n && n ≤ 0xA97C) then .leading
  else if inRanges vowelRanges n then .vowel
  else if (0x11A8 ≤ n && n ≤ 0x11FF) || (0xD7CB ≤ n && n ≤ 0xD7FB) then .trailing
  else if 0xAC00 ≤ n && n ≤ 0xD7A3 then
    if (n - 0xAC00) % trailingCount == 0 then .openSyllable else .closedSyllable
  else if 0x1F1E6 ≤ n && n ≤ 0x1F1FF then .indicator
  else .other

/-- Whether two neighbours belong together by their kinds alone. -/
def BreakKind.joins (a b : BreakKind) : Bool :=
  match a, b with
  | .control, _ => false
  | _, .control => false
  | _, .extend => true
  | _, .joiner => true
  | _, .spacing => true
  | .preceding, _ => true
  | .leading, .leading => true
  | .leading, .vowel => true
  | .leading, .openSyllable => true
  | .leading, .closedSyllable => true
  | .vowel, .vowel => true
  | .vowel, .trailing => true
  | .openSyllable, .vowel => true
  | .openSyllable, .trailing => true
  | .trailing, .trailing => true
  | .closedSyllable, .trailing => true
  | _, _ => false

/-! ## Clusters -/

/-- How a cluster ends so far. -/
structure ClusterEnd where
  kind : BreakKind
  /-- A pictograph with nothing but extending characters behind it. -/
  pictograph : Bool := false
  /-- Such a pictograph and a joiner. -/
  joinedPictograph : Bool := false
  /-- An odd number of indicators. -/
  oddIndicators : Bool := false
  /-- A consonant with nothing but extending characters and linking signs behind it. -/
  consonant : Bool := false
  /-- Such a consonant with at least one linking sign. -/
  linked : Bool := false

/-- The end of a cluster once a character has been added to it. -/
def ClusterEnd.add (e : ClusterEnd) (n : Nat) : ClusterEnd :=
  let kind := breakKind n
  let isLinker := inRanges linkerRanges n
  let keepsConjunct := e.consonant && (kind == .joiner || (kind == .extend && n != 0x200C))
  { kind
    pictograph := inRanges pictographRanges n || (e.pictograph && kind == .extend)
    joinedPictograph := e.pictograph && kind == .joiner
    oddIndicators := kind == .indicator && !e.oddIndicators
    consonant := inRanges consonantRanges n || keepsConjunct
    linked := keepsConjunct && (e.linked || isLinker) }

/-- Whether a character goes on with a cluster. -/
def ClusterEnd.joins (e : ClusterEnd) (n : Nat) : Bool :=
  let kind := breakKind n
  e.kind.joins kind ||
    (e.joinedPictograph && inRanges pictographRanges n) ||
    (e.oddIndicators && kind == .indicator) ||
    (e.linked && inRanges consonantRanges n)

/-- The characters that go on with a cluster. -/
def restOfCluster : ClusterEnd → List Glyph → List Glyph
  | _, [] => []
  | e, g :: gs => if e.joins g.point then g :: restOfCluster (e.add g.point) gs else []

def firstCluster : List Glyph → List Glyph
  | [] => []
  | g :: gs => g :: restOfCluster (ClusterEnd.add { kind := .other } g.point) gs

/-! ## Cells -/

/-- Format characters and separators of lines and paragraphs that extend nothing. -/
def formatRanges : Array (Nat × Nat) := #[
    (0x0, 0x1F), (0x7F, 0x9F), (0xAD, 0xAD), (0x600, 0x605), (0x61C, 0x61C), (0x6DD, 0x6DD),
    (0x70F, 0x70F), (0x890, 0x891), (0x8E2, 0x8E2), (0x180E, 0x180E), (0x200B, 0x200B),
    (0x200D, 0x200F), (0x2028, 0x202E), (0x2060, 0x2064), (0x2066, 0x206F), (0xFEFF, 0xFEFF),
    (0xFFF9, 0xFFFB), (0x110BD, 0x110BD), (0x110CD, 0x110CD), (0x13430, 0x1343F),
    (0x1BCA0, 0x1BCA3), (0x1D173, 0x1D17A), (0xE0001, 0xE0001)]

/-- Characters that take no cell: controls, format characters, marks that do not
space, and the two last code points of each plane. -/
def isZeroWidth (n : Nat) : Bool :=
  inRanges formatRanges n || (inRanges extendRanges n && !inRanges spacingExtendRanges n) ||
    0xFFFE ≤ n % 0x10000

/-- How many cells of a line a character takes. -/
def cells (n : Nat) : Nat :=
  if isZeroWidth n then 0 else if inRanges wideRanges n then 2 else 1

/-- The sign that asks for the emoji form of the character in front of it. -/
def emojiSelector : Nat := 0xFE0F

/-- How many cells of a line a cluster takes. -/
def clusterCells : List Glyph → Nat
  | [] => 0
  | g :: h :: _ => if h.point == emojiSelector then 2 else cells g.point
  | [g] => cells g.point

end Splice.Terminal

import Splice.Text.Character

/-!
# Reading name patterns

`*` and `**` stand for any run of characters, `?` for one character, `[abc]` and
`[a-z]` for one character of a set (`[!...]` for one outside it), `{x,y}` for either
of its parts, and a backslash takes the next character literally.  A `{` that is
never closed ends with the pattern.  A NUL character ends a literal text and is
dropped; anywhere else it ends the pattern.
-/

namespace Splice.Glob

/-- A pattern, or a piece of one, as it is written. -/
inductive Pattern where
  /-- Characters that stand for themselves; never empty. -/
  | text (points : List Nat)
  | single
  /-- Any run of characters, written with one star or with two. -/
  | anything (doubled : Bool)
  | oneOf (points : List Nat) (negated : Bool)
  | between (low high : Nat) (negated : Bool)
  /-- Pieces one after another. -/
  | sequence (pieces : List Pattern)
  /-- Any one of some parts. -/
  | choice (parts : List Pattern)
deriving Repr, Inhabited

namespace Pattern

mutual

def isSame : Pattern → Pattern → Bool
  | text ps, text qs => ps == qs
  | single, single => true
  | anything m, anything n => m == n
  | oneOf ps m, oneOf qs n => ps == qs && m == n
  | between a b m, between c d n => a == c && b == d && m == n
  | sequence ps, sequence qs => areSame ps qs
  | choice ps, choice qs => areSame ps qs
  | _, _ => false

def areSame : List Pattern → List Pattern → Bool
  | [], [] => true
  | p :: ps, q :: qs => isSame p q && areSame ps qs
  | _, _ => false

end

/-- The pieces of a sequence; any other pattern is its only piece. -/
def pieces : Pattern → List Pattern
  | sequence ps => ps
  | p => [p]

end Pattern

/-- Why a text is no pattern. -/
inductive Error where
  | unexpectedEnd
  | unreadable
  | rangeNotClosed
  | emptyRange
  | reversedRange (low high : Nat)
deriving DecidableEq, Repr

def Error.message : Error → Text
  | .unexpectedEnd => "unexpected end of input"
  | .unreadable => "could not read rune"
  | .rangeNotClosed => "expected close range character"
  | .emptyRange => "could not parse range"
  | .reversedRange low high =>
      "hi character '" ++ Text.encodePoint high ++ "' should be greater than lo '" ++
        Text.encodePoint low ++ "'"

/-! ## Special characters -/

def star : Nat := 42
def questionMark : Nat := 63
def openSquare : Nat := 91
def closeSquare : Nat := 93
def openBrace : Nat := 123
def closeBrace : Nat := 125
def comma : Nat := 44
def hyphen : Nat := 45
def exclamation : Nat := 33
def escape : Nat := 92

/-- What ends a literal text inside a choice, or outside of one. -/
def breakers (inChoice : Bool) : List Nat :=
  [questionMark, star, openSquare, openBrace] ++ if inChoice then [closeBrace, comma] else []

/-! ## Reading -/

/-- A character in front of a literal text that has been read. -/
private def extend (point : Nat) (read : Option (List Nat × List Nat)) :
    Option (List Nat × List Nat) :=
  read.map fun (points, rest) => (point :: points, rest)

/-- A literal text up to a breaker, and what follows it.  There is none if an
unreadable character is met first. -/
def literal (breakers : List Nat) : List Nat → Option (List Nat × List Nat)
  | [] => some ([], [])
  | p :: rest =>
      if p == 0 then some ([], rest)
      else if p == Text.replacement then none
      else if p == escape then
        match rest with
        | [] => some ([], [])
        | q :: rest =>
            if q == 0 then some ([], rest)
            else if q == Text.replacement then none
            else extend q (literal breakers rest)
      else if breakers.contains p then some ([], p :: rest)
      else extend p (literal breakers rest)

/-- What follows the bracket that closes a set. -/
def closeSet : List Nat → Except Error (List Nat)
  | [] => .error .unexpectedEnd
  | p :: rest =>
      if p == 0 || p == Text.replacement then .error .unexpectedEnd
      else if p == closeSquare then .ok rest
      else .error .rangeNotClosed

/-- A range from its upper end on. -/
def readRange (negated : Bool) (low : Nat) : List Nat → Except Error (Pattern × List Nat)
  | [] => .error .unexpectedEnd
  | high :: rest =>
      if high == 0 || high == Text.replacement then .error .unexpectedEnd
      else do
        let rest ← closeSet rest
        if high < low then .error (.reversedRange low high)
        else .ok (.between low high negated, rest)

/-- A set given by its characters. -/
def readMembers (negated : Bool) (points : List Nat) : Except Error (Pattern × List Nat) :=
  match literal [closeSquare] points with
  | none => .error .unexpectedEnd
  | some (members, rest) => do
      let rest ← closeSet rest
      if members.isEmpty then .error .emptyRange else .ok (.oneOf members negated, rest)

/-- The set or range behind `[` and an optional `!`. -/
def readSet (negated : Bool) : List Nat → Except Error (Pattern × List Nat)
  | [] => .error .unexpectedEnd
  | p :: rest =>
      if p == 0 || p == Text.replacement then .error .unexpectedEnd
      else if rest.head? == some hyphen then readRange negated p rest.tail
      else readMembers negated (p :: rest)

/-- The set or range behind `[`. -/
def readBracket : List Nat → Except Error (Pattern × List Nat)
  | [] => .error .unexpectedEnd
  | p :: rest => if p == exclamation then readSet true rest else readSet false (p :: rest)

/-- A choice that is being read: the pieces before it and its finished parts, each
list in reverse. -/
structure Frame where
  before : List Pattern
  parts : List Pattern

/-- Closes a choice; `current` are the pieces of its last part in reverse. -/
def Frame.close (frame : Frame) (current : List Pattern) : List Pattern :=
  .choice (.sequence current.reverse :: frame.parts).reverse :: frame.before

/-- The whole pattern, with all open choices closed. -/
def finish (frames : List Frame) (current : List Pattern) : Pattern :=
  .sequence ((frames.foldl (fun pieces frame => frame.close pieces) current).reverse)

/-- Reads a pattern with a stack of open choices; `current` are the pieces of the
part at hand in reverse.  The fuel is the number of characters that are left. -/
def readPieces : (fuel : Nat) → List Frame → List Pattern → List Nat → Except Error Pattern
  | 0, frames, current, _ => .ok (finish frames current)
  | _ + 1, frames, current, [] => .ok (finish frames current)
  | fuel + 1, frames, current, p :: rest =>
      if p == 0 then .ok (finish frames current)
      else if p == Text.replacement then .error .unreadable
      else if p == openBrace then readPieces fuel (⟨current, []⟩ :: frames) [] rest
      else if p == openSquare then do
        let (set, rest) ← readBracket rest
        readPieces fuel frames (set :: current) rest
      else if p == questionMark then readPieces fuel frames (.single :: current) rest
      else if p == star then
        let doubled := rest.head? == some star
        readPieces fuel frames (.anything doubled :: current) (if doubled then rest.tail else rest)
      else
        match frames, p == comma, p == closeBrace with
        | frame :: outer, true, _ =>
            readPieces fuel
              (⟨frame.before, .sequence current.reverse :: frame.parts⟩ :: outer) [] rest
        | frame :: outer, _, true => readPieces fuel outer (frame.close current) rest
        | _, _, _ =>
            match literal (breakers !frames.isEmpty) (p :: rest) with
            | none => .error .unreadable
            | some (text, rest) =>
                readPieces fuel frames (if text.isEmpty then current else .text text :: current)
                  rest

def Pattern.parse (t : Text) : Except Error Pattern :=
  let points := t.glyphs.map Glyph.point
  readPieces (points.length + 1) [] [] points

end Splice.Glob

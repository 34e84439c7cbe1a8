import Splice.Token
import Splice.Source.Diagnostic

/-!
# Splitting a source into tokens

The lexer walks over the characters of a unit.  White space and comments, which
run from `//` to the end of the line, are skipped; every other character starts a
lexeme.  `Lexeme.scan` says how far a lexeme reaches, and `lexFrom` steps over the
characters that belong to it, so that it recurses on the list of characters.
-/

namespace Splice

/-- What a lexeme is, with the number of characters it takes. -/
structure Lexeme where
  kind : TokenKind
  text : Text
  length : Nat
deriving DecidableEq, Repr

/-- Why characters form no lexeme. -/
inductive LexError where
  | unexpectedCharacter (point : Nat)
  | malformedNumber
  | numberOutOfRange (digits : Text)
  | unterminatedString
  | invalidString
deriving DecidableEq, Repr

def LexError.message : LexError → Text
  | unexpectedCharacter point => "unexpected character " ++ Text.quotePoint point
  | malformedNumber => "malformed number"
  | numberOutOfRange digits => "number " ++ digits ++ " is out of range"
  | unterminatedString => "unterminated string literal"
  | invalidString => "invalid string literal: invalid syntax"

namespace Lexeme

def startsWord (g : Glyph) : Bool := g.point == 95 || Text.isLetter g.point

def isDecimal (g : Glyph) : Bool := 48 ≤ g.point && g.point ≤ 57

def maxNumber : Nat := 0x7FFFFFFFFFFFFFFF

/-- The longest word at the front. -/
def scanWord (gs : List Glyph) : Lexeme :=
  let word := gs.takeWhile fun g => Text.isWord g.point
  let text := Text.ofGlyphs word
  ⟨TokenKind.ofWord text, text, word.length⟩

/-- The digits at the front; a letter or underscore must not follow them. -/
def scanNumber (gs : List Glyph) : Except (Nat × LexError) Lexeme :=
  let digits := gs.takeWhile isDecimal
  let text := Text.ofGlyphs digits
  match (gs.dropWhile isDecimal).head?.map startsWord with
  | some true => .error (text.length, .malformedNumber)
  | _ =>
      if ((Text.toNat? text).getD 0) ≤ maxNumber then .ok ⟨.number, text, digits.length⟩
      else .error (0, .numberOutOfRange text)

/-- The number of characters up to and including the closing quote.  A backslash
takes the character after it along, even a line end. -/
def stringLength? : (escaped : Bool) → List Glyph → Option Nat
  | _, [] => none
  | true, _ :: rest => (stringLength? false rest).map (· + 1)
  | false, g :: rest =>
      if g.point == 10 then none
      else if g.point == 34 then some 1
      else (stringLength? (g.point == 92) rest).map (· + 1)

/-- The string literal whose opening quote is at the front. -/
def scanString (gs : List Glyph) : Except (Nat × LexError) Lexeme :=
  match stringLength? false gs.tail with
  | none => .error (0, .unterminatedString)
  | some n =>
      match Text.unquote? (Text.ofGlyphs (gs.take (n + 1))) with
      | none => .error (0, .invalidString)
      | some value => .ok ⟨.string, value, n + 1⟩

/-- A sign that may be doubled with an equals sign. -/
def scanSign (single double : TokenKind) (rest : List Glyph) : Lexeme :=
  if rest.head?.any (·.point == 61) then ⟨double, double.name, 2⟩
  else ⟨single, single.name, 1⟩

/-- The lexeme that starts with a character.  An error comes with its distance
from that character. -/
def scan (g : Glyph) (rest : List Glyph) : Except (Nat × LexError) Lexeme :=
  if startsWord g then .ok (scanWord (g :: rest))
  else if isDecimal g then scanNumber (g :: rest)
  else if g.point == 34 then scanString (g :: rest)
  else if g.point == 61 then .ok (scanSign .assign .equal rest)
  else if g.point == 33 then .ok (scanSign .not .notEqual rest)
  else
    match TokenKind.ofPunctuation? g with
    | some kind => .ok ⟨kind, g.bytes, 1⟩
    | none => .error (0, .unexpectedCharacter g.point)

end Lexeme

/-- Whether a comment starts with a character. -/
def startsComment (g : Glyph) (rest : List Glyph) : Bool :=
  g.point == 47 && rest.head?.any (·.point == 47)

/-- The tokens of the characters from an offset on, the first `skip` of which
belong to a lexeme or comment that is already dealt with. -/
def lexFrom : (skip offset : Nat) → List Glyph → Except (Nat × LexError) (List Token)
  | _, offset, [] => .ok [⟨.endOfFile, [], offset⟩]
  | skip + 1, offset, g :: rest => lexFrom skip (offset + g.bytes.length) rest
  | 0, offset, g :: rest =>
      let next := offset + g.bytes.length
      if Text.isBlank g.point then lexFrom 0 next rest
      else if startsComment g rest then
        lexFrom (rest.takeWhile (·.point != 10)).length next rest
      else
        match Lexeme.scan g rest with
        | .error (distance, e) => .error (offset + distance, e)
        | .ok lexeme =>
            match lexFrom (lexeme.length - 1) next rest with
            | .error e => .error e
            | .ok tokens => .ok (⟨lexeme.kind, lexeme.text, offset⟩ :: tokens)

/-- The tokens of a source unit; the last one is the end of the file. -/
def SourceUnit.tokens (u : SourceUnit) : Except Diagnostic (List Token) :=
  (lexFrom 0 0 u.text.glyphs).mapError fun (offset, e) => ⟨e.message, some u, offset⟩

end Splice

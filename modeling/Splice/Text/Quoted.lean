import Splice.Text.Character

/-!
# Quoted texts

`quote` writes a text between double quotes: printable characters as they are,
the common controls by name, and every other byte or code point in hexadecimal.
`unquote?` reads such a form back, and also the octal and long hexadecimal
escapes that `quote` never writes.
-/

namespace Splice.Text

def quoteByte : UInt8 := 34

def backslash : UInt8 := 92

/-- The letter that names a control character after a backslash. -/
private def controlName? (n : Nat) : Option Char :=
  match n with
  | 7 => some 'a'
  | 8 => some 'b'
  | 12 => some 'f'
  | 10 => some 'n'
  | 13 => some 'r'
  | 9 => some 't'
  | 11 => some 'v'
  | _ => none

/-- A character as it is written between quotes of the given kind. -/
def escapeGlyph (quoteMark : Nat) (g : Glyph) : Text :=
  if g.isBroken then "\\x" ++ hex 2 (g.bytes.headD 0).toNat
  else if g.point == quoteMark || g.point == backslash.toNat then
    backslash :: encodePoint g.point
  else if isPrintable g.point then encodePoint g.point
  else match controlName? g.point with
    | some c => [backslash, byte c]
    | none =>
        if g.point < 32 || g.point == 127 then "\\x" ++ hex 2 g.point
        else if g.point < 0x10000 then "\\u" ++ hex 4 g.point
        else "\\U" ++ hex 8 g.point

/-- A text between double quotes. -/
def quote (t : Text) : Text :=
  quoteByte :: t.glyphs.flatMap (escapeGlyph 34) ++ [quoteByte]

/-- A single code point between single quotes. -/
def quotePoint (n : Nat) : Text :=
  39 :: escapeGlyph 39 ⟨n, encodePoint n⟩ ++ [39]

/-! ## Reading quoted texts -/

/-- The value of exactly `count` digits of a base at the head of a text. -/
private def takeDigits? (digit : UInt8 → Option Nat) (base count : Nat) (t : Text) :
    Option (Nat × Text) :=
  if t.length < count then none
  else ((t.take count).mapM digit).map fun ds => (ofDigits base ds, t.drop count)

private def octalDigit? (b : UInt8) : Option Nat :=
  if 48 ≤ b && b ≤ 55 then some (b.toNat - 48) else none

/-- What an escape sequence stands for, given the text after its backslash. -/
def unescape? : Text → Option (Text × Text)
  | [] => none
  | c :: rest =>
      if c == byte 'a' then some ([7], rest)
      else if c == byte 'b' then some ([8], rest)
      else if c == byte 'f' then some ([12], rest)
      else if c == byte 'n' then some ([10], rest)
      else if c == byte 'r' then some ([13], rest)
      else if c == byte 't' then some ([9], rest)
      else if c == byte 'v' then some ([11], rest)
      else if c == backslash || c == quoteByte then some ([c], rest)
      else if c == byte 'x' then
        (takeDigits? hexDigit? 16 2 rest).map fun (n, rest) => ([n.toUInt8], rest)
      else if c == byte 'u' || c == byte 'U' then do
        let (n, rest) ← takeDigits? hexDigit? 16 (if c == byte 'u' then 4 else 8) rest
        if isScalar n then some (encodePoint n, rest) else none
      else if (octalDigit? c).isSome then do
        let (n, rest) ← takeDigits? octalDigit? 8 3 (c :: rest)
        if n ≤ 255 then some ([n.toUInt8], rest) else none
      else none

/-- The text between the quotes of a double-quoted literal, read from just after
the opening quote.  The closing quote must end the literal. -/
def unquoteBody? : (fuel : Nat) → Text → Option Text
  | 0, _ => none
  | _ + 1, [] => none
  | fuel + 1, b :: rest =>
      if b == quoteByte then (if rest.isEmpty then some [] else none)
      else if b == newline then none
      else if b == backslash then do
        let (value, rest) ← unescape? rest
        let body ← unquoteBody? fuel rest
        some (value ++ body)
      else
        let g := headGlyph b rest
        (unquoteBody? fuel (rest.drop (g.bytes.length - 1))).map (encodePoint g.point ++ ·)

/-- The value of a double-quoted literal.  A broken byte reads as U+FFFD; a line
end, an unknown escape or a missing quote make the literal invalid. -/
def unquote? : Text → Option Text
  | b :: rest => if b == quoteByte then unquoteBody? (rest.length + 1) rest else none
  | [] => none

end Splice.Text

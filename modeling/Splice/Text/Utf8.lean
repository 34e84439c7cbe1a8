/-!
# Texts and their characters

A text is a list of bytes: sources, names, paths and messages may hold bytes
that are no well-formed UTF-8, and every offset in the library counts bytes.
Reading a text as characters (`Text.glyphs`) never fails.  A byte that starts no
well-formed sequence is a character of its own with the code point U+FFFD, and
each character keeps the bytes it was read from, so that
`(glyphs t).flatMap Glyph.bytes` gives back `t`.
-/

namespace Splice

/-- A text: bytes that are usually, but not always, well-formed UTF-8. -/
abbrev Text := List UInt8

/-- A code point as read from a text, together with its bytes. -/
structure Glyph where
  point : Nat
  bytes : Text
deriving DecidableEq, Repr, Inhabited

namespace Text

/-- The code point that stands for bytes which are no well-formed character. -/
def replacement : Nat := 0xFFFD

/-- Code points that have a UTF-8 form. -/
def isScalar (n : Nat) : Bool :=
  n < 0xD800 || (0xE000 ≤ n && n ≤ 0x10FFFF)

private def tailByte (n : Nat) : UInt8 := (0x80 + n % 64).toUInt8

/-- The UTF-8 form of a code point; one without a form is written as U+FFFD. -/
def encodePoint (n : Nat) : Text :=
  if n < 0x80 then [n.toUInt8]
  else if n < 0x800 then [(0xC0 + n / 64).toUInt8, tailByte n]
  else if !isScalar n then [0xEF, 0xBF, 0xBD]
  else if n < 0x10000 then
    [(0xE0 + n / 4096).toUInt8, tailByte (n / 64), tailByte n]
  else
    [(0xF0 + n / 262144).toUInt8, tailByte (n / 4096), tailByte (n / 64), tailByte n]

/-- The bytes of a string literal. -/
def ofString (s : String) : Text :=
  s.toList.flatMap fun c => encodePoint c.toNat

instance : Coe String Text := ⟨ofString⟩

/-! ## Reading characters -/

def isTail (b : UInt8) : Bool := 0x80 ≤ b && b ≤ 0xBF

private def tailBits (b : UInt8) : Nat := b.toNat - 0x80

/-- The first two bytes of a three-byte character: neither an over-long form nor
a surrogate. -/
def startsThree (b c : UInt8) : Bool :=
  (b == 0xE0 && 0xA0 ≤ c && c ≤ 0xBF) ||
  (b == 0xED && 0x80 ≤ c && c ≤ 0x9F) ||
  (0xE1 ≤ b && b ≤ 0xEF && b != 0xED && isTail c)

/-- The first two bytes of a four-byte character: neither an over-long form nor
above U+10FFFF. -/
def startsFour (b c : UInt8) : Bool :=
  (b == 0xF0 && 0x90 ≤ c && c ≤ 0xBF) ||
  (b == 0xF4 && 0x80 ≤ c && c ≤ 0x8F) ||
  (0xF1 ≤ b && b ≤ 0xF3 && isTail c)

def shortGlyph (b : UInt8) : Glyph :=
  if b < 0x80 then ⟨b.toNat, [b]⟩ else ⟨replacement, [b]⟩

/-- The character at the head of the text `b :: rest`. -/
def headGlyph (b : UInt8) : Text → Glyph
  | c :: d :: e :: _ =>
      if 0xC2 ≤ b && b ≤ 0xDF && isTail c then
        ⟨(b.toNat - 0xC0) * 64 + tailBits c, [b, c]⟩
      else if startsThree b c && isTail d then
        ⟨((b.toNat - 0xE0) * 64 + tailBits c) * 64 + tailBits d, [b, c, d]⟩
      else if startsFour b c && isTail d && isTail e then
        ⟨(((b.toNat - 0xF0) * 64 + tailBits c) * 64 + tailBits d) * 64 + tailBits e,
          [b, c, d, e]⟩
      else shortGlyph b
  | [c, d] =>
      if 0xC2 ≤ b && b ≤ 0xDF && isTail c then
        ⟨(b.toNat - 0xC0) * 64 + tailBits c, [b, c]⟩
      else if startsThree b c && isTail d then
        ⟨((b.toNat - 0xE0) * 64 + tailBits c) * 64 + tailBits d, [b, c, d]⟩
      else shortGlyph b
  | [c] =>
      if 0xC2 ≤ b && b ≤ 0xDF && isTail c then
        ⟨(b.toNat - 0xC0) * 64 + tailBits c, [b, c]⟩
      else shortGlyph b
  | [] => shortGlyph b

/-- Characters of a text whose first `skip` bytes belong to a character that
has been read already. -/
def glyphsFrom : (skip : Nat) → Text → List Glyph
  | _, [] => []
  | skip + 1, _ :: rest => glyphsFrom skip rest
  | 0, b :: rest =>
      let g := headGlyph b rest
      g :: glyphsFrom (g.bytes.length - 1) rest

/-- The characters of a text, in order. -/
def glyphs (t : Text) : List Glyph := glyphsFrom 0 t

def ofGlyphs (gs : List Glyph) : Text := gs.flatMap Glyph.bytes

end Text

/-- A byte that was no part of a well-formed character. -/
def Glyph.isBroken (g : Glyph) : Bool :=
  g.point == Text.replacement && g.bytes.length == 1

def Text.isWellFormed (t : Text) : Bool :=
  t.glyphs.all fun g => !g.isBroken

/-- The string that a well-formed text spells; broken bytes become U+FFFD. -/
def Text.toString (t : Text) : String :=
  String.ofList (t.glyphs.map fun g => Char.ofNat g.point)

end Splice

import Splice.Text.Utf8

/-!
# Building and taking apart texts

Joining, splitting and searching texts by bytes, and the decimal and
hexadecimal spellings of numbers.
-/

namespace Splice.Text

/-- The byte of an ASCII character. -/
def byte (c : Char) : UInt8 := c.toNat.toUInt8

def newline : UInt8 := 10

def startsWith (t start : Text) : Bool := start.isPrefixOf t

def endsWith (t ending : Text) : Bool := ending.isSuffixOf t

/-- What remains of a text that starts with the given one. -/
def afterStart? (start t : Text) : Option Text :=
  if start.isPrefixOf t then some (t.drop start.length) else none

/-- The text without the given ending, if it has it. -/
def withoutEnding (ending t : Text) : Text :=
  if ending.isSuffixOf t then t.take (t.length - ending.length) else t

/-- Texts put one after another with a separator between neighbours. -/
def join (separator : Text) : List Text → Text
  | [] => []
  | [t] => t
  | t :: rest => t ++ separator ++ join separator rest

/-- The pieces between the occurrences of a byte; there is always at least one. -/
def splitAt (b : UInt8) : Text → List Text
  | [] => [[]]
  | c :: rest =>
      if c == b then [] :: splitAt b rest
      else match splitAt b rest with
        | [] => [[c]]
        | piece :: pieces => (c :: piece) :: pieces

/-- The text before the first occurrence of a byte and, if there is one, the
text after it. -/
def cut (b : UInt8) (t : Text) : Text × Option Text :=
  match t.dropWhile (· != b) with
  | [] => (t, none)
  | _ :: rest => (t.takeWhile (· != b), some rest)

/-- Every occurrence of a byte replaced by a text. -/
def replaceByte (b : UInt8) (by_ : Text) (t : Text) : Text :=
  t.flatMap fun c => if c == b then by_ else [c]

/-- Order of texts by their bytes. -/
def le : Text → Text → Bool
  | [], _ => true
  | _ :: _, [] => false
  | a :: s, b :: t => if a == b then le s t else a < b

def lowerByte (b : UInt8) : UInt8 :=
  if 65 ≤ b && b ≤ 90 then b + 32 else b

/-- ASCII letters in lower case, everything else as it is. -/
def lower (t : Text) : Text := t.map lowerByte

/-! ## Numbers -/

def ofNat (n : Nat) : Text := ofString (Nat.repr n)

def ofInt (i : Int) : Text :=
  if i < 0 then byte '-' :: ofNat i.natAbs else ofNat i.natAbs

def ofBool (b : Bool) : Text := if b then "true" else "false"

/-- Lower-case hexadecimal digits, at least `width` of them. -/
def hex (width n : Nat) : Text :=
  let digits := (Nat.toDigits 16 n).map byte
  List.replicate (width - digits.length) (byte '0') ++ digits

/-- Decimal digits padded on the left with a byte to at least `width`. -/
def padLeft (pad : UInt8) (width : Nat) (t : Text) : Text :=
  List.replicate (width - t.length) pad ++ t

def digit? (b : UInt8) : Option Nat :=
  if 48 ≤ b && b ≤ 57 then some (b.toNat - 48) else none

/-- The value of a hexadecimal digit in either case. -/
def hexDigit? (b : UInt8) : Option Nat :=
  if 48 ≤ b && b ≤ 57 then some (b.toNat - 48)
  else if 97 ≤ b && b ≤ 102 then some (b.toNat - 87)
  else if 65 ≤ b && b ≤ 70 then some (b.toNat - 55)
  else none

/-- The number that digits of a base spell, most significant first. -/
def ofDigits (base : Nat) (digits : List Nat) : Nat :=
  digits.foldl (fun n d => n * base + d) 0

/-- The value of a non-empty run of decimal digits. -/
def toNat? (t : Text) : Option Nat :=
  if t.isEmpty then none else (t.mapM digit?).map (ofDigits 10)

end Splice.Text

import Splice.Text.Basic

/-!
# Reading 64-bit integers and truth values

`Integer.parse` takes the base from the text: `0x`, `0o` and `0b` announce one,
another leading zero means octal, and underscores may stand between digits.
`Integer.parseDecimal` takes decimal digits only.
-/

namespace Splice

def Text.ofInt64 (n : Int64) : Text := Text.ofInt n.toInt

namespace Integer

/-- Why a text is no integer. -/
inductive Error where
  | malformed
  | outOfRange
deriving DecidableEq, Repr

def maxMagnitude : Nat := 0xFFFFFFFFFFFFFFFF

/-- The magnitude of the least integer, one more than that of the greatest. -/
def signedLimit : Nat := 0x8000000000000000

/-- Splits an optional sign off; `true` stands for a minus. -/
def splitSign : Text → Bool × Text
  | b :: rest =>
      if b == Text.byte '-' then (true, rest)
      else if b == Text.byte '+' then (false, rest)
      else (false, b :: rest)
  | [] => (false, [])

/-- The last thing seen while checking where underscores stand. -/
private inductive Seen where
  | start
  | digit
  | underscore
  | other
deriving DecidableEq

private def underscoresFrom (hexadecimal : Bool) : Seen → Text → Bool
  | seen, [] => seen != .underscore
  | seen, b :: rest =>
      if (Text.digit? b).isSome || (hexadecimal && (Text.hexDigit? b).isSome) then
        underscoresFrom hexadecimal .digit rest
      else if b == Text.byte '_' then
        seen == .digit && underscoresFrom hexadecimal .underscore rest
      else seen != .underscore && underscoresFrom hexadecimal .other rest

/-- Whether each underscore of a number stands between two digits; a base mark
counts as a digit. -/
def underscoresSeparate (t : Text) : Bool :=
  match (splitSign t).2 with
  | 48 :: b :: rest =>
      let mark := Text.lowerByte b
      if mark == Text.byte 'b' || mark == Text.byte 'o' || mark == Text.byte 'x' then
        underscoresFrom (mark == Text.byte 'x') .digit rest
      else underscoresFrom false .start (48 :: b :: rest)
  | rest => underscoresFrom false .start rest

/-- Reads digits of a base; the magnitude must stay below 2^64 all along. -/
private def magnitudeFrom (base : Nat) (underscores : Bool) : Nat → Text → Except Error Nat
  | n, [] => .ok n
  | n, b :: rest =>
      if underscores && b == Text.byte '_' then magnitudeFrom base underscores n rest
      else
        let value :=
          match Text.digit? b with
          | some d => some d
          | none =>
              let l := Text.lowerByte b
              if 97 ≤ l && l ≤ 122 then some (l.toNat - 87) else none
        match value with
        | none => .error .malformed
        | some d =>
            if base ≤ d then .error .malformed
            else if maxMagnitude < n * base + d then .error .outOfRange
            else magnitudeFrom base underscores (n * base + d) rest

/-- The base that a number announces, and its digits. -/
private def announcedBase : Text → Nat × Text
  | 48 :: b :: c :: rest =>
      let mark := Text.lowerByte b
      if mark == Text.byte 'b' then (2, c :: rest)
      else if mark == Text.byte 'o' then (8, c :: rest)
      else if mark == Text.byte 'x' then (16, c :: rest)
      else (8, b :: c :: rest)
  | 48 :: rest => (8, rest)
  | digits => (10, digits)

private def signed (negative : Bool) (n : Nat) : Except Error Int64 :=
  if negative then
    if n ≤ signedLimit then .ok (Int64.ofInt (-(n : Int))) else .error .outOfRange
  else if n < signedLimit then .ok (Int64.ofNat n) else .error .outOfRange

/-- Reads an integer whose base is announced by its first characters. -/
def parse (t : Text) : Except Error Int64 := do
  let (negative, body) := splitSign t
  if body.isEmpty then throw .malformed
  let (base, digits) := announcedBase body
  let n ← magnitudeFrom base true 0 digits
  if body.contains (Text.byte '_') && !underscoresSeparate body then throw .malformed
  signed negative n

def parseDecimal (t : Text) : Except Error Int64 := do
  let (negative, digits) := splitSign t
  if digits.isEmpty then throw .malformed
  let n ← magnitudeFrom 10 false 0 digits
  signed negative n

end Integer

/-- Reads a truth value: `1`, `t`, `T`, `true`, `True` or `TRUE`, and the same
forms of false. -/
def Text.toBool? (t : Text) : Option Bool :=
  if (["1", "t", "T", "true", "TRUE", "True"].map Text.ofString).contains t then some true
  else if (["0", "f", "F", "false", "FALSE", "False"].map Text.ofString).contains t then
    some false
  else none

end Splice

import Splice.Number.Integer

/-!
# Double-precision numbers

A double is its 64 bits.  Numbers come from decimal or hexadecimal texts as exact
fractions and are rounded once, to the nearest double and to the even one of two
equally near; nothing here computes with machine floating point.
-/

namespace Splice

/-- A number in IEEE 754 double precision, as its bits. -/
structure Binary64 where
  bits : UInt64
deriving DecidableEq, Repr, Inhabited

namespace Binary64

def exponentMask : Nat := 0x7FF

/-- How many fractions there are. -/
def fractionCount : Nat := 0x10000000000000

/-- Below this size a double holds every integer. -/
def exactLimit : Nat := 0x20000000000000

/-- The sign bit. -/
def signWeight : Nat := 0x8000000000000000

def fractionOf (x : Binary64) : Nat := x.bits.toNat % fractionCount

def exponentOf (x : Binary64) : Nat := x.bits.toNat / fractionCount % (exponentMask + 1)

def signBit (x : Binary64) : Bool := signWeight ≤ x.bits.toNat

def isZero (x : Binary64) : Bool := x.bits.toNat % signWeight == 0

def isNaN (x : Binary64) : Bool :=
  x.exponentOf == exponentMask && x.fractionOf != 0

/-- Strictly below zero. -/
def isNegative (x : Binary64) : Bool := x.signBit && !x.isZero && !x.isNaN

def isInfinite (x : Binary64) : Bool :=
  x.exponentOf == exponentMask && x.fractionOf == 0

def nan (negative : Bool) : Binary64 :=
  if negative then ⟨0xFFF8000000000001⟩ else ⟨0x7FF8000000000001⟩

def infinity (negative : Bool) : Binary64 :=
  if negative then ⟨0xFFF0000000000000⟩ else ⟨0x7FF0000000000000⟩

/-- The quotient of two numbers, rounded to the nearest integer and to the even
one of two. -/
def roundQuotient (num den : Nat) : Nat :=
  let q := num / den
  let r := num % den
  if 2 * r < den then q
  else if den < 2 * r then q + 1
  else if q % 2 == 0 then q else q + 1

/-- The binary exponent `e` for which `num / den` rounds to a multiple of `2 ^ e`:
53 significant bits, but never finer than the subnormal numbers. -/
def unitExponent (num den : Nat) : Int :=
  let guess : Int := (num.log2 : Int) - (den.log2 : Int)
  -- `num / den` lies between `2 ^ (guess - 1)` and `2 ^ (guess + 1)`
  let atLeast : Bool :=
    if 0 ≤ guess then den * Nat.pow 2 guess.toNat ≤ num else den ≤ num * Nat.pow 2 (-guess).toNat
  let top := if atLeast then guess else guess - 1
  max (top - 52) (-1074)

/-- A positive fraction as a mantissa and a binary exponent, rounded to a double's
precision. -/
def roundFraction (num den : Nat) : Nat × Int :=
  let e := unitExponent num den
  if 0 ≤ e then (roundQuotient num (den * Nat.pow 2 e.toNat), e)
  else (roundQuotient (num * Nat.pow 2 (-e).toNat) den, e)

/-- The double nearest to a fraction; none when it is too large. -/
def ofFraction? (negative : Bool) (num den : Nat) : Option Binary64 :=
  let sign := if negative then signWeight else 0
  if num == 0 then some ⟨sign.toUInt64⟩
  else
    let (m, e) := roundFraction num den
    -- rounding up may have produced 2 ^ 53
    let (m, e) := if m == exactLimit then (fractionCount, e + 1) else (m, e)
    if m < fractionCount then some ⟨(sign + m).toUInt64⟩
    else
      let biased := e + 1075
      if 2047 ≤ biased then none
      else some ⟨(sign + biased.toNat * fractionCount + (m - fractionCount)).toUInt64⟩

/-- `mantissa * base ^ exponent` as a double. -/
def ofScaled? (negative : Bool) (mantissa base : Nat) (exponent : Int) : Option Binary64 :=
  if 0 ≤ exponent then ofFraction? negative (mantissa * Nat.pow base exponent.toNat) 1
  else ofFraction? negative mantissa (Nat.pow base (-exponent).toNat)

def ofInt (i : Int) : Binary64 := (ofFraction? (i < 0) i.natAbs 1).getD ⟨0⟩

/-! ## Reading -/

private def equalsIgnoringCase (word t : Text) : Bool := Text.lower t == word

/-- Infinities with an optional sign, and `nan` without one. -/
private def special? (t : Text) : Option Binary64 :=
  let (negative, body) := Integer.splitSign t
  if equalsIgnoringCase "inf" body || equalsIgnoringCase "infinity" body then
    some (infinity negative)
  else if equalsIgnoringCase "nan" t then some (nan false)
  else none

/-- The exponents that can matter: beyond ten thousand every number is zero or
too large. -/
private def exponentLimit : Nat := 10000

private def readExponent? (t : Text) : Option Int :=
  let (negative, digits) := Integer.splitSign t
  match digits with
  | b :: _ =>
      if (Text.digit? b).isNone then none
      else do
        let ds ← (digits.filter (· != Text.byte '_')).mapM Text.digit?
        let n := ds.foldl (fun n d => if n < exponentLimit then n * 10 + d else n) 0
        some (if negative then -(n : Int) else n)
  | [] => none

/-- Splits a number at its exponent mark. -/
private def splitExponent (mark : UInt8) (t : Text) : Text × Option Text :=
  (t.takeWhile (fun b => Text.lowerByte b != mark),
    match t.dropWhile (fun b => Text.lowerByte b != mark) with
    | [] => none
    | _ :: rest => some rest)

private def readMantissa? (digit : UInt8 → Option Nat) (base : Nat) (t : Text) :
    Option (Nat × Nat) := do
  let (whole, part) := Text.cut (Text.byte '.') (t.filter (· != Text.byte '_'))
  let part := part.getD []
  if whole.isEmpty && part.isEmpty then none
  else do
    let ds ← (whole ++ part).mapM digit
    some (Text.ofDigits base ds, part.length)

/-- Reads a number: decimal with an optional exponent of ten, or hexadecimal with
a mandatory exponent of two; infinities and `nan` are numbers too.  A number too
large for a double is refused. -/
def parse? (t : Text) : Option Binary64 :=
  match special? t with
  | some x => some x
  | none =>
      let (negative, body) := Integer.splitSign t
      if body.contains (Text.byte '_') && !Integer.underscoresSeparate body then none
      else match body with
        | 48 :: mark :: d :: rest =>
            if Text.lowerByte mark == Text.byte 'x' then do
              let (mantissa, exponent) := splitExponent (Text.byte 'p') (d :: rest)
              let exponent ← readExponent? (← exponent)
              let (n, places) ← readMantissa? Text.hexDigit? 16 mantissa
              ofScaled? negative n 2 (exponent - 4 * places)
            else readDecimal negative body
        | _ => readDecimal negative body
where
  readDecimal (negative : Bool) (body : Text) : Option Binary64 := do
    let (mantissa, exponent) := splitExponent (Text.byte 'e') body
    let exponent ← match exponent with
      | none => some (0 : Int)
      | some e => readExponent? e
    let (n, places) ← readMantissa? Text.digit? 10 mantissa
    ofScaled? negative n 10 (exponent - places)

/-- The 16 hexadecimal digits of the bits. -/
def toHex (x : Binary64) : Text := Text.hex 16 x.bits.toNat

end Binary64

end Splice

import Splice.Number.Binary64
import Splice.Text.Quoted

/-!
# Lengths of time

A duration counts nanoseconds in 64 bits.  It is written as numbers with units,
such as `1h2m3.5s`, `300ms` or `1.5µs`, with the largest unit first and no
trailing zeros.
-/

namespace Splice

/-- A length of time in nanoseconds. -/
structure Duration where
  nanoseconds : Int64
deriving DecidableEq, Repr, Inhabited

namespace Duration

def second : Nat := 1000000000

def minute : Nat := 60 * second

def ofNat (n : Nat) : Duration := ⟨Int64.ofNat n⟩

def toInt (d : Duration) : Int := d.nanoseconds.toInt

/-! ## Writing -/

/-- A fraction of `places` decimal places without its trailing zeros, preceded by
a point; nothing for zero. -/
private def fractionText (places n : Nat) : Text :=
  let digits := Text.padLeft (Text.byte '0') places (Text.ofNat n)
  let kept := (digits.reverse.dropWhile (· == Text.byte '0')).reverse
  if kept.isEmpty then [] else Text.byte '.' :: kept

private def withUnit (unit places : Nat) (name : Text) (n : Nat) : Text :=
  Text.ofNat (n / unit) ++ fractionText places (n % unit) ++ name

private def magnitudeText (n : Nat) : Text :=
  if n == 0 then "0s"
  else if n < 1000 then Text.ofNat n ++ "ns"
  else if n < 1000000 then withUnit 1000 3 "µs" n
  else if n < second then withUnit 1000000 6 "ms" n
  else
    let whole := n / second
    let seconds := Text.ofNat (whole % 60) ++ fractionText 9 (n % second) ++ "s"
    let minutes := whole / 60
    if minutes == 0 then seconds
    else if minutes / 60 == 0 then Text.ofNat minutes ++ "m" ++ seconds
    else Text.ofNat (minutes / 60) ++ "h" ++ Text.ofNat (minutes % 60) ++ "m" ++ seconds

def render (d : Duration) : Text :=
  if d.toInt < 0 then Text.byte '-' :: magnitudeText d.toInt.natAbs
  else magnitudeText d.toInt.natAbs

/-! ## Reading -/

private def limit : Nat := 0x8000000000000000

private def unit? (name : Text) : Option Nat :=
  ([("ns", 1), ("us", 1000), ("µs", 1000), ("μs", 1000), ("ms", 1000000),
    ("s", second), ("m", minute), ("h", 60 * minute)].find?
      fun entry => Text.ofString entry.1 == name).map Prod.snd

/-- Digits after the point: the number they spell and ten to their count.  Digits
that would leave 63 bits are ignored. -/
private def fractionDigits (digits : List Nat) : Nat × Nat :=
  let step := fun (state : Nat × Nat × Bool) (d : Nat) =>
    let (n, scale, full) := state
    if full || (limit - 1) / 10 < n || limit < n * 10 + d then (n, scale, true)
    else (n * 10 + d, scale * 10, false)
  let (n, scale, _) := digits.foldl step (0, 1, false)
  (n, scale)

/-- A mantissa and binary exponent as an exact fraction. -/
private def asFraction (m : Nat × Int) : Nat × Nat :=
  if 0 ≤ m.2 then (m.1 * Nat.pow 2 m.2.toNat, 1) else (m.1, Nat.pow 2 (-m.2).toNat)

/-- The nanoseconds of a fraction of a unit.  The unit is divided and the result
multiplied in double precision, and the product is cut off to an integer. -/
private def fractionOfUnit (n scale unit : Nat) : Nat :=
  if n == 0 then 0
  else
    let (stepNum, stepDen) := asFraction (Binary64.roundFraction unit scale)
    let (num, den) := asFraction (Binary64.roundFraction n 1)
    let (productNum, productDen) :=
      asFraction (Binary64.roundFraction (num * stepNum) (den * stepDen))
    productNum / productDen

private def isNumberByte (b : UInt8) : Bool := b == Text.byte '.' || (Text.digit? b).isSome

/-- Reads numbers with units and adds them up. -/
private def sumFrom : (fuel : Nat) → (total : Nat) → Text → Option Nat
  | 0, _, _ => none
  | _ + 1, total, [] => some total
  | fuel + 1, total, b :: t => do
      let text := b :: t
      let number := text.takeWhile isNumberByte
      let afterNumber := text.dropWhile isNumberByte
      let (whole, part) := Text.cut (Text.byte '.') number
      -- a second point ends the number where a unit would have to start
      if (part.getD []).contains (Text.byte '.') then none
      else if whole.isEmpty && (part.getD []).isEmpty then none
      else do
        let n := Text.ofDigits 10 (whole.filterMap Text.digit?)
        if limit < n then none
        else do
          let name := afterNumber.takeWhile (fun c => !isNumberByte c)
          let unit ← unit? name
          let (f, scale) := fractionDigits ((part.getD []).filterMap Text.digit?)
          if limit / unit < n then none
          else
            let value := n * unit + fractionOfUnit f scale unit
            if limit < value || limit < total + value then none
            else sumFrom fuel (total + value) (afterNumber.drop name.length)

/-- Reads a duration: an optional sign and at least one number with its unit, or
`0` alone.  The nanoseconds must fit 64 bits. -/
def parse? (t : Text) : Option Duration :=
  let (negative, body) := Integer.splitSign t
  if body == [48] then some ⟨0⟩
  else if body.isEmpty then none
  else match sumFrom (body.length + 1) 0 body with
    | none => none
    | some n =>
        if negative then some ⟨Int64.ofInt (-(n : Int))⟩
        else if n < limit then some (ofNat n) else none

end Duration

end Splice

import Splice.Text.Basic

/-!
# Variable-length integers

Unsigned 64-bit numbers are written seven bits to a byte, the lowest first, and
every byte but the last has its high bit set.  Signed numbers are folded onto the
unsigned ones so that small magnitudes stay short: 0, -1, 1, -2 become 0, 1, 2, 3.
-/

namespace Splice

/-- Encoded program code. -/
abbrev Code := List UInt8

namespace Varint

/-- Why the start of some code is no number. -/
inductive Error where
  | truncated
  | overflow
deriving DecidableEq, Repr

/-- The bytes of a number in at most `more + 1` bytes. -/
def encodeFrom : (more n : Nat) → Code
  | 0, n => [n.toUInt8]
  | more + 1, n =>
      if n < 128 then [n.toUInt8]
      else (n % 128 + 128).toUInt8 :: encodeFrom more (n / 128)

def encode (n : UInt64) : Code := encodeFrom 9 n.toNat

/-- The number at the start of some code in at most `more + 1` bytes, the last of
which may only hold one bit, and the code after it. -/
def decodeFrom : (more : Nat) → Code → Except Error (Nat × Code)
  | _, [] => .error .truncated
  | 0, b :: rest => if b < 2 then .ok (b.toNat, rest) else .error .overflow
  | more + 1, b :: rest =>
      if b < 128 then .ok (b.toNat, rest)
      else
        match decodeFrom more rest with
        | .ok (n, rest) => .ok (b.toNat - 128 + 128 * n, rest)
        | .error e => .error e

/-- The number at the start of some code, and the code after it. -/
def decode (code : Code) : Except Error (UInt64 × Code) :=
  (decodeFrom 9 code).map fun (n, rest) => (n.toUInt64, rest)

/-- Folds a signed number onto the unsigned ones. -/
def fold (n : Int64) : UInt64 :=
  (if 0 ≤ n.toInt then 2 * n.toInt.toNat else 2 * (-n.toInt - 1).toNat + 1).toUInt64

/-- The signed number that was folded onto an unsigned one. -/
def unfold (n : UInt64) : Int64 :=
  if n.toNat % 2 == 0 then Int64.ofInt (n.toNat / 2)
  else Int64.ofInt (-(n.toNat / 2 : Nat) - 1)

end Varint

end Splice

import Splice.Text.Basic

/-!
# Percent escapes

A percent sign and two hexadecimal digits stand for a byte.  Addresses are read in
two ways: where every percent sign has to start an escape (`Percent.decode`), and
where one that starts none stands for itself (`Percent.reveal`).
-/

namespace Splice.Text.Percent

def sign : UInt8 := 37

/-- The byte that two hexadecimal digits stand for. -/
def byteOf? (high low : UInt8) : Option UInt8 := do
  let high ← hexDigit? high
  let low ← hexDigit? low
  some (high * 16 + low).toUInt8

/-- Reads all escapes of a text.  The error is the first piece that should be an
escape and is none. -/
def decode : Text → Except Text Text
  | [] => .ok []
  | 37 :: high :: low :: rest =>
      match byteOf? high low with
      | some b => (decode rest).map (b :: ·)
      | none => .error [sign, high, low]
  | b :: rest => if b == sign then .error (b :: rest) else (decode rest).map (b :: ·)

/-- Reads the escapes of a text that are escapes.  An escaped zero byte hides all
that follows it. -/
def reveal : Text → Text
  | [] => []
  | 37 :: high :: low :: rest =>
      match byteOf? high low with
      | some b => if b == 0 then [] else b :: reveal rest
      | none => sign :: reveal (high :: low :: rest)
  | b :: rest => b :: reveal rest

def upperHexDigit (n : Nat) : UInt8 := if n < 10 then (48 + n).toUInt8 else (55 + n).toUInt8

/-- Escapes every byte that is not to be kept. -/
def encode (keeps : UInt8 → Bool) (t : Text) : Text :=
  t.flatMap fun b =>
    if keeps b then [b] else [sign, upperHexDigit (b.toNat / 16), upperHexDigit (b.toNat % 16)]

end Splice.Text.Percent

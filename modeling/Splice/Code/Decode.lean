import Splice.Code.Instr

/-!
# Reading code

`Instr.decode` reads one instruction off the front of some code, and
`Code.disassemble` lists all of them, one to a line.  Counts are unsigned 64-bit
numbers that are taken as signed ones before operands are added or doubled, with
wrap-around; a count that comes out negative or larger than any memory is
refused as impossible.
-/

namespace Splice

/-- Why some code cannot be read. -/
inductive DecodeError where
  | endOfCode
  | unknownOpcode (byte : UInt8)
  | truncated
  | overflow
  | impossibleCount
deriving DecidableEq, Repr

namespace DecodeError

def ofVarint : Varint.Error → DecodeError
  | .truncated => truncated
  | .overflow => overflow

def message : DecodeError → Text
  | endOfCode => "unexpected end of code"
  | unknownOpcode b => "unknown opcode " ++ Text.ofNat b.toNat
  | truncated => "unexpected EOF"
  | overflow => "proto: variable length integer overflow"
  | impossibleCount => "impossible count"

end DecodeError

namespace Instr

/-- A number at the front of some code. -/
def takeVarint (code : Code) : Except DecodeError (UInt64 × Code) :=
  (Varint.decode code).mapError DecodeError.ofVarint

/-- Bytes with their number in front. -/
def takeText (code : Code) : Except DecodeError (Text × Code) := do
  let (n, rest) ← takeVarint code
  if rest.length < n.toNat then .error .truncated
  else .ok (rest.take n.toNat, rest.drop n.toNat)

/-- No list can have more entries than this.  Machines may have room for fewer, which is
not modelled. -/
def maxCount : Nat := 0x100000000000

/-- The number of operands that a count announces. -/
def operandCount (scale extra : Nat) (count : UInt64) : Except DecodeError Nat :=
  let items := count.toInt64 * Int64.ofNat scale + Int64.ofNat extra
  if items < 0 || maxCount < items.toInt.toNat then .error .impossibleCount
  else .ok items.toInt.toNat

mutual

/-- The instruction at the front of some code, and the code after it. -/
def decodeFuel : (fuel : Nat) → Code → Except DecodeError (Instr × Code)
  | 0, _ => .error .endOfCode
  | _ + 1, [] => .error .endOfCode
  | fuel + 1, b :: rest => do
      match Opcode.ofByte? b with
      | none => .error (.unknownOpcode b)
      | some .number =>
          let (n, rest) ← takeVarint rest
          .ok (number (Varint.unfold n), rest)
      | some .string =>
          let (t, rest) ← takeText rest
          .ok (string t, rest)
      | some .enum =>
          let (name, rest) ← takeText rest
          let (n, rest) ← takeVarint rest
          .ok (enum name (Varint.unfold n), rest)
      | some .syscall =>
          let (name, rest) ← takeText rest
          let (argc, rest) ← takeVarint rest
          let count ← operandCount 1 0 argc
          let (args, rest) ← decodeManyFuel fuel count rest
          .ok (syscall name args, rest)
      | some op =>
          match op.shape with
          | .payload => .error (.unknownOpcode b)
          | .fixed n =>
              let (operands, rest) ← decodeManyFuel fuel n rest
              .ok (node op operands, rest)
          | .counted scale extra =>
              let (announced, rest) ← takeVarint rest
              let count ← operandCount scale extra announced
              let (operands, rest) ← decodeManyFuel fuel count rest
              if op == .func && operands.isEmpty then .error .impossibleCount
              else .ok (node op operands, rest)

/-- So many instructions one after another. -/
def decodeManyFuel : (fuel count : Nat) → Code → Except DecodeError (List Instr × Code)
  | _, 0, code => .ok ([], code)
  | 0, _ + 1, _ => .error .endOfCode
  | fuel + 1, count + 1, code => do
      let (first, code) ← decodeFuel fuel code
      let (others, code) ← decodeManyFuel fuel count code
      .ok (first :: others, code)

end

/-- Each instruction takes at least one byte, so twice the length of the code
bounds the depth of the reading. -/
def decode (code : Code) : Except DecodeError (Instr × Code) :=
  decodeFuel (2 * code.length + 2) code

end Instr

namespace Code

/-- All instructions of some code that starts at an offset. -/
def instrsFrom : (fuel offset : Nat) → Code → Except (Nat × DecodeError) (List Instr)
  | _, _, [] => .ok []
  | 0, offset, _ => .error (offset, .endOfCode)
  | fuel + 1, offset, code => do
      let (i, rest) ← (Instr.decode code).mapError fun e => (offset, e)
      let others ← instrsFrom fuel (offset + (code.length - rest.length)) rest
      .ok (i :: others)

/-- The instructions that some code is made of, or the offset of the first one
that cannot be read. -/
def instrs (code : Code) : Except (Nat × DecodeError) (List Instr) :=
  instrsFrom code.length 0 code

/-- The listing of some code, one instruction to a line. -/
def disassemble (code : Code) : Except (Nat × DecodeError) Text :=
  (instrs code).map fun is => Text.join [Text.newline] (Instr.renderAll is)

end Code

end Splice

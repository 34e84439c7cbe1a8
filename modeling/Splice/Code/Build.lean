import Splice.Code.Opcode

/-!
# Building code

Encoded fragments compose by concatenation.  The functions below write the head
of an instruction and put the fragments of its operands behind it; they do not
check that the operands are as many as the operation takes.
-/

namespace Splice.Code

/-- Bytes with their number in front. -/
def counted (bytes : List UInt8) : Code :=
  Varint.encode bytes.length.toUInt64 ++ bytes

def number (n : Int64) : Code := Opcode.number.byte :: Varint.encode (Varint.fold n)

def string (t : Text) : Code := Opcode.string.byte :: counted t

def bool (b : Bool) : Code := [(if b then Opcode.true else Opcode.false).byte]

def nil : Code := [Opcode.nil.byte]

/-- Any byte as an operation, with its operands. -/
def instruction (op : UInt8) (operands : List Code) : Code := op :: operands.flatten

def block (statements : List Code) : Code :=
  Opcode.block.byte :: Varint.encode statements.length.toUInt64 ++ statements.flatten

def call (callee : Code) (args : List Code) : Code :=
  Opcode.call.byte :: Varint.encode args.length.toUInt64 ++ callee ++ args.flatten

/-- The head of a system call; its arguments must follow. -/
def syscall (name : Text) (argc : Int64) : Code :=
  Opcode.syscall.byte :: counted name ++ Varint.encode argc.toUInt64

/-- The fields of an object; there is none unless every key has a value. -/
def object? (keys values : List Code) : Option Code :=
  if values.length < keys.length then none
  else
    some (Opcode.object.byte :: Varint.encode keys.length.toUInt64 ++
      (List.zipWith (· ++ ·) keys values).flatten)

def func (params : List Code) (body : Code) : Code :=
  Opcode.func.byte :: Varint.encode params.length.toUInt64 ++ params.flatten ++ body

/-- The registration of an enum entry's full name and value. -/
def enum (name : Text) (value : Int64) : Code :=
  Opcode.enum.byte :: counted name ++ Varint.encode (Varint.fold value)

end Splice.Code

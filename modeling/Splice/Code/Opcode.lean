import Splice.Code.Varint

/-!
# Operations of the program code

Every instruction starts with the byte of its operation.  The operation says what
follows: a payload of its own, a fixed number of operand instructions, or a count
and that many operand instructions.
-/

namespace Splice

inductive Opcode where
  | number
  | string
  | nil
  | true
  | false
  | load
  | define
  | store
  | get
  | set
  | call
  | syscall
  | object
  | func
  | block
  | branch
  | return_
  | pop
  | add
  | sub
  | mul
  | div
  | eq
  | neq
  | lt
  | gt
  | not
  | neg
  | enum
deriving DecidableEq, Repr, Inhabited

/-- What follows the byte of an operation. -/
inductive Opcode.Shape where
  /-- Data that is no instruction. -/
  | payload
  /-- Exactly so many operands. -/
  | fixed (operands : Nat)
  /-- A count, and `scale * count + extra` operands. -/
  | counted (scale extra : Nat)
deriving DecidableEq, Repr

namespace Opcode

/-- The operations in the order of their bytes, which start at 1. -/
def all : List Opcode :=
  [number, string, nil, true, false, load, define, store, get, set, call, syscall,
    object, func, block, branch, return_, pop, add, sub, mul, div, eq, neq, lt, gt,
    not, neg, enum]

def byte : Opcode → UInt8
  | number => 1
  | string => 2
  | nil => 3
  | true => 4
  | false => 5
  | load => 6
  | define => 7
  | store => 8
  | get => 9
  | set => 10
  | call => 11
  | syscall => 12
  | object => 13
  | func => 14
  | block => 15
  | branch => 16
  | return_ => 17
  | pop => 18
  | add => 19
  | sub => 20
  | mul => 21
  | div => 22
  | eq => 23
  | neq => 24
  | lt => 25
  | gt => 26
  | not => 27
  | neg => 28
  | enum => 29

def ofByte? (b : UInt8) : Option Opcode := all.find? (·.byte == b)

def name : Opcode → Text
  | number => "number"
  | string => "string"
  | nil => "nil"
  | true => "true"
  | false => "false"
  | load => "load"
  | define => "define"
  | store => "store"
  | get => "get"
  | set => "set"
  | call => "call"
  | syscall => "syscall"
  | object => "object"
  | func => "fn"
  | block => "block"
  | branch => "if"
  | return_ => "return"
  | pop => "pop"
  | add => "add"
  | sub => "sub"
  | mul => "mul"
  | div => "div"
  | eq => "eq"
  | neq => "neq"
  | lt => "lt"
  | gt => "gt"
  | not => "not"
  | neg => "neg"
  | enum => "enum"

/-- The name of the operation of a byte. -/
def nameOfByte (b : UInt8) : Text :=
  match ofByte? b with
  | some op => op.name
  | none => "op?"

def shape : Opcode → Shape
  | number => .payload
  | string => .payload
  | syscall => .payload
  | enum => .payload
  | nil => .fixed 0
  | true => .fixed 0
  | false => .fixed 0
  | load => .fixed 1
  | return_ => .fixed 1
  | pop => .fixed 1
  | not => .fixed 1
  | neg => .fixed 1
  | define => .fixed 2
  | store => .fixed 2
  | get => .fixed 2
  | add => .fixed 2
  | sub => .fixed 2
  | mul => .fixed 2
  | div => .fixed 2
  | eq => .fixed 2
  | neq => .fixed 2
  | lt => .fixed 2
  | gt => .fixed 2
  | set => .fixed 3
  | branch => .fixed 3
  | block => .counted 1 0
  | call => .counted 1 1
  | func => .counted 1 1
  | object => .counted 2 0

end Opcode

end Splice

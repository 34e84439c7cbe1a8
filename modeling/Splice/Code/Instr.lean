import Splice.Code.Build
import Splice.Number.Integer
import Splice.Text.Quoted

/-!
# Instruction trees

An instruction together with its operands is a tree.  `Instr.encode` writes it as
code and `Instr.render` as a parenthesised listing.  The operands of a call are
its callee and its arguments, those of an object its keys and values in turn, and
those of a function its parameters and its body.
-/

namespace Splice

inductive Instr where
  | number (value : Int64)
  | string (value : Text)
  | enum (name : Text) (value : Int64)
  | syscall (name : Text) (args : List Instr)
  | node (op : Opcode) (operands : List Instr)
deriving Repr, Inhabited

namespace Instr

/-! ## Common instructions -/

def nil : Instr := node .nil []

def bool (b : Bool) : Instr := node (if b then .true else .false) []

def block (statements : List Instr) : Instr := node .block statements

/-! ## Shape -/

mutual

/-- Every operation has as many operands as it takes. -/
def isWellShaped : Instr → Bool
  | number _ => true
  | string _ => true
  | enum _ _ => true
  | syscall _ args => areWellShaped args
  | node op operands =>
      (match op.shape with
        | .payload => false
        | .fixed n => operands.length == n
        | .counted scale extra =>
            extra ≤ operands.length && (operands.length - extra) % scale == 0) &&
      areWellShaped operands

def areWellShaped : List Instr → Bool
  | [] => true
  | i :: rest => isWellShaped i && areWellShaped rest

end

/-! ## Writing -/

/-- The count that an operation writes before its operands. -/
def countBytes (op : Opcode) (operands : Nat) : Code :=
  match op.shape with
  | .counted scale extra => Varint.encode ((operands - extra) / scale).toUInt64
  | _ => []

mutual

def encode : Instr → Code
  | number n => Code.number n
  | string t => Code.string t
  | enum name value => Code.enum name value
  | syscall name args =>
      Code.syscall name (Int64.ofNat args.length) ++ encodeAll args
  | node op operands =>
      op.byte :: countBytes op operands.length ++ encodeAll operands

def encodeAll : List Instr → Code
  | [] => []
  | i :: rest => encode i ++ encodeAll rest

end

/-! ## Listing -/

/-- A head and its parts between parentheses. -/
def parenthesised (head : Text) (parts : List Text) : Text :=
  "(" ++ Text.join " " (head :: parts) ++ ")"

mutual

def render : Instr → Text
  | number n => Text.ofInt64 n
  | string t => Text.quote t
  | enum name value =>
      parenthesised "enum" [Text.quote name, Text.ofInt64 value]
  | syscall name args => parenthesised "syscall" (name :: renderAll args)
  | node op operands =>
      let parts := renderAll operands
      if op == .func then
        parenthesised op.name
          ["(" ++ Text.join " " parts.dropLast ++ ")", parts.getLastD []]
      else if op.shape == .fixed 0 then op.name
      else parenthesised op.name parts

def renderAll : List Instr → List Text
  | [] => []
  | i :: rest => render i :: renderAll rest

end

end Instr

end Splice

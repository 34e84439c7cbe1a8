import Splice.Terminal.Cluster

/-!
# The width of a line

A line is read byte by byte as a terminal reads it.  Control sequences, which start with
an escape or with one of the upper controls, take no cells, and neither do controls.
-/

namespace Splice.Terminal

/-- Where a terminal stands between two bytes. -/
inductive Mode where
  | ground
  | escape
  /-- An escape sequence after an intermediate byte. -/
  | escapeTail
  /-- A control sequence, before and after its intermediate bytes. -/
  | control
  | controlTail
  /-- A device control string: its introduction, its parameters, its intermediate bytes
  and its data. -/
  | device
  | deviceParameters
  | deviceTail
  | deviceData
  /-- An operating system command. -/
  | command
  /-- A string that means nothing to most terminals. -/
  | message
  /-- A character of several bytes starts. -/
  | character
deriving DecidableEq, Repr, Inhabited

namespace Mode

def isBetween (low high b : UInt8) : Bool := low ≤ b && b ≤ high

/-- Controls that do not end a sequence. -/
def isLowerControl (b : UInt8) : Bool :=
  isBetween 0x00 0x17 b || b == 0x19 || isBetween 0x1C 0x1F b

/-- What a byte does wherever it stands. -/
def anywhere? (b : UInt8) : Option Mode :=
  if b == 0x18 || b == 0x1A then some ground
  else if b == 0x1B then some escape
  else if b == 0x90 then some device
  else if b == 0x98 || b == 0x9E || b == 0x9F then some message
  else if b == 0x9B then some control
  else if b == 0x9D then some command
  else if isBetween 0x80 0x9C b then some ground
  else if isBetween 0xC2 0xF4 b then some character
  else none

/-- What follows an escape. -/
def afterEscape (b : UInt8) : Mode :=
  if isLowerControl b || b == 0x7F then escape
  else if isBetween 0x20 0x2F b then escapeTail
  else if b == Text.byte 'X' || b == Text.byte '^' || b == Text.byte '_' then message
  else if b == Text.byte 'P' then device
  else if b == Text.byte '[' then control
  else if b == Text.byte ']' then command
  else ground

/-- The mode after a byte, unless the byte does the same everywhere. -/
def within (b : UInt8) : Mode → Mode
  | escape => afterEscape b
  | escapeTail =>
      if isLowerControl b || isBetween 0x20 0x2F b || b == 0x7F then escapeTail else ground
  | control =>
      if isLowerControl b || isBetween 0x30 0x3F b || b == 0x7F then control
      else if isBetween 0x20 0x2F b then controlTail
      else ground
  | controlTail =>
      if isLowerControl b || isBetween 0x20 0x2F b || b == 0x7F then controlTail else ground
  | device =>
      if isBetween 0x08 0x0D b || isBetween 0x40 0x7E b then deviceData
      else if isLowerControl b || b == 0x7F then device
      else if isBetween 0x20 0x2F b then deviceTail
      else if isBetween 0x30 0x3F b then deviceParameters
      else ground
  | deviceParameters =>
      if isLowerControl b || isBetween 0x30 0x3F b || b == 0x7F then deviceParameters
      else if isBetween 0x20 0x2F b then deviceTail
      else if isBetween 0x40 0x7E b then deviceData
      else ground
  | deviceTail =>
      if isLowerControl b || isBetween 0x20 0x2F b || b == 0x7F then deviceTail
      else if isBetween 0x30 0x7E b then deviceData
      else ground
  | message => if b < 0x80 then message else ground
  | _ => ground

/-- The mode after a byte.  The data of device strings and commands may hold every byte
but the terminators. -/
def next (m : Mode) (b : UInt8) : Mode :=
  match m with
  | deviceData =>
      if b == 0x18 || b == 0x1A || b == 0x9C then ground
      else if b == 0x1B then escape
      else deviceData
  | command =>
      if b == 0x07 || b == 0x18 || b == 0x1A || b == 0x9C then ground
      else if b == 0x1B then escape
      else command
  | device => if b == 0x1B then deviceData else (anywhere? b).getD (within b m)
  | m => (anywhere? b).getD (within b m)

def shows (m : Mode) (b : UInt8) : Bool := m == ground && isBetween 0x20 0x7E b

end Mode

/-- The width of a text whose first `skip` bytes belong to a cluster that has been
counted already. -/
def widthFrom : (skip : Nat) → Mode → Text → Nat
  | _, _, [] => 0
  | skip + 1, m, _ :: rest => widthFrom skip m rest
  | 0, m, b :: rest =>
      match m.next b with
      | .character =>
          let cluster := firstCluster (Text.glyphs (b :: rest))
          clusterCells cluster + widthFrom ((Text.ofGlyphs cluster).length - 1) .ground rest
      | next => (if m.shows b then 1 else 0) + widthFrom 0 next rest

/-- How many cells a line takes. -/
def width (line : Text) : Nat := widthFrom 0 .ground line

end Splice.Terminal

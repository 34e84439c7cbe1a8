import Splice.Source.Unit

/-!
# Diagnostics

A diagnostic is a message about a place in a source unit.  It is shown as the
message, the location, the line of the source and a caret below the offending
byte.
-/

namespace Splice

/-- A message about an offset of a source unit.  A negative offset means the
unit as a whole. -/
structure Diagnostic where
  message : Text
  unit : Option SourceUnit
  offset : Int
deriving DecidableEq, Repr, Inhabited

namespace Diagnostic

/-- `location:row:column`, or what of it is known. -/
def locator (d : Diagnostic) : Text :=
  match d.unit with
  | none => []
  | some u =>
      if d.offset < 0 then u.location
      else
        let (row, column) := u.position d.offset
        u.location ++ ":" ++ Text.ofNat row ++ ":" ++ Text.ofNat column

/-- The row number in front of a source line. -/
def gutter (row : Nat) : Text := Text.padLeft 32 4 (Text.ofNat row) ++ " | "

/-- Blanks as wide as the part of a line before the caret: tabs stay tabs. -/
def caretPadding (line : Text) (column : Nat) : Text :=
  let seen := line.take (column - 1)
  seen.map (fun b => if b == 9 then 9 else 32) ++
    List.replicate (column - 1 - seen.length) 32

/-- The line of a source and the caret line below it. -/
def excerpt (u : SourceUnit) (offset : Int) : Text :=
  let (row, column) := u.position offset
  let line := u.line row
  gutter row ++ line ++ [Text.newline] ++
    List.replicate (gutter row).length 32 ++ caretPadding line column ++ [94]

def render (d : Diagnostic) : Text :=
  match d.unit with
  | none => d.message
  | some u =>
      let head := d.message ++ "\n  at " ++ d.locator
      if d.offset < 0 then head else head ++ [Text.newline] ++ excerpt u d.offset

end Diagnostic

end Splice

import Splice.Build.Basic
import Splice.Code.Decode
import Splice.Failure

/-!
# Listings of builds

A listing shows the enum table and then the instructions of every namespace under
a line with its name.
-/

namespace Splice

def Failure.ofDecode : Nat × DecodeError → Failure
  | (offset, e) => .plain ("offset " ++ Text.ofNat offset ++ ": " ++ e.message)

namespace BuildResult

/-- The lines of some code, ended if there are any. -/
def listingLines (code : Code) : Except Failure Text :=
  match code.disassemble with
  | .error e => .error (Failure.ofDecode e)
  | .ok t => .ok (if t.isEmpty then [] else t ++ [Text.newline])

def enumLine (row : Text × Int64) : Except Failure Text :=
  match (Code.enum row.1 row.2).disassemble with
  | .error e => .error (Failure.ofDecode e)
  | .ok t => .ok (t ++ [Text.newline])

def namespaceLines (n : NamespaceCode) : Except Failure Text := do
  let lines ← (listingLines n.code).mapError fun e => e.addContext "namespace" n.id
  .ok ("; namespace " ++ n.id ++ " (" ++ n.location ++ ")\n" ++ lines)

def listing (r : BuildResult) : Except Failure Text := do
  let rows ← r.enumTable.mapM enumLine
  let parts ← r.namespaces.mapM namespaceLines
  let head : Text := if r.enumTable.isEmpty then [] else "; enum table\n"
  .ok (head ++ rows.flatten ++ parts.flatten)

end BuildResult

end Splice

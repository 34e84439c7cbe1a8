import Splice.NameMap.Basic
import Splice.Number.Integer

/-!
# The file of recorded names

A file starts with a line that says what it is.  Behind it stand the fields of all
records one after another, each as its length, a colon and its bytes; the first
field of a record names its table.
-/

namespace Splice.NameMap

def fileMark : Text := "recorded names 1\n"

def writeField (t : Text) : Text := Text.ofNat t.length ++ ":" ++ t

def buildFields (b : BuildRecord) : List Text :=
  ["build", b.id, b.entry, b.time.text, Text.ofNat b.symbolCount]

def nameFields (row : Text × NameEntry) : List Text :=
  let (build, e) := row
  ["name", build, Text.ofInt64 e.code, e.space, e.name, e.kind, Text.ofInt e.uses]

def fields (m : NameMap) : List Text :=
  m.builds.flatMap buildFields ++ m.names.flatMap nameFields

def encode (m : NameMap) : Text := fileMark ++ m.fields.flatMap writeField

/-! ## Reading -/

/-- The first field and what follows it. -/
def readField? (t : Text) : Option (Text × Text) :=
  let digits := t.takeWhile fun b => (Text.digit? b).isSome
  match Text.toNat? digits, t.drop digits.length with
  | some length, 58 :: rest =>
      if length ≤ rest.length then some (rest.take length, rest.drop length) else none
  | _, _ => none

def readFields? : (fuel : Nat) → Text → Option (List Text)
  | _, [] => some []
  | 0, _ :: _ => none
  | fuel + 1, t => do
      let (field, rest) ← readField? t
      let others ← readFields? fuel rest
      some (field :: others)

private def readInt? (t : Text) : Option Int64 := (Integer.parseDecimal t).toOption

/-- The record at the start of some fields, added to a map. -/
def addRecord? (m : NameMap) : List Text → Option (NameMap × List Text)
  | table :: id :: entry :: time :: count :: rest =>
      if table == "build" then do
        let record : BuildRecord := ⟨id, entry, ← Instant.parse? time, ← Text.toNat? count⟩
        some ({ m with builds := m.builds ++ [record] }, rest)
      else
        match rest with
        | kind :: uses :: rest =>
            if table == "name" then do
              let e : NameEntry := ⟨← readInt? entry, time, count, kind, (← readInt? uses).toInt⟩
              some ({ m with names := m.names ++ [(id, e)] }, rest)
            else none
        | _ => none
  | _ => none

def ofFields? : (fuel : Nat) → NameMap → List Text → Option NameMap
  | _, m, [] => some m
  | 0, _, _ :: _ => none
  | fuel + 1, m, fields => do
      let (m, rest) ← m.addRecord? fields
      ofFields? fuel m rest

/-- Reads a file; an empty one records nothing. -/
def decode? (t : Text) : Option NameMap := do
  if t.isEmpty then return {}
  let body ← Text.afterStart? fileMark t
  let fields ← readFields? body.length body
  ofFields? fields.length {} fields

end Splice.NameMap

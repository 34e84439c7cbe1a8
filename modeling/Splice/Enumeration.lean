import Splice.Text.Basic

/-!
# Enums

An enum has entries in the order of their declaration.  An entry has an explicit
value, or is given one when the values of the whole program are assigned.
-/

namespace Splice

structure EnumEntry where
  name : Text
  explicit : Bool
  value : Int64
  offset : Int
deriving DecidableEq, Repr, Inhabited

structure Enumeration where
  name : Text
  offset : Int
  entries : List EnumEntry := []
deriving DecidableEq, Repr, Inhabited

namespace EnumEntry

/-- An entry with an explicit value, or one that waits for its value. -/
def ofValue? (name : Text) (value : Option Int64) (offset : Int) : EnumEntry :=
  ⟨name, value.isSome, value.getD 0, offset⟩

end EnumEntry

namespace Enumeration

def entry? (e : Enumeration) (name : Text) : Option EnumEntry :=
  e.entries.find? (·.name == name)

def addEntry (e : Enumeration) (entry : EnumEntry) : Enumeration :=
  { e with entries := e.entries ++ [entry] }

def declaredTwice (name : Text) : Text := "enum " ++ name ++ " is declared twice"

def hasEntryAlready (enum entry : Text) : Text :=
  "enum " ++ enum ++ " already has an entry " ++ entry

end Enumeration

end Splice

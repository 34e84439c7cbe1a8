import Splice.Symbol

/-!
# References to other namespaces

A reference mentions a name that another namespace owns, by an import alias or,
without an alias, in the standard library.  It is resolved at most once, to a
symbol or to an entry of an enum.
-/

namespace Splice

/-- What a reference turned out to denote. -/
inductive Resolution where
  | unresolved
  | value (symbol : SymbolId)
  | entry (space enum name : Text) (value : Int64)
deriving DecidableEq, Repr, Inhabited

structure Reference where
  qualifier : Text
  name : Text
  /-- The name accessed on it, or empty; it matters only if `name` is an enum. -/
  member : Text
  offset : Int
  /-- The reference's own symbol in the namespace that owns the name. -/
  target : Option SymbolId := none
  resolution : Resolution := .unresolved
deriving DecidableEq, Repr, Inhabited

/-- The position of a reference among the references of a program. -/
abbrev ReferenceId := Nat

namespace Reference

def isResolved (r : Reference) : Bool := r.resolution != .unresolved

def spelling (r : Reference) : Text :=
  let owner : Text := if r.qualifier.isEmpty then [] else r.qualifier ++ "."
  let member : Text := if r.member.isEmpty then [] else "." ++ r.member
  owner ++ r.name ++ member

/-- Settles what the reference denotes; a second time is refused with a
message. -/
def resolve (r : Reference) (resolution : Resolution) : Except Text Reference :=
  if r.isResolved then .error ("foreign reference " ++ r.spelling ++ " already resolved")
  else .ok { r with resolution }

end Reference

end Splice

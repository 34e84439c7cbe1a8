import Splice.Code.Instr

/-!
# Symbols

A symbol is an identity, not a name: every place that mentions a name has a
symbol of its own, and symbols of one name share what is written for them.  A
symbol is written as the literal text of its name until it is given a number.
-/

namespace Splice

/-- What a name belongs to: one namespace, all objects of the program, or the
machine. -/
inductive SymbolKind where
  | namespaced
  | property
  | intrinsic
deriving DecidableEq, Repr, Inhabited

namespace SymbolKind

def name : SymbolKind → Text
  | namespaced => "namespace"
  | property => "property"
  | intrinsic => "intrinsic"

/-- The name of the kind with a number, whether or not there is such a kind. -/
def nameOfNumber (n : Int) : Text :=
  if n == 0 then namespaced.name
  else if n == 1 then property.name
  else if n == 2 then intrinsic.name
  else "unknown"

end SymbolKind

structure Symbol where
  name : Text
  /-- The identifier of the namespace; empty unless the symbol is namespaced. -/
  space : Text
  kind : SymbolKind
  /-- A retained symbol never gives up its literal name. -/
  retained : Bool
  /-- The number that stands for the name, once there is one. -/
  number : Option Int64 := none
deriving DecidableEq, Repr, Inhabited

/-- The position of a symbol among the symbols of a program. -/
abbrev SymbolId := Nat

namespace Symbol

/-- `space:name`, or `.name` without a namespace. -/
def idOf (space name : Text) : Text :=
  if space.isEmpty then "." ++ name else space ++ ":" ++ name

def ofProperty (name : Text) (retained : Bool) : Symbol := ⟨name, [], .property, retained, none⟩

/-- A name of a namespace; without a namespace it is a property. -/
def ofName (space name : Text) : Symbol :=
  if space.isEmpty then ofProperty name false else ⟨name, space, .namespaced, false, none⟩

/-- An operation of the machine, which keeps its name. -/
def ofIntrinsic (name : Text) : Symbol := ⟨name, [], .intrinsic, true, none⟩

def id (s : Symbol) : Text :=
  match s.kind with
  | .namespaced => idOf s.space s.name
  | _ => idOf [] s.name

/-- The text that is written for a symbol without a number. -/
def literal (s : Symbol) : Text :=
  match s.kind with
  | .namespaced => s.id
  | _ => s.name

/-- Pins the literal name; a property that had a number loses it. -/
def retain (s : Symbol) : Symbol :=
  { s with
    retained := true
    number := if s.kind == .property then none else s.number }

/-- Retained and intrinsic symbols take no number. -/
def takesNumber (s : Symbol) : Bool := !s.retained && s.kind != .intrinsic

/-- Replaces the literal name by a number where that is allowed. -/
def mangle (s : Symbol) (n : Int64) : Symbol :=
  if s.takesNumber then { s with number := some n } else s

/-- What is written where the symbol is mentioned. -/
def operand (s : Symbol) : Instr :=
  match s.number with
  | some n => .number n
  | none => .string s.literal

/-- The code of the operand; intrinsic symbols have none. -/
def code (s : Symbol) : Code :=
  match s.kind with
  | .intrinsic => []
  | _ => s.operand.encode

end Symbol

end Splice

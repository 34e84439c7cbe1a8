import Splice.Source.Unit

/-!
# The standard library

The library that a program is linked with unless it names one of its own.  Bare
names that a namespace does not declare are looked up here.
-/

namespace Splice.StandardLibrary

/-- Where the library seems to come from; no file has such a location. -/
def location : Text := "$std/std.wv"

private def lines : List String :=
  [
    "// Default standard library. Every bare name that a namespace does not bind",
    "// itself is looked up here. Keep this file free of enums: their values would",
    "// shift every program's automatic enum numbering.",
    "",
    "retain length, message",
    "",
    "fn print(value) \x7b",
    "  return $print(value)",
    "\x7d",
    "",
    "fn len(value) \x7b",
    "  return value.length",
    "\x7d",
    "",
    "fn assert(cond, text) \x7b",
    "  if !cond \x7b",
    "    $panic(\x7bmessage: text\x7d)",
    "  \x7d",
    "  return cond",
    "\x7d",
    "",
    "fn min(a, b) \x7b",
    "  if a < b \x7b",
    "    return a",
    "  \x7d",
    "  return b",
    "\x7d",
    "",
    "fn max(a, b) \x7b",
    "  if a > b \x7b",
    "    return a",
    "  \x7d",
    "  return b",
    "\x7d",
    "",
    "fn clock() \x7b",
    "  return $clock()",
    "\x7d",
    "",
    "let debug = false",
    "let version = \"1\""
  ]

def text : Text := lines.flatMap fun line => Text.ofString line ++ [Text.newline]

def unit : SourceUnit := ⟨text, location⟩

end Splice.StandardLibrary

import Splice.Text.Basic

/-!
# Name patterns

Patterns choose property names that keep their spelling and directories that are not
watched.  How patterns are spelled is not the linker's concern: it is given a reader of
patterns, and relies on nothing but that a pattern says the same of a name each time.
-/

namespace Splice

/-- A pattern that is ready for use. -/
structure NamePattern where
  /-- Whether the pattern describes the whole of a name. -/
  matchesName : Text → Bool
deriving Inhabited

/-- Reads a pattern, or says what is wrong with it. -/
abbrev PatternReader := Text → Except Text NamePattern

end Splice

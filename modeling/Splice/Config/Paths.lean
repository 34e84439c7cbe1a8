import Splice.Config.Basic

/-!
# Paths of a project

The paths of a configuration, made absolute against the directory that the
configuration file lives in.
-/

namespace Splice

structure ProjectPaths where
  root : Text
  entry : Text
  /-- Empty without a standard library of the project's own. -/
  stdlib : Text
  output : Text
  /-- Empty without a listing. -/
  disasm : Text
  symbolMap : Text
deriving DecidableEq, Repr, Inhabited

/-- The paths of a project in a root directory, which must be given. -/
def Config.paths (c : Config) (workingDir root : Text) : Except Text ProjectPaths :=
  if root.isAllBlank then .error "root must not be empty"
  else
    let base := Path.absolute workingDir root
    let optional (value : Text) : Text :=
      if value.isEmpty then [] else Path.resolve base value
    .ok {
      root := base
      entry := Path.resolve base c.entry
      stdlib := optional c.stdlib
      output := Path.resolve base c.output.path
      disasm := optional c.output.disasm
      symbolMap := Path.resolve base c.output.symbolMap }

end Splice

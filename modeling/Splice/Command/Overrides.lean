import Splice.Command.Flags
import Splice.Config.Basic

/-!
# Settings from the command line

Flags that are given override the configuration, and so does an entry file.  Some
combinations make no sense; what was set before they are found stays set.
-/

namespace Splice.Flags

private def choose {α : Type} (f : Flags) (name : Text) (value current : α) : α :=
  if f.isGiven name then value else current

/-- What is wrong with the combination of flags; the first complaint counts. -/
def combinationError? (f : Flags) : Option Text :=
  if 0 ≤ f.demangle && f.watch then some "--demangle cannot be combined with --watch"
  else if f.isGiven "build-id" && f.demangle < 0 then some "--build-id requires --demangle"
  else none

/-- The configuration with the entry file of the command line. -/
def withEntry (f : Flags) (c : Config) : Config :=
  match f.args with
  | [entry] => { c with entry }
  | _ => c

/-- The configuration with the flags that are given. -/
def withFlags (f : Flags) (c : Config) : Config :=
  { c with
    stdlib := f.choose "stdlib" f.stdlib c.stdlib
    build := {
      mangle := f.choose "mangle" f.mangle c.build.mangle || 0 ≤ f.demangle
      removeDeadCode := f.choose "dce" f.removeDeadCode c.build.removeDeadCode
      prunePassLimit := f.choose "prune-limit" f.pruneLimit c.build.prunePassLimit
      includeEnumLookup := f.choose "enum-lookup" (some f.enumLookup) c.build.includeEnumLookup
      analyseAst := f.choose "analyse-ast" f.analyseAst c.build.analyseAst
      analyseSymbols := f.choose "analyse-symbols" f.analyseSymbols c.build.analyseSymbols
      retain := c.build.retain ++ f.choose "retain" (splitPatterns f.retain) [] }
    output := { c.output with
      path := f.choose "out" f.out c.output.path
      disasm := f.choose "disasm" f.disasm c.output.disasm }
    observability := {
      metricsAddr := f.choose "metrics-addr" f.metricsAddr c.observability.metricsAddr
      otlpEndpoint := f.choose "otlp-endpoint" f.otlpEndpoint c.observability.otlpEndpoint } }

/-- The configuration as the command line changes it, and what is wrong with the
command line, if anything. -/
def override (f : Flags) (c : Config) : Config × Option Text :=
  if 1 < f.args.length then
    (c, some ("at most one entry file may be given, got " ++ Text.ofNat f.args.length))
  else
    let c := f.withEntry c
    match f.combinationError? with
    | some complaint => (c, some complaint)
    | none => (f.withFlags c, none)

end Splice.Flags

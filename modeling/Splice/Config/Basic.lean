import Splice.Build.Basic
import Splice.Number.Binary64
import Splice.Number.Duration
import Splice.Path

/-!
# Configurations

The settings of a project, with the values that hold where nothing is set.
-/

namespace Splice

structure BuildConfig where
  mangle : Bool := false
  removeDeadCode : Bool := false
  prunePassLimit : Int64 := 0
  includeEnumLookup : Option Bool := none
  analyseAst : Bool := false
  analyseSymbols : Bool := false
  retain : List Text := []
deriving DecidableEq, Repr, Inhabited

structure OutputConfig where
  path : Text := []
  disasm : Text := []
  symbolMap : Text := []
deriving DecidableEq, Repr, Inhabited

structure WatchConfig where
  debounce : Duration := ⟨0⟩
  excludeDirs : List Text := []
  maxRebuildsPerSecond : Binary64 := ⟨0⟩
deriving DecidableEq, Repr, Inhabited

structure ObservabilityConfig where
  metricsAddr : Text := []
  otlpEndpoint : Text := []
deriving DecidableEq, Repr, Inhabited

structure Config where
  version : Int64 := 0
  entry : Text := []
  stdlib : Text := []
  build : BuildConfig := {}
  output : OutputConfig := {}
  watch : WatchConfig := {}
  observability : ObservabilityConfig := {}
deriving DecidableEq, Repr, Inhabited

namespace Config

private def orText (t default_ : Text) : Text := if t.isAllBlank then default_ else t

def defaultDebounce : Duration := Duration.ofNat 300000000

def withDefaults (c : Config) : Config :=
  { c with
    version := if c.version == 0 then 1 else c.version
    entry := orText c.entry "main.wv"
    build := { c.build with
      prunePassLimit :=
        if c.build.prunePassLimit ≤ 0 then Int64.ofNat BuildOptions.defaultPassLimit
        else c.build.prunePassLimit
      includeEnumLookup := some (c.build.includeEnumLookup.getD true) }
    output := { c.output with
      path := orText c.output.path "out.wvb"
      symbolMap := orText c.output.symbolMap "data/symbols.db" }
    watch := {
      debounce := if c.watch.debounce.nanoseconds == 0 then defaultDebounce else c.watch.debounce
      excludeDirs := if c.watch.excludeDirs.isEmpty then [".git"] else c.watch.excludeDirs
      maxRebuildsPerSecond :=
        if c.watch.maxRebuildsPerSecond.isZero then Binary64.ofInt 2
        else c.watch.maxRebuildsPerSecond } }

/-- The configuration of a project without a configuration file. -/
def default : Config := ({} : Config).withDefaults

/-- Drops the blanks around texts, and patterns that are blank. -/
def normalize (c : Config) : Config :=
  { c with
    entry := c.entry.trim
    stdlib := c.stdlib.trim
    build := { c.build with
      retain := (c.build.retain.map Text.trim).filter fun p => !p.isEmpty }
    output := {
      path := c.output.path.trim
      disasm := c.output.disasm.trim
      symbolMap := c.output.symbolMap.trim }
    observability := {
      metricsAddr := c.observability.metricsAddr.trim
      otlpEndpoint := c.observability.otlpEndpoint.trim } }

/-- What a build of the project is asked to do. -/
def buildOptions (c : Config) : BuildOptions where
  mangle := c.build.mangle
  removeDeadCode := c.build.removeDeadCode
  prunePassLimit := c.build.prunePassLimit
  analyseAst := c.build.analyseAst
  analyseSymbols := c.build.analyseSymbols
  includeEnumLookup := c.build.includeEnumLookup.getD true
  retain := c.build.retain
  stdPath := c.stdlib

end Config

end Splice

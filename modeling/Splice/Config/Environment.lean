import Splice.Config.Basic

/-!
# Settings from the environment

Variables override settings of the configuration file.  A variable whose value
cannot be read is ignored.
-/

namespace Splice

/-- Environment variables by name. -/
abbrev Environment := List (Text × Text)

namespace Environment

def get? (env : Environment) (name : Text) : Option Text :=
  (env.find? (·.1 == name)).map (·.2)

private def readInt (t : Text) : Option Int64 :=
  match Integer.parseDecimal t with
  | .ok n => some n
  | .error _ => none

/-- The value of a variable if it is set and can be read. -/
private def read {α : Type} (env : Environment) (name : Text) (parse : Text → Option α)
    (current : α) : α :=
  ((env.get? name).bind parse).getD current

/-- The variables that have a meaning. -/
def names : List Text :=
  ["WEAVE_ENTRY", "WEAVE_STDLIB", "WEAVE_BUILD_MANGLE", "WEAVE_BUILD_REMOVE_DEAD_CODE",
    "WEAVE_BUILD_PRUNE_PASS_LIMIT", "WEAVE_OUTPUT_PATH", "WEAVE_OUTPUT_DISASM",
    "WEAVE_OUTPUT_SYMBOL_MAP", "WEAVE_WATCH_DEBOUNCE", "WEAVE_WATCH_MAX_REBUILDS_PER_SECOND",
    "WEAVE_OBSERVABILITY_METRICS_ADDR", "WEAVE_OBSERVABILITY_OTLP_ENDPOINT"]

/-- The configuration with the variables that are set taking effect. -/
def override (env : Environment) (c : Config) : Config :=
  let text (name : Text) (current : Text) : Text := read env name some current
  let bool (name : Text) (current : Bool) : Bool :=
    read env name (fun t => Text.toBool? t.lower) current
  { c with
    entry := text "WEAVE_ENTRY" c.entry
    stdlib := text "WEAVE_STDLIB" c.stdlib
    build := { c.build with
      mangle := bool "WEAVE_BUILD_MANGLE" c.build.mangle
      removeDeadCode := bool "WEAVE_BUILD_REMOVE_DEAD_CODE" c.build.removeDeadCode
      prunePassLimit :=
        read env "WEAVE_BUILD_PRUNE_PASS_LIMIT" readInt c.build.prunePassLimit }
    output := {
      path := text "WEAVE_OUTPUT_PATH" c.output.path
      disasm := text "WEAVE_OUTPUT_DISASM" c.output.disasm
      symbolMap := text "WEAVE_OUTPUT_SYMBOL_MAP" c.output.symbolMap }
    watch := { c.watch with
      debounce := read env "WEAVE_WATCH_DEBOUNCE" Duration.parse? c.watch.debounce
      maxRebuildsPerSecond :=
        read env "WEAVE_WATCH_MAX_REBUILDS_PER_SECOND" Binary64.parse?
          c.watch.maxRebuildsPerSecond }
    observability := {
      metricsAddr := text "WEAVE_OBSERVABILITY_METRICS_ADDR" c.observability.metricsAddr
      otlpEndpoint := text "WEAVE_OBSERVABILITY_OTLP_ENDPOINT" c.observability.otlpEndpoint } }

end Environment

end Splice

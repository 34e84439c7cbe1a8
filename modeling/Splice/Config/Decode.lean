import Splice.Config.Basic
import Splice.Config.Document

/-!
# Configurations from documents

Keys of a document are matched without regard to case.  Keys that mean nothing are
ignored; a key with a value of the wrong type makes the document unusable.
-/

namespace Splice.Config

open Toml (Table Value)

/-- A key in which letters that only differ in case are the same; the long s and the
sign of kelvin are forms of s and k. -/
private def foldKey : Text → Text
  | 0xC5 :: 0xBF :: rest => Text.byte 's' :: foldKey rest
  | 0xE2 :: 0x84 :: 0xAA :: rest => Text.byte 'k' :: foldKey rest
  | b :: rest => Text.lowerByte b :: foldKey rest
  | [] => []

private def find? (t : Table) (key : Text) : Option Value :=
  (t.find? fun e => foldKey e.1 == foldKey key).map (·.2)

/-- Reads a key into a setting; a missing key leaves it as it is. -/
private def setting {α : Type} (read : Value → Option α) (t : Table) (key : Text)
    (current : α) : Option α :=
  match find? t key with
  | none => some current
  | some v => read v

/-- The table under a key; a missing one is empty. -/
private def section? (t : Table) (key : Text) : Option Table :=
  match find? t key with
  | none => some []
  | some (.table inner) => some inner
  | some _ => none

private def text? : Value → Option Text
  | .string t => some t
  | _ => none

private def integer? : Value → Option Int64
  | .integer n => some n
  | _ => none

private def boolean? : Value → Option Bool
  | .boolean b => some b
  | _ => none

private def texts? : Value → Option (List Text)
  | .array vs => vs.mapM text?
  | _ => none

/-- Integers count as floats as long as a double holds every one of their size. -/
private def float? : Value → Option Binary64
  | .float x => some x
  | .integer n =>
      if n.toInt.natAbs < Binary64.exactLimit then some (Binary64.ofInt n.toInt) else none
  | _ => none

/-- A duration is spelled out or a number of nanoseconds. -/
private def duration? : Value → Option Duration
  | .string t => Duration.parse? t
  | .integer n => some ⟨n⟩
  | _ => none

private def decodeBuild (t : Table) : Option BuildConfig := do
  some {
    mangle := ← setting boolean? t "mangle" false
    removeDeadCode := ← setting boolean? t "remove_dead_code" false
    prunePassLimit := ← setting integer? t "prune_pass_limit" 0
    includeEnumLookup := ← setting (fun v => (boolean? v).map some) t "include_enum_lookup" none
    analyseAst := ← setting boolean? t "analyse_ast" false
    analyseSymbols := ← setting boolean? t "analyse_symbols" false
    retain := ← setting texts? t "retain" [] }

private def decodeOutput (t : Table) : Option OutputConfig := do
  some {
    path := ← setting text? t "path" []
    disasm := ← setting text? t "disasm" []
    symbolMap := ← setting text? t "symbol_map" [] }

private def decodeWatch (t : Table) : Option WatchConfig := do
  some {
    debounce := ← setting duration? t "debounce" ⟨0⟩
    excludeDirs := ← setting texts? t "exclude_dirs" []
    maxRebuildsPerSecond := ← setting float? t "max_rebuilds_per_second" ⟨0⟩ }

private def decodeObservability (t : Table) : Option ObservabilityConfig := do
  some {
    metricsAddr := ← setting text? t "metrics_addr" []
    otlpEndpoint := ← setting text? t "otlp_endpoint" [] }

/-- The settings of a document as they stand there. -/
def ofTable? (t : Table) : Option Config := do
  some {
    version := ← setting integer? t "version" 0
    entry := ← setting text? t "entry" []
    stdlib := ← setting text? t "stdlib" []
    build := ← decodeBuild (← section? t "build")
    output := ← decodeOutput (← section? t "output")
    watch := ← decodeWatch (← section? t "watch")
    observability := ← decodeObservability (← section? t "observability") }

/-- The settings of a configuration file's text as they stand there. -/
def ofToml? (t : Text) : Option Config := do ofTable? (← Toml.document? (← Toml.parse? t))

end Splice.Config

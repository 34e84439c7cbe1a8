import Splice.Number.Integer
import Splice.Text.Quoted

/-!
# Command-line flags

Flags come first and start with one or two dashes; `--` ends them.  A flag takes
its value after an equals sign or from the next argument, except that a truth
value may be left out and then means true.
-/

namespace Splice

/-- The command line, with the defaults of what is not given. -/
structure Flags where
  config : Text := "./weave.toml"
  out : Text := []
  disasm : Text := []
  stdlib : Text := []
  mangle : Bool := false
  removeDeadCode : Bool := false
  enumLookup : Bool := true
  pruneLimit : Int64 := 0
  analyseAst : Bool := false
  analyseSymbols : Bool := false
  retain : Text := []
  watch : Bool := false
  metricsAddr : Text := []
  otlpEndpoint : Text := []
  demangle : Int64 := -1
  buildId : Text := []
  verbose : Bool := false
  version : Bool := false
  /-- The arguments after the flags. -/
  args : List Text := []
  /-- The names of the flags that were given, sorted. -/
  given : List Text := []
deriving DecidableEq, Repr, Inhabited

namespace Flags

def defaultConfig : Text := "./weave.toml"

/-- Why the command line cannot be read. -/
inductive Error where
  | badForm (arg : Text)
  | unknown (name : Text)
  | help
  | badTruth (name value : Text)
  | missingValue (name : Text)
  | badValue (name value : Text) (cause : Integer.Error)
deriving DecidableEq, Repr

def Error.message : Error → Text
  | badForm arg => "bad flag syntax: " ++ arg
  | unknown name => "flag provided but not defined: -" ++ name
  | help => "flag: help requested"
  | badTruth name value =>
      "invalid boolean value " ++ Text.quote value ++ " for -" ++ name ++ ": parse error"
  | missingValue name => "flag needs an argument: -" ++ name
  | badValue name value cause =>
      "invalid value " ++ Text.quote value ++ " for flag -" ++ name ++ ": " ++
        match cause with
        | .malformed => ("parse error" : Text)
        | .outOfRange => "value out of range"

/-- How a flag takes its value. -/
inductive Slot where
  | truth (set : Flags → Bool → Flags)
  | text (set : Flags → Text → Flags)
  | integer (set : Flags → Int64 → Flags)

def slots : List (Text × Slot) :=
  [("config", .text fun f v => { f with config := v }),
    ("out", .text fun f v => { f with out := v }),
    ("disasm", .text fun f v => { f with disasm := v }),
    ("stdlib", .text fun f v => { f with stdlib := v }),
    ("mangle", .truth fun f v => { f with mangle := v }),
    ("dce", .truth fun f v => { f with removeDeadCode := v }),
    ("enum-lookup", .truth fun f v => { f with enumLookup := v }),
    ("prune-limit", .integer fun f v => { f with pruneLimit := v }),
    ("analyse-ast", .truth fun f v => { f with analyseAst := v }),
    ("analyse-symbols", .truth fun f v => { f with analyseSymbols := v }),
    ("retain", .text fun f v => { f with retain := v }),
    ("watch", .truth fun f v => { f with watch := v }),
    ("metrics-addr", .text fun f v => { f with metricsAddr := v }),
    ("otlp-endpoint", .text fun f v => { f with otlpEndpoint := v }),
    ("demangle", .integer fun f v => { f with demangle := v }),
    ("build-id", .text fun f v => { f with buildId := v }),
    ("verbose", .truth fun f v => { f with verbose := v }),
    ("version", .truth fun f v => { f with version := v })]

def slot? (name : Text) : Option Slot := (slots.find? (·.1 == name)).map (·.2)

/-- A sorted list of names with one more name. -/
def insertName (name : Text) : List Text → List Text
  | [] => [name]
  | n :: rest =>
      if n == name then n :: rest
      else if Text.le name n then name :: n :: rest
      else n :: insertName name rest

def note (f : Flags) (name : Text) : Flags := { f with given := insertName name f.given }

def isGiven (f : Flags) (name : Text) : Bool := f.given.contains name

/-- The name and the value of a flag, cut at the first equals sign behind the
first byte of the name. -/
def splitValue : Text → Text × Option Text
  | [] => ([], none)
  | b :: rest =>
      let (name, value) := Text.cut 61 rest
      (b :: name, value)

def setValue (f : Flags) (name value : Text) : Slot → Except Error Flags
  | .truth _ => .ok f
  | .text set => .ok ((set f value).note name)
  | .integer set =>
      match Integer.parse value with
      | .ok n => .ok ((set f n).note name)
      | .error cause => .error (.badValue name value cause)

inductive Shape where
  /-- The first argument behind the flags. -/
  | plain
  /-- `--`. -/
  | stop
  /-- Dashes without a proper name. -/
  | broken
  | flag (body : Text)
deriving DecidableEq, Repr

def shapeOf : Text → Shape
  | 45 :: 45 :: [] => .stop
  | 45 :: 45 :: body => if body.head?.any (fun b => b == 45 || b == 61) then .broken else .flag body
  | 45 :: b :: body => if b == 61 then .broken else .flag (b :: body)
  | _ => .plain

/-- Reads flags until the first other argument. -/
def parseFrom (f : Flags) : List Text → Except Error Flags
  | [] => .ok { f with args := [] }
  | arg :: rest =>
      match shapeOf arg with
      | .plain => .ok { f with args := arg :: rest }
      | .stop => .ok { f with args := rest }
      | .broken => .error (.badForm arg)
      | .flag body =>
          let (name, value) := splitValue body
          match slot? name with
          | none =>
              if name == "help" || name == "h" then .error .help else .error (.unknown name)
          | some (.truth set) =>
              match Text.toBool? (value.getD "true") with
              | some b => parseFrom ((set f b).note name) rest
              | none => .error (.badTruth name (value.getD []))
          | some slot =>
              match value with
              | some value =>
                  match f.setValue name value slot with
                  | .ok f => parseFrom f rest
                  | .error e => .error e
              | none =>
                  match rest with
                  | [] => .error (.missingValue name)
                  | value :: others =>
                      match f.setValue name value slot with
                      | .ok f => parseFrom f others
                      | .error e => .error e

def parse (args : List Text) : Except Error Flags := parseFrom {} args

/-- Patterns with commas between them; blank ones are dropped. -/
def splitPatterns (t : Text) : List Text :=
  ((Text.splitAt 44 t).map Text.trim).filter fun p => !p.isEmpty

end Flags

end Splice

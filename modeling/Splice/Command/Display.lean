import Splice.Build.Basic
import Splice.Config.Paths
import Splice.Failure
import Splice.Terminal.Width
import Splice.Text.Quoted

/-!
# Messages for the terminal

How failures and finished builds are shown on a terminal.  Some pieces of a message
are emphasised; an emphasised piece shows every tab as four blanks, and if it has
several lines they are filled up to the same width.

A log line is a list of keys and values.  A value is quoted if a reader could not tell
where it ends.
-/

namespace Splice

namespace Terminal

/-- Lines with blanks behind them that make all as wide as the widest. -/
def fillLines (lines : List Text) : List Text :=
  let widest := (lines.map width).foldl max 0
  lines.map fun line => line ++ List.replicate (widest - width line) 32

/-- Line ends without the carriage return in front of them. -/
def plainLineEnds : Text → Text
  | 13 :: 10 :: rest => 10 :: plainLineEnds rest
  | b :: rest => b :: plainLineEnds rest
  | [] => []

/-- A piece of text as it looks when it is emphasised. -/
def emphasised (t : Text) : Text :=
  let shown := plainLineEnds (Text.replaceByte 9 (List.replicate 4 32) t)
  Text.join [Text.newline] (fillLines (Text.splitAt Text.newline shown))

end Terminal

open Terminal (emphasised)

/-- A diagnostic with its place and its caret line emphasised. -/
def Diagnostic.display (d : Diagnostic) : Text :=
  let lines := Text.splitAt Text.newline d.render
  Text.join [Text.newline] (lines.zipIdx.map fun (line, i) =>
    if i == 0 then line
    else if Text.startsWith line "  at " then emphasised line
    else if i + 1 == lines.length && Text.endsWith line "^" then emphasised line
    else line)

/-- A failure with the diagnostic that caused it, if there is one. -/
def Failure.display (f : Failure) : Text :=
  match f.firstCoded?, f.firstDiagnostic? with
  | some (h, _), some d =>
      emphasised ("error[" ++ h.code.name ++ "]: " ++ h.message) ++ [Text.newline] ++ d.display
  | none, some d => emphasised "error: " ++ d.display
  | some (h, cause), none => emphasised ("error[" ++ h.code.name ++ "]: ") ++ Failure.detail h cause
  | none, none => emphasised "error: " ++ f.text

/-- One line about a finished build; the program's path is shown relative to the
project. -/
def BuildResult.summary (r : BuildResult) (paths : ProjectPaths) : Text :=
  let out := (Path.relative? paths.root paths.output).getD paths.output
  let passes : Text :=
    if r.prunePasses == 0 then [] else ", " ++ Text.ofNat r.prunePasses ++ " prune passes"
  let mangled : Text :=
    if r.symbols.isEmpty then [] else ", " ++ Text.ofNat r.symbols.length ++ " mangled"
  emphasised ("built " ++ out ++ " (" ++ Text.ofNat r.namespaces.length ++ " namespaces, " ++
    Text.ofNat r.code.length ++ " bytes" ++ passes ++ mangled ++ ")")

namespace LogLine

/-- Whether a character keeps a value from standing without quotes. -/
def needsQuotes (g : Glyph) : Bool :=
  if g.point < 128 then g.point < 32 || g.point == 32 || g.point == 61 || g.point == 34
  else g.isBroken || g.point == Text.replacement || Text.isBlank g.point ||
    !Text.isPrintable g.point

def value (t : Text) : Text :=
  if t.isEmpty || t.glyphs.any needsQuotes then Text.quote t else t

def pair (key t : Text) : Text := key ++ "=" ++ value t

/-- The keys and values that a failure is logged under: a coded failure shows its
parts, any other its text. -/
def ofFailure (f : Failure) : List Text :=
  if f.isCoded then
    match f.firstCoded? with
    | some (h, cause) => (Failure.logFields h cause).map fun (k, v) => pair ("error." ++ k) v
    | none => []
  else [pair "error" f.text]

/-- A line that says what went wrong, without its time. -/
def error (message : Text) (f : Failure) : Text :=
  Text.join " " ("level=ERROR" :: pair "msg" message :: ofFailure f)

end LogLine

end Splice

import Splice.Project.Basic

/-!
# Reports about a project

What a project tells about itself: how it is doing, and how its last build went.
Reports are written as JSON.
-/

namespace Splice

inductive Report where
  | text (value : Text)
  | count (value : Nat)
  | list (items : List Report)
  | record (fields : List (Text × Report))
deriving Repr, Inhabited

namespace Report

/-- Characters that a page could take for markup, and the two line separators. -/
def isMarkup (point : Nat) : Bool :=
  point == 60 || point == 62 || point == 38 || point == 0x2028 || point == 0x2029

/-- A character inside a JSON string. -/
def escapeGlyph (g : Glyph) : Text :=
  if g.isBroken then "\\ufffd"
  else if g.point == 34 || g.point == 92 then 92 :: g.bytes
  else if g.point == 8 then "\\b"
  else if g.point == 9 then "\\t"
  else if g.point == 10 then "\\n"
  else if g.point == 12 then "\\f"
  else if g.point == 13 then "\\r"
  else if g.point < 32 || isMarkup g.point then "\\u" ++ Text.hex 4 g.point
  else g.bytes

def quote (t : Text) : Text := "\"" ++ t.glyphs.flatMap escapeGlyph ++ "\""

mutual

def render : Report → Text
  | text value => quote value
  | count value => Text.ofNat value
  | list items => "[" ++ Text.join "," (renderItems items) ++ "]"
  | record fields => "\x7b" ++ Text.join "," (renderFields fields) ++ "\x7d"

def renderItems : List Report → List Text
  | [] => []
  | r :: rest => render r :: renderItems rest

def renderFields : List (Text × Report) → List Text
  | [] => []
  | (key, r) :: rest => (quote key ++ ":" ++ render r) :: renderFields rest

end

end Report

structure Health where
  isUp : Bool
  build : Text
  symbolMap : Text
  watcher : Text
deriving DecidableEq, Repr, Inhabited

def Health.report (h : Health) : Report :=
  .record [
    ("status", .text (if h.isUp then "up" else "degraded")),
    ("components", .record [
      ("build", .text h.build), ("symbol_map", .text h.symbolMap), ("watcher", .text h.watcher)])]

/-- A build as it is reported; what is empty is left out. -/
def BuildUpdate.report (u : BuildUpdate) : Report :=
  let changed : List (Text × Report) :=
    if u.changed.isEmpty then [] else [("changed", .list (u.changed.map .text))]
  let id : List (Text × Report) := if u.buildId.isEmpty then [] else [("build_id", .text u.buildId)]
  let error : List (Text × Report) :=
    match u.failure with
    | none => []
    | some f => if f.text.isEmpty then [] else [("error", .text f.text)]
  let size : List (Text × Report) :=
    [("namespaces", .count u.namespaces), ("bytes", .count u.bytes)]
  .record (id ++ changed ++ size ++ error)

namespace Project

/-- The health of a project: a failed build or a missing store degrade it. -/
def health (p : Project) : Health :=
  let (buildUp, build) : Bool × Text :=
    match p.last with
    | none => (true, "pending")
    | some u =>
        match u.failure with
        | some f => (false, "failed: " ++ f.text)
        | none => (true, "ok (" ++ u.buildId ++ ")")
  let (mapUp, symbolMap) : Bool × Text :=
    if p.store.isSome then (true, "ok")
    else if p.config.build.mangle then (false, "missing but mangling is enabled")
    else (true, "disabled")
  { isUp := buildUp && mapUp
    build
    symbolMap
    watcher := if p.watcher.isSome then "ok" else "idle" }

end Project

end Splice

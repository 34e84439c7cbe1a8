import Splice.Project.Report
import Splice.Project.Request

/-!
# Answering requests about a project

A watched project can be asked for its health, its last build and its metrics.
Only reading requests are answered.  A path with needless elements is sent to the
path without them, except where a request connects.
-/

namespace Splice

structure Response where
  status : Nat
  /-- What is answered, as far as it is a report. -/
  report : Option Report := none
deriving Repr, Inhabited

namespace Response

def ok : Nat := 200

def temporaryRedirect : Nat := 307

def badRequest : Nat := 400

def notFound : Nat := 404

def methodNotAllowed : Nat := 405

def serviceUnavailable : Nat := 503

def contentType : Text := "application/json"

end Response

namespace Project

/-- What a project answers under a name, if it answers anything. -/
def answer? (p : Project) (name : Text) : Option Response :=
  if name == "metrics" then some { status := Response.ok }
  else if name == "health" then
    let health := p.health
    some {
      status := if health.isUp then Response.ok else Response.serviceUnavailable
      report := some health.report }
  else if name == "build" then
    match p.last with
    | none =>
        some {
          status := Response.notFound
          report := some (.record [("error", .text "no build yet")]) }
    | some update => some { status := Response.ok, report := some update.report }
  else none

def respond (p : Project) (r : Request) : Response :=
  match r.target with
  | .server => { status := Response.badRequest }
  | .path path =>
      if r.method != Request.connect && Request.cleanPath path != path then
        { status := Response.temporaryRedirect }
      else
        match (Request.nameIn? path).bind p.answer? with
        | none => { status := Response.notFound }
        | some response =>
            if r.isReading then response else { status := Response.methodNotAllowed }

end Project

end Splice

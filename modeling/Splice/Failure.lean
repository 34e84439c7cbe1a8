import Splice.Source.Diagnostic

/-!
# Failures

Everything that can go wrong ends up as a `Failure`.  A coded failure says which
kind of trouble it is, may have a cause and carries a context of keys and
values; a diagnostic points into a source; the rest is plain text.  The chain of
a failure is read from the outside in, the first part of a joined failure before
the second.
-/

namespace Splice

/-- The kinds of failure that callers tell apart. -/
inductive FailureCode where
  | notFound
  | validation
  | conflict
  | internal
  | notSupported
  | importFailed
  | unresolvedSymbol
  | other (name : Text)
deriving DecidableEq, Repr, Inhabited

namespace FailureCode

def name : FailureCode → Text
  | notFound => "NOT_FOUND"
  | validation => "VALIDATION_ERROR"
  | conflict => "CONFLICT"
  | internal => "INTERNAL_ERROR"
  | notSupported => "NOT_SUPPORTED"
  | importFailed => "IMPORT_FAILED"
  | unresolvedSymbol => "UNRESOLVED_SYMBOL"
  | other name => name

def ofName (t : Text) : FailureCode :=
  ([notFound, validation, conflict, internal, notSupported, importFailed,
    unresolvedSymbol].find? (·.name == t)).getD (other t)

end FailureCode

/-- What a coded failure says about itself.  The context is sorted by key and
has no key twice. -/
structure FailureHead where
  code : FailureCode
  message : Text
  context : List (Text × Text) := []
deriving DecidableEq, Repr, Inhabited

namespace FailureHead

/-- A sorted association list with one key set. -/
def putSorted (key value : Text) : List (Text × Text) → List (Text × Text)
  | [] => [(key, value)]
  | (k, v) :: rest =>
      if k == key then (key, value) :: rest
      else if Text.le key k then (key, value) :: (k, v) :: rest
      else (k, v) :: putSorted key value rest

def withContext (h : FailureHead) (key value : Text) : FailureHead :=
  { h with context := putSorted key value h.context }

/-- The context as it is written behind a message. -/
def contextText (h : FailureHead) : Text :=
  if h.context.isEmpty then []
  else " \x7b" ++ Text.join " " (h.context.map fun (k, v) => k ++ "=" ++ v) ++ "\x7d"

end FailureHead

/-- A failure and its causes. -/
inductive Failure where
  | coded (head : FailureHead)
  | caused (head : FailureHead) (cause : Failure)
  | source (diagnostic : Diagnostic)
  | plain (message : Text)
  /-- A failure whose text was settled when it was built around its cause. -/
  | labelled (text : Text) (cause : Failure)
  | joined (first second : Failure)
deriving DecidableEq, Repr, Inhabited

namespace Failure

/-- The text of a failure: `[CODE] message: cause` and the context for a coded
one. -/
def text : Failure → Text
  | coded h => "[" ++ h.code.name ++ "] " ++ h.message ++ h.contextText
  | caused h cause =>
      "[" ++ h.code.name ++ "] " ++ h.message ++ ": " ++ cause.text ++ h.contextText
  | source d => d.render
  | plain message => message
  | labelled t _ => t
  | joined a b => a.text ++ [Text.newline] ++ b.text

/-- The outermost coded failure of the chain, with its cause. -/
def firstCoded? : Failure → Option (FailureHead × Option Failure)
  | coded h => some (h, none)
  | caused h cause => some (h, some cause)
  | source _ => none
  | plain _ => none
  | labelled _ cause => cause.firstCoded?
  | joined a b => a.firstCoded?.or b.firstCoded?

/-- The outermost diagnostic of the chain. -/
def firstDiagnostic? : Failure → Option Diagnostic
  | coded _ => none
  | caused _ cause => cause.firstDiagnostic?
  | source d => some d
  | plain _ => none
  | labelled _ cause => cause.firstDiagnostic?
  | joined a b => a.firstDiagnostic?.or b.firstDiagnostic?

/-- Sets a key in the context of the outermost coded failure, if there is one. -/
def updateContext? (key value : Text) : Failure → Option Failure
  | coded h => some (coded (h.withContext key value))
  | caused h cause => some (caused (h.withContext key value) cause)
  | source _ => none
  | plain _ => none
  | labelled t cause => (cause.updateContext? key value).map (labelled t)
  | joined a b =>
      match a.updateContext? key value with
      | some a' => some (joined a' b)
      | none => (b.updateContext? key value).map (joined a)

/-- Adds a context entry; a chain without a coded failure becomes the cause of
an internal one. -/
def addContext (f : Failure) (key value : Text) : Failure :=
  match f.updateContext? key value with
  | some f' => f'
  | none => caused ⟨.internal, "wrapped error", [(key, value)]⟩ f

/-- The text of a coded failure without its code. -/
def detail (h : FailureHead) (cause : Option Failure) : Text :=
  match cause with
  | none => h.message ++ h.contextText
  | some c => h.message ++ ": " ++ c.text ++ h.contextText

def hasCode (f : Failure) (code : FailureCode) : Bool :=
  match f.firstCoded? with
  | some (h, _) => h.code == code
  | none => false

/-- Whether the failure itself, not only one of its causes, is coded. -/
def isCoded : Failure → Bool
  | coded _ => true
  | caused _ _ => true
  | _ => false

/-- The fields under which a coded failure is logged. -/
def logFields (h : FailureHead) (cause : Option Failure) : List (Text × Text) :=
  [(("code" : Text), h.code.name), ("message", h.message)] ++ h.context ++
    match cause with
    | none => []
    | some c => [("cause", c.text)]

/-- A failure with a text in front of it, settled now. -/
def label (f : Failure) (t : Text) : Failure := labelled (t ++ ": " ++ f.text) f

end Failure

end Splice

import Splice.Proofs.Build.Discovery
import Splice.Proofs.Build.LexicalScope

/-!
# The failures of a build

A build may report what is wrong with its sources: a diagnostic, a source that cannot be
loaded, a conflict of enum values, or a name that is not defined.  Anything else that
could go wrong would be a fault of the build itself: an internal failure, or a plain text
such as the one of a namespace that would have to move backwards.
-/

namespace Splice

/-- The diagnostics that are about sources: what reading and analysing them finds, and an
enum of another namespace that is used as a value, which linking finds. -/
inductive Diagnostic.Reported : Diagnostic → Prop
  | reading {n : NamespaceId} {p p' : Program} {d : Diagnostic}
      (h : Program.parseStatements n p = .error (.source d) p') : Diagnostic.Reported d
  | analysis {c : CheckContext} {around : List Block} {site : Site} {d : Diagnostic}
      (h : site.Fails c around d) : Diagnostic.Reported d
  | linking (unit : SourceUnit) (r : Reference) :
      Diagnostic.Reported
        ⟨"enum " ++ r.spelling ++ " cannot be used as a value", some unit, r.offset⟩

def FailureCode.isAnticipated : FailureCode → Bool
  | importFailed => true
  | conflict => true
  | unresolvedSymbol => true
  | _ => false

/-- The failures that sources are to blame for. -/
def Failure.Anticipated : Failure → Prop
  | source d => d.Reported
  | coded h => h.code.isAnticipated = true
  | caused h _ => h.code.isAnticipated = true
  | _ => False

namespace Failure

/-- More context does not change what a failure is. -/
theorem Anticipated.updateContext {e : Failure} (h : e.Anticipated) (key value : Text) :
    ((e.updateContext? key value).getD e).Anticipated := by
  cases e with
  | source d => exact h
  | coded head => exact h
  | caused head cause => exact h
  | plain message => cases h
  | labelled t cause => cases h
  | joined a b => cases h

def IsUnloaded (e : Failure) : Prop :=
  ∃ head cause, e = caused head cause ∧ head.code = .importFailed

theorem IsUnloaded.addContext {e : Failure} (h : e.IsUnloaded) (key value : Text) :
    (e.addContext key value).IsUnloaded := by
  obtain ⟨head, cause, rfl, hcode⟩ := h
  exact ⟨head.withContext key value, cause, rfl, hcode⟩

theorem IsUnloaded.anticipated {e : Failure} (h : e.IsUnloaded) : e.Anticipated := by
  obtain ⟨head, cause, rfl, hcode⟩ := h
  change head.code.isAnticipated = true
  rw [hcode]
  rfl

end Failure

namespace Program

variable {p p' : Program} {n : NamespaceId} {expected : Failure → Prop}

@[simp] theorem ends_mapFailure {α : Type} (f : Failure → Failure) (action : Linking α)
    {post : α → Program → Prop} :
    Ends (action.mapFailure f) p expected post ↔ Ends action p (fun e => expected (f e)) post := by
  unfold Ends Linking.mapFailure
  cases action p with
  | ok a t => rfl
  | error e t => rfl

theorem ends_openAt (loader : Loader) (location : Text) :
    Ends (openAt (some loader) location) p Failure.IsUnloaded fun _ _ => True := by
  simp only [openAt, ends_bind, ends_get]
  split
  · trivial
  · split
    · simp only [ends_throw]
      exact ⟨_, _, rfl, rfl⟩
    · simp only [ends_bind, ends_set, ends_pure]

theorem ends_openStd (loader : Loader) (stdPath : Text) :
    Ends (openStd loader stdPath) p Failure.IsUnloaded fun _ _ => True := by
  simp only [openStd]
  split
  · simp only [ends_bind, ends_get, ends_set, ends_pure]
  · simp only [ends_bind, ends_pure]
    exact ends_openAt loader stdPath

theorem ends_openImport (loader : Loader) (i : PendingImport) :
    Ends (openImport loader n i) p Failure.Anticipated fun _ _ => True := by
  simp only [openImport, ends_bind, ends_get, ends_mapFailure, ends_modify, ends_pure]
  refine ((ends_openAt loader i.location).expecting ?_).mono fun _ _ _ => trivial
  intro e he
  exact ((he.addContext _ _).addContext _ _).anticipated

theorem ends_parseStatements :
    Ends (parseStatements n) p Failure.Anticipated fun _ _ => True := by
  cases hrun : parseStatements n p with
  | ok ss p' =>
      unfold Ends
      rw [hrun]
      trivial
  | error e p' =>
      have hsource : Ends (parseStatements n) p (fun e => ∃ d, e = .source d)
          fun _ _ => True := by
        simp only [parseStatements, ends_bind, ends_get]
        split
        · exact ⟨_, rfl⟩
        · split
          · simp only [ends_bind, ends_set, ends_pure]
          · simp only [ends_bind, ends_set, ends_throw]
            exact ⟨_, rfl⟩
      obtain ⟨d, rfl⟩ := hsource.expected_of_eq_error hrun
      unfold Ends
      rw [hrun]
      exact .reading hrun

theorem ends_assignEnumValues :
    Ends assignEnumValues p Failure.Anticipated fun _ _ => True := by
  simp only [assignEnumValues, ends_bind, ends_get]
  split
  · trivial
  · split
    · trivial
    · simp only [ends_set]

theorem ends_mangleIfAsked (o : BuildOptions) (order : List NamespaceId) :
    Ends (mangleIfAsked o order) p expected fun _ _ => True := by
  unfold mangleIfAsked
  split
  · simp only [ends_bind, ends_get, ends_set, ends_pure]
  · trivial

end Program

end Splice

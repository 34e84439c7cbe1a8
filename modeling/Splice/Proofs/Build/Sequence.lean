import Splice.Proofs.Build.Order
import Splice.Proofs.Build.Results
import Splice.Proofs.Program.Identifiers

/-!
# The build order of a program

Whatever the imports of the files are, a discovery that succeeds parses exactly what
the standard library and the entry reach, each file once, and puts imports before what
imports them unless they lead back.  The result of a build lists the namespaces in
that order, under identifiers of their own.
-/

namespace Splice.Program

variable {p p₀ : Program} {d : Discovery} {readPattern : PatternReader}

theorem content_create {workingDir : Text} {patterns : List Text}
    (h : create workingDir patterns readPattern = .ok p₀) (m : NamespaceId) :
    (p₀.spaceAt m).content = ([], [], []) := by
  obtain ⟨globs, rfl⟩ := exists_create_eq h
  rfl

theorem size_create {workingDir : Text} {patterns : List Text}
    (h : create workingDir patterns readPattern = .ok p₀) : p₀.namespaces.size = 0 := by
  obtain ⟨globs, rfl⟩ := exists_create_eq h
  rfl

theorem identified_create {workingDir : Text} {patterns : List Text}
    (h : create workingDir patterns readPattern = .ok p₀) : p₀.Identified := by
  have hsize := size_create h
  constructor
  · intro n hn
    omega
  · intro n hn
    omega

/-- Discovery from a new program. -/
theorem surveys_of_discover {depth : Nat} {loader : Loader} {workingDir : Text}
    {cancelled : Bool} {stdPath entry : Text} {patterns : List Text}
    (hcreate : create workingDir patterns readPattern = .ok p₀)
    (hrun : discoverWithin depth loader cancelled stdPath entry p₀ = .ok d p) :
    Surveys loader stdPath entry p₀ d p ∧ Discovers p d := by
  obtain ⟨hpristine, huntargeted⟩ := pristine_create hcreate
  exact ⟨yields_discover_surveys depth loader cancelled stdPath entry hpristine huntargeted
    (content_create hcreate) d p hrun,
    yields_discover depth loader cancelled stdPath entry hpristine huntargeted d p hrun⟩

theorem Identified.nodup_ids (h : p.Identified) {order : List NamespaceId}
    (horder : ∀ n ∈ order, n < p.namespaces.size) (hnodup : order.Nodup) :
    (order.map fun n => (p.spaceAt n).id).Nodup := by
  refine List.Nodup.map_on ?_ hnodup
  intro n hn m hm
  exact h.distinct n (horder n hn) m (horder m hm)

/-- Discovery order: a successful discovery from a new program finds the namespaces of
the standard library and the entry and orders all that they reach; a build on the same
terms returns the namespaces in this order, each once. -/
theorem discovery_order (loader : Loader) (workingDir : Text) (cancelled : Bool)
    (stdPath entry : Text) (patterns : List Text)
    (hcreate : create workingDir patterns readPattern = .ok p₀)
    (hrun : discover loader cancelled stdPath entry p₀ = .ok d p) :
    (∃ std root, p.std = some std ∧ p.StandsFor (stdLocation stdPath) std ∧
      p.StandsFor entry root ∧ BuildOrder p d std root) ∧
    ∀ (o : BuildOptions) (r : BuildResult), o.stdPath = stdPath → o.retain = patterns →
      build loader workingDir cancelled o entry readPattern = .ok r →
        r.namespaces.map NamespaceCode.id = d.order.map (fun n => (p.spaceAt n).id) ∧
          (r.namespaces.map NamespaceCode.id).Nodup := by
  obtain ⟨hsurveys, hdiscovers⟩ := surveys_of_discover hcreate hrun
  refine ⟨hsurveys.sequence, ?_⟩
  rintro o r rfl rfl hbuild
  obtain ⟨q₀, e, q₁, q₂, hcreate', hrun', hassign, hshows⟩ := exists_shows_of_build hbuild
  rw [hcreate] at hcreate'
  cases hcreate'
  rw [hrun] at hrun'
  cases hrun'
  have hsame := yields_assignEnumValues _ q₂ hassign
  have hids : r.namespaces.map NamespaceCode.id = d.order.map fun n => (p.spaceAt n).id := by
    rw [hshows.namespaces]
    exact List.map_congr_left fun n _ => hsame.id n
  have hidentified := hsurveys.history.identified (identified_create hcreate)
  refine ⟨hids, ?_⟩
  rw [hids]
  exact hidentified.nodup_ids (fun n hn => hdiscovers.lt (hdiscovers.seen n hn)) hdiscovers.order

/-- A file that imports itself, and another one under two aliases; the two import each
other, and both import a third one. -/
def tangledSources : List (Text × Text) :=
  [("/s.wv", "let a = 1\n"),
    ("/m.wv", "import m from \"m.wv\"\nimport l from \"l.wv\"\nimport k from \"l.wv\"\n" ++
      "import r from \"r.wv\"\nlet x = r.b\n"),
    ("/l.wv", "import m from \"m.wv\"\nimport \"r.wv\"\n"),
    ("/r.wv", "let b = 1\n")]

set_option maxRecDepth 100000 in
theorem discovery_order_sample :
    ∃ p₀ d p, create "/" [] = .ok p₀ ∧
      discover (.ofSources tangledSources) false "/s.wv" "/m.wv" p₀ = .ok d p ∧
      (∃ std root, p.std = some std ∧ p.StandsFor "/s.wv" std ∧ p.StandsFor "/m.wv" root ∧
        BuildOrder p d std root) ∧
      ∃ r, build (.ofSources tangledSources) "/" false { stdPath := "/s.wv" } "/m.wv" = .ok r ∧
        r.namespaces.map NamespaceCode.id = d.order.map (fun n => (p.spaceAt n).id) ∧
        r.namespaces.map NamespaceCode.id = ["s", "r", "l", "m"] := by
  have hids : (build (.ofSources tangledSources) "/" false { stdPath := "/s.wv" }
      "/m.wv").toOption.map (fun r => r.namespaces.map NamespaceCode.id) =
        some (["s", "r", "l", "m"] : List Text) := by
    decide +kernel
  cases hbuild : build (.ofSources tangledSources) "/" false { stdPath := "/s.wv" } "/m.wv" with
  | error e =>
      rw [hbuild] at hids
      cases hids
  | ok r =>
      rw [hbuild] at hids
      obtain ⟨p₀, d, p, q, hcreate, hrun, -, -⟩ := exists_shows_of_build hbuild
      obtain ⟨hfound, hlisted⟩ := discovery_order (.ofSources tangledSources) "/" false "/s.wv"
        "/m.wv" [] hcreate hrun
      exact ⟨p₀, d, p, hcreate, hrun, hfound, r, rfl, (hlisted _ r rfl rfl hbuild).1,
        Option.some.inj hids⟩

end Splice.Program

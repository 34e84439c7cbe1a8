import Splice.Proofs.Build.Sequence
import Splice.Proofs.Build.Termination

/-!
# One namespace for a location

Where the normal form of every location that can be loaded is its own normal form,
namespaces and locations correspond: whatever has been done with a program, a location
that is open leads to its namespace, imports of one file share it, and so discovery
ends.  A location whose normal form is not its own is opened again each time: a slash
behind white space, or a dollar sign that is cleaned away.
-/

namespace Splice.Program

variable {p p' p₀ : Program} {loader : Loader} {location : Text} {readPattern : PatternReader}

theorem located_create {workingDir : Text} {patterns : List Text}
    (h : create workingDir patterns readPattern = .ok p₀) : p₀.Located := by
  have hsize := size_create h
  constructor
  · intro n hn
    omega
  · intro n hn
    omega

theorem workingDir_create {workingDir : Text} {patterns : List Text}
    (h : create workingDir patterns readPattern = .ok p₀) : p₀.workingDir = workingDir := by
  obtain ⟨globs, rfl⟩ := exists_create_eq h
  rfl

theorem confined_create {workingDir : Text} {patterns : List Text}
    (h : create workingDir patterns readPattern = .ok p₀) (hdir : Path.isAbsolute workingDir = true)
    (hstable : p₀.StableLocations loader) : p₀.Confined loader where
  located := located_create h
  sourced n hn := by
    have hsize := size_create h
    omega
  stable := hstable
  absolute := by
    rw [workingDir_create h]
    exact hdir

/-- It is enough that the sources themselves are found where they are. -/
theorem stableLocations_of_sources (hdir : Path.isAbsolute p.workingDir = true)
    (h : ∀ source ∈ loader.sources.map Prod.fst, p.normalLocation source = source) :
    p.StableLocations loader := by
  intro location text hload
  have hmem := mem_sources_of_load hload
  rw [clean_normalLocation hdir] at hmem
  exact h _ hmem

/-- Locations have one namespace in a program, and keep it whatever happens next. -/
structure SharesPlaces (loader : Loader) (p : Program) : Prop where
  unique : ∀ n < p.namespaces.size, ∀ m < p.namespaces.size,
    (p.spaceAt n).unit.location = (p.spaceAt m).unit.location → n = m
  reopened : ∀ location opened p', openAt (some loader) location p = .ok opened p' →
    ∀ q, History loader (fun _ => True) p' q →
      ∀ other, p.normalLocation other = p.normalLocation location →
        openAt (some loader) other q = .ok (opened.1, false) q ∧
          q.lookup? other = some opened.1
  imported : ∀ n i m p', openImport loader n i p = .ok m p' →
    ∀ q, History loader (fun _ => True) p' q →
      ∀ n' i', p.normalLocation i'.location = p.normalLocation i.location →
        openImport loader n' i' q = .ok m (q.bindImport n' i'.qualifier m)

theorem openImport_of_openAt {n m : NamespaceId} {i : PendingImport} {isNew : Bool}
    (h : openAt (some loader) i.location p = .ok (m, isNew) p') :
    openImport loader n i p = .ok m (p'.bindImport n i.qualifier m) := by
  change EStateM.bind (Linking.mapFailure _ (openAt (some loader) i.location)) _ p = _
  unfold EStateM.bind Linking.mapFailure
  rw [h]
  rfl

theorem Located.sharesPlaces (h : p.Located) (hstable : p.StableLocations loader) :
    p.SharesPlaces loader where
  unique n hn m hm := h.location_unique hn hm
  reopened location opened p' hopen q hlater other hother :=
    h.openAt_later hstable hopen hlater hother
  imported n i m p' hopen q hlater n' i' hother := by
    obtain ⟨opened, p₁, hopened, rfl, rfl⟩ := openImport_cases hopen
    have hbound : History loader (fun _ => True) p₁ (p₁.bindImport n i.qualifier opened.1) :=
      (samePlaces_bindImport p₁ n i.qualifier opened.1).history
    have hlater' := hbound.trans hlater
    exact openImport_of_openAt (h.openAt_later hstable hopened hlater' hother).1

/-- A location leads back to the namespace that was made for it exactly if its normal
form has no white space at its ends and starts with a slash or a dollar sign.  If all
that can be loaded is like that, then in every program that comes from a new one each
location has one namespace, and discovery ends: no visit reaches the bound. -/
theorem one_namespace_per_location (loader : Loader) (workingDir : Text)
    (patterns : List Text) (hcreate : create workingDir patterns readPattern = .ok p₀)
    (hdir : Path.isAbsolute workingDir = true) :
    (∀ p, History loader (fun _ => True) p₀ p →
      ∀ location n p', openAt (some loader) location p = .ok (n, true) p' →
        (openAt (some loader) location p' = .ok (n, false) p' ↔
          (p.normalLocation location).trim = p.normalLocation location ∧
            (Text.startsWith (p.normalLocation location) "$" = true ∨
              Path.isAbsolute (p.normalLocation location) = true))) ∧
    (p₀.StableLocations loader →
      (∀ p, History loader (fun _ => True) p₀ p → p.SharesPlaces loader) ∧
      ∀ (cancelled : Bool) (stdPath entry : Text)
        (beyond : NamespaceId → Discovery → Linking Discovery) (fuel : Nat),
        discoveryFuel loader ≤ fuel →
          discoverBy loader ((visitStep loader cancelled)^[fuel] beyond) stdPath entry p₀ =
            discover loader cancelled stdPath entry p₀) := by
  constructor
  · intro p hhistory location n p' hopen
    have hdir' : Path.isAbsolute p.workingDir = true := by
      rw [hhistory.keepsPlaces.workingDir, workingDir_create hcreate]
      exact hdir
    rw [openAt_again_iff hopen]
    exact normalLocation_eq_self_iff hdir' (clean_normalLocation hdir' location)
  · intro hstable
    constructor
    · intro p hhistory
      have hlocated := hhistory.located (located_create hcreate) hstable
      exact hlocated.sharesPlaces (hstable.congr hhistory.keepsPlaces.workingDir)
    · intro cancelled stdPath entry beyond fuel hfuel
      obtain ⟨hpristine, huntargeted⟩ := pristine_create hcreate
      exact discoverBy_iterate_eq cancelled stdPath entry beyond hfuel hpristine huntargeted
        (content_create hcreate) (confined_create hcreate hdir hstable)

set_option maxRecDepth 100000 in
/-- A namespace of a program whose files import each other is shared by the imports. -/
theorem one_namespace_per_location_sample :
    ∃ p₀ d p, create "/" [] = .ok p₀ ∧ Path.isAbsolute "/" = true ∧
      p₀.StableLocations (.ofSources tangledSources) ∧
      discover (.ofSources tangledSources) false "/s.wv" "/m.wv" p₀ = .ok d p ∧
      p.SharesPlaces (.ofSources tangledSources) ∧
      discoverBy (.ofSources tangledSources)
        ((visitStep (.ofSources tangledSources) false)^[100] fun _ d => pure d)
        "/s.wv" "/m.wv" p₀ = .ok d p := by
  have hstable : Program.StableLocations { workingDir := "/" } (.ofSources tangledSources) :=
    stableLocations_of_sources (by decide) (by decide +kernel)
  have hruns : succeeds (discover (.ofSources tangledSources) false "/s.wv" "/m.wv"
      { workingDir := "/" }) = true := by decide +kernel
  have hcreate := create_nil "/" Glob.reader
  obtain ⟨-, hshared⟩ :=
    one_namespace_per_location (.ofSources tangledSources) "/" [] hcreate (by decide)
  obtain ⟨hplaces, hends⟩ := hshared hstable
  cases hrun : discover (.ofSources tangledSources) false "/s.wv" "/m.wv"
      { workingDir := "/" } with
  | error e p =>
      rw [hrun] at hruns
      cases hruns
  | ok d p =>
      have hsurveys := (surveys_of_discover hcreate hrun).1
      refine ⟨_, d, p, hcreate, by decide, hstable, hrun, hplaces p ?_, ?_⟩
      · exact hsurveys.history.mono fun _ _ => trivial
      · rw [← hrun]
        exact hends false "/s.wv" "/m.wv" _ 100 (by decide)

/-- The location loses its last slash but not the white space before it, so that it is
never found again. -/
theorem second_namespace_for_location :
    ∃ p₁ p₂, openAt (some (.ofSources [("/b ", "let a = 1\n")])) "/b /" { workingDir := "/" } =
        .ok (0, true) p₁ ∧
      openAt (some (.ofSources [("/b ", "let a = 1\n")])) "/b /" p₁ = .ok (1, true) p₂ ∧
      (p₂.spaceAt 0).unit.location = (p₂.spaceAt 1).unit.location := by
  refine ⟨_, _, rfl, rfl, ?_⟩
  decide +kernel

end Splice.Program

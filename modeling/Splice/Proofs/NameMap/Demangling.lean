import Splice.Proofs.Build.Weight
import Splice.Proofs.NameMap.History

/-!
# Numbers led back to names

The names of a build with short names have pairwise different numbers, so nothing stands in
the way of recording them.  The store then leads each number back to the name that it was
given for, and knows no other number of the build.
-/

namespace Splice

namespace NameStore

variable {s s' : NameStore} {id build : Text} {code : Int64} {es : List NameEntry}

/-- A store leads the numbers of a table back to their names, and no other numbers. -/
structure Demangles (s : NameStore) (build : Text) (table : List MangleEntry) : Prop where
  lookup_eq : ∀ e ∈ table,
    s.lookup build e.code = .ok ⟨e.code, e.space, e.name, e.kind.name, e.uses⟩
  not_found : ∀ code, code ∉ table.map (·.code) →
    ∃ f, s.lookup build code = .error f ∧ f.hasCode .notFound = true
  /-- The whole table is listed, by ascending number. -/
  entries_eq : ∃ es, s.entries build = .ok es ∧ es.Perm (table.map .ofMangled) ∧
    es.Pairwise fun a b => a.code < b.code

/-- A store that can be changed records whatever its tables take. -/
theorem save_eq_ok (hopen : s.isOpen = true) (hwritable : s.readOnly = false)
    (hid : id.isAllBlank = false) (hnodup : (es.map (·.code)).Nodup) (entry : Text)
    (time : Instant) :
    s.save id entry time es = .ok { s with map := s.map.recorded id entry time es } := by
  rw [save_eq hopen hwritable, NameMap.save_eq_ok hid hnodup]
  rfl

/-- A store answers from the names that a build owns. -/
theorem demangles_of_namesOf (hopen : s.isOpen = true) (hbuild : build ≠ [])
    {table : List MangleEntry} (hnames : s.map.namesOf build = table.map .ofMangled)
    (hnodup : (table.map (·.code)).Nodup) : s.Demangles build table := by
  have hcodes : (s.map.namesOf build).map (·.code) = table.map (·.code) := by
    rw [hnames, List.map_map]
    rfl
  have hnodup' : ((s.map.namesOf build).map (·.code)).Nodup := by rwa [hcodes]
  refine ⟨?_, ?_, ?_⟩
  · intro e he
    have hmem : NameEntry.ofMangled e ∈ s.map.namesOf build := by
      rw [hnames]
      exact List.mem_map_of_mem he
    have hfind : s.map.find? build e.code = some (.ofMangled e) :=
      NameMap.find?_eq_some hnodup' hmem
    rw [lookup_eq hopen hbuild, hfind]
    rfl
  · intro code hcode
    have hfind : s.map.find? build code = none := by rwa [NameMap.find?_eq_none_iff, hcodes]
    rw [lookup_eq hopen hbuild, hfind]
    exact ⟨_, rfl, rfl⟩
  · refine ⟨s.map.entries build, ?_, ?_, NameMap.pairwise_entries hnodup'⟩
    · rw [entries, request_eq hopen]
      rfl
    · rw [← hnames]
      exact s.map.perm_entries build

end NameStore

namespace Program

variable {loader : Loader} {workingDir entry : Text} {cancelled : Bool} {o : BuildOptions}
  {r : BuildResult} {readPattern : PatternReader}

/-- No two names of a build share a number. -/
theorem nodup_codes_of_build (h : build loader workingDir cancelled o entry readPattern = .ok r)
    (hmangle : o.mangle = true) (hbound : r.symbols.length ≤ 2 ^ 64) :
    (r.symbols.map (·.code)).Nodup := by
  obtain ⟨p₀, symbols, trees, p, p', hcreate, hlink, hemit⟩ := exists_run_of_build h
  obtain ⟨-, -, hsymbols⟩ := yields_emitPhases o symbols trees r p' hemit
  obtain ⟨rfl, d, p₁, p₂, p₃, p₄, hrun⟩ := exists_linkRun hlink
  rw [hsymbols, (hrun.mangled hmangle).1] at hbound ⊢
  exact nodup_codes hbound

/-- The names of a build can be recorded under any identifier that is not blank, also one
that was used before, and each of the numbers then leads back to its name.  (There are fewer
names than numbers; with more of them, numbers would be given again.) -/
theorem recorded_build_demangles (h : build loader workingDir cancelled o entry readPattern = .ok r)
    (hmangle : o.mangle = true) (hbound : r.symbols.length ≤ 2 ^ 64) {s : NameStore}
    (hopen : s.isOpen = true) (hwritable : s.readOnly = false) {id : Text}
    (hid : id.isAllBlank = false) (source : Text) (time : Instant) :
    ∃ s', s.save id source time (r.symbols.map .ofMangled) = .ok s' ∧
      s'.Demangles id r.symbols := by
  have hnodup := nodup_codes_of_build h hmangle hbound
  have hentries : ((r.symbols.map NameEntry.ofMangled).map (·.code)).Nodup := by
    rwa [List.map_map]
  refine ⟨_, NameStore.save_eq_ok hopen hwritable hid hentries source time, ?_⟩
  refine NameStore.demangles_of_namesOf ?_ ?_ (NameMap.namesOf_recorded ..) hnodup
  · exact hopen
  · rintro rfl
    cases hid

def usedStore : NameStore where
  path := "names.db"
  place := some "/names.db"
  map :=
    { builds := [⟨"b1", "/m.wv", ⟨0⟩, 1⟩, ⟨"b2", "/m.wv", ⟨1⟩, 1⟩]
      names := [("b1", ⟨7, "m", "old", "namespaced", 2⟩), ("b2", ⟨0, [], "K", "property", 1⟩)] }

set_option maxRecDepth 100000 in
theorem recorded_build_demangles_sample :
    ∃ r s',
      build (.ofSources weightSources) "/" false { mangle := true, stdPath := "/s.wv" } "/m.wv" =
        .ok r ∧
      r.symbols = weightTable ∧
      usedStore.save "b1" "/m.wv" ⟨2⟩ (r.symbols.map .ofMangled) = .ok s' ∧
      s'.Demangles "b1" weightTable := by
  have hruns : (weighedBuild? (.ofSources weightSources) { stdPath := "/s.wv" } "/m.wv"
      { workingDir := "/" }).map BuildResult.symbols = some weightTable := by
    decide +kernel
  obtain ⟨r, hrun, htable⟩ := Option.map_eq_some_iff.mp hruns
  have hbuild := build_of_weighedBuild? "/" (create_nil "/" Glob.reader) hrun
  have hbound : r.symbols.length ≤ 2 ^ 64 := by
    have hlength : weightTable.length = 4 := rfl
    rw [htable]
    omega
  have hopen : usedStore.isOpen = true := rfl
  have hid : Text.isAllBlank "b1" = false := rfl
  obtain ⟨s', hsave, hdemangles⟩ :=
    recorded_build_demangles hbuild rfl hbound hopen rfl hid "/m.wv" ⟨2⟩
  exact ⟨r, s', hbuild, htable, hsave, htable ▸ hdemangles⟩

end Program

end Splice

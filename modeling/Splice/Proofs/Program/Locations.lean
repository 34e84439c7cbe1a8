import Splice.Proofs.Path
import Splice.Proofs.Program.Files
import Splice.StandardLibrary

/-!
# Namespaces and their locations

A location is looked up by its normal form, but a namespace is registered under the
normal form of its unit's location, which is a normal form already.  So a location
finds its namespace again exactly if its normal form is its own normal form.  Where
that holds of every location that can be loaded, no two namespaces ever stand for one
location, however the program came about (`Program.History.located`).
-/

namespace Splice.Program

variable {p p' q q' : Program} {n m : NamespaceId} {loader : Loader}
  {units : SourceUnit → Prop} {location key : Text}

theorem normalLocation_congr (h : p'.workingDir = p.workingDir) (location : Text) :
    p'.normalLocation location = p.normalLocation location := by
  unfold normalLocation
  rw [h]

theorem normalLocation_register (p : Program) (unit : SourceUnit) (location : Text) :
    (p.register unit).2.normalLocation location = p.normalLocation location :=
  rfl

theorem key_register (p : Program) (unit : SourceUnit) :
    ((p.register unit).2.spaceAt p.namespaces.size).key = p.normalLocation unit.location := by
  rw [spaceAt_register, if_pos rfl]

/-- Normal forms are clean, and relative only if they come from a dollar sign. -/
theorem exists_normalLocation_eq (hp : Path.isAbsolute p.workingDir = true) (location : Text) :
    ∃ c, p.normalLocation location = Path.clean c := by
  unfold normalLocation
  dsimp only
  split
  · exact ⟨_, rfl⟩
  · obtain ⟨c, hc, -⟩ := Path.exists_absolute_eq hp location.trim
    exact ⟨c, hc⟩

theorem clean_normalLocation (hp : Path.isAbsolute p.workingDir = true) (location : Text) :
    Path.clean (p.normalLocation location) = p.normalLocation location := by
  obtain ⟨c, hc⟩ := exists_normalLocation_eq hp location
  rw [hc, Path.clean_clean]

/-- A clean location is its own normal form exactly if it has no white space at its
ends and starts with a slash or a dollar sign. -/
theorem normalLocation_eq_self_iff (hp : Path.isAbsolute p.workingDir = true)
    (hclean : Path.clean location = location) :
    p.normalLocation location = location ↔
      location.trim = location ∧
        (Text.startsWith location "$" = true ∨ Path.isAbsolute location = true) := by
  have hshorter : location.trim ≠ [] → Path.clean location.trim = location →
      location.trim = location := by
    intro hne heq
    apply Text.eq_trim_of_length_le
    have hle := Path.length_clean_le hne
    rw [heq] at hle
    exact hle
  unfold normalLocation
  dsimp only
  constructor
  · intro heq
    by_cases hdollar : Text.startsWith location.trim "$" = true
    · rw [if_pos hdollar] at heq
      have hne : location.trim ≠ [] := by
        intro hnil
        rw [hnil] at hdollar
        exact absurd hdollar (by decide)
      have htrim := hshorter hne heq
      rw [htrim] at hdollar
      exact ⟨htrim, Or.inl hdollar⟩
    · rw [if_neg hdollar] at heq
      -- The normal form is absolute, and trimming does not take a slash from its front.
      obtain ⟨c, hc, hcabs⟩ := Path.exists_absolute_eq hp location.trim
      have habs : Path.isAbsolute location = true := by
        rw [← heq, hc, Path.isAbsolute_clean]
        exact hcabs
      have htrimAbs : Path.isAbsolute location.trim = true := by
        cases hlocation : location with
        | nil =>
            rw [hlocation] at habs
            exact absurd habs (by decide)
        | cons b rest =>
            have hb : b = Path.slash := by
              rw [hlocation] at habs
              simpa [Path.isAbsolute] using habs
            rw [hb, Path.isAbsolute, Text.head?_trim (by decide) (by decide)]
            decide
      rw [Path.absolute, if_pos htrimAbs] at heq
      have hne : location.trim ≠ [] := by
        intro hnil
        rw [hnil] at htrimAbs
        exact absurd htrimAbs (by decide)
      exact ⟨hshorter hne heq, Or.inr habs⟩
  · rintro ⟨htrim, hstart⟩
    rw [htrim]
    split
    · exact hclean
    · next hdollar =>
        have habs := hstart.resolve_left hdollar
        rw [Path.absolute, if_pos habs]
        exact hclean

theorem findKey?_eq_none_iff :
    p.findKey? key = none ↔ ∀ n < p.namespaces.size, (p.spaceAt n).key ≠ key := by
  simp [findKey?, List.find?_eq_none]

theorem key_of_findKey? (h : p.findKey? key = some n) : (p.spaceAt n).key = key := by
  rw [findKey?] at h
  have hkey := List.find?_some h
  simpa using hkey

theorem lt_of_findKey? (h : p.findKey? key = some n) : n < p.namespaces.size := by
  rw [findKey?] at h
  have hmem := List.mem_of_find?_eq_some h
  rwa [List.mem_reverse, List.mem_range] at hmem

/-- Opening finds a namespace or registers one for what was loaded. -/
theorem openAt_cases {opened : NamespaceId × Bool}
    (h : openAt (some loader) location p = .ok opened p') :
    (p.findKey? (p.normalLocation location) = some opened.1 ∧ opened.2 = false ∧ p' = p) ∨
      (p.findKey? (p.normalLocation location) = none ∧ ∃ text,
        loader.load (p.normalLocation location) = .ok text ∧
          opened = (p.namespaces.size, true) ∧
          p' = (p.register ⟨text, p.normalLocation location⟩).2) := by
  have hyields : Yields (openAt (some loader) location) p fun opened p' =>
      (p.findKey? (p.normalLocation location) = some opened.1 ∧ opened.2 = false ∧ p' = p) ∨
        (p.findKey? (p.normalLocation location) = none ∧ ∃ text,
          loader.load (p.normalLocation location) = .ok text ∧
            opened = (p.namespaces.size, true) ∧
            p' = (p.register ⟨text, p.normalLocation location⟩).2) := by
    simp only [openAt, yields_bind, yields_get]
    split
    · next n hn =>
        simp only [yields_pure]
        exact Or.inl ⟨hn, trivial, trivial⟩
    · next hnone =>
        split
        · simp
        · next text hload =>
            simp only [yields_bind, yields_set, yields_pure]
            exact Or.inr ⟨hnone, text, hload, rfl, rfl⟩
  exact hyields opened p' h

theorem openAt_of_findKey? (h : p.findKey? (p.normalLocation location) = some n) :
    openAt (some loader) location p = .ok (n, false) p := by
  simp only [openAt, get_bind_eq, h]
  rfl

/-- A namespace that was just made for a location is found by it again exactly if the
normal form is its own normal form. -/
theorem openAt_again_iff
    (h : openAt (some loader) location p = .ok (n, true) p') :
    openAt (some loader) location p' = .ok (n, false) p' ↔
      p.normalLocation (p.normalLocation location) = p.normalLocation location := by
  obtain ⟨-, hfalse, -⟩ | ⟨hnone, text, -, heq, rfl⟩ := openAt_cases h
  · cases hfalse
  · cases heq
    have hsize := size_register p ⟨text, p.normalLocation location⟩
    have hnormal := normalLocation_register p ⟨text, p.normalLocation location⟩
    have hkey := key_register p ⟨text, p.normalLocation location⟩
    constructor
    · intro hagain
      obtain ⟨hfind, -⟩ | ⟨-, text', -, heq, -⟩ := openAt_cases hagain
      · rw [hnormal] at hfind
        rw [← hkey]
        exact key_of_findKey? hfind
      · simp at heq
    · intro hfixed
      apply openAt_of_findKey?
      rw [hnormal]
      cases hfind : (p.register ⟨text, p.normalLocation location⟩).2.findKey?
          (p.normalLocation location) with
      | none =>
          have hne := findKey?_eq_none_iff.mp hfind p.namespaces.size (by omega)
          exact absurd (hkey.trans hfixed) hne
      | some k =>
          have hk := key_of_findKey? hfind
          rw [spaceAt_register] at hk
          split at hk
          · next heq => rw [heq]
          · next hne =>
              have hlt : k < p.namespaces.size := by
                have hmem := lt_of_findKey? hfind
                rw [hsize] at hmem
                exact Nat.lt_of_le_of_ne (Nat.le_of_lt_succ hmem) hne
              exact absurd hk (findKey?_eq_none_iff.mp hnone k hlt)

/-! ## How programs come about -/

structure SamePlaces (p p' : Program) : Prop where
  workingDir : p'.workingDir = p.workingDir
  size : p'.namespaces.size = p.namespaces.size
  id : ∀ m, (p'.spaceAt m).id = (p.spaceAt m).id
  unit : ∀ m, (p'.spaceAt m).unit = (p.spaceAt m).unit
  key : ∀ m, (p'.spaceAt m).key = (p.spaceAt m).key

theorem Fills.samePlaces (h : Fills n p p') : p.SamePlaces p' where
  workingDir := h.workingDir
  size := h.size
  id m := Namespace.eq_of_place Namespace.id (fun _ => rfl) (h.place m)
  unit m := Namespace.eq_of_place Namespace.unit (fun _ => rfl) (h.place m)
  key m := Namespace.eq_of_place Namespace.key (fun _ => rfl) (h.place m)

theorem SameFiles.samePlaces (h : p.SameFiles p') : p.SamePlaces p' :=
  (h.fills (n := 0)).samePlaces

theorem samePlaces_modifySpace (p : Program) (n : NamespaceId) {f : Namespace → Namespace}
    (hid : ∀ ns, (f ns).id = ns.id) (hunit : ∀ ns, (f ns).unit = ns.unit)
    (hkey : ∀ ns, (f ns).key = ns.key) : p.SamePlaces (p.modifySpace n f) where
  workingDir := rfl
  size := size_modifySpace f
  id m := spaceAt_modifySpace_same p n m f Namespace.id hid
  unit m := spaceAt_modifySpace_same p n m f Namespace.unit hunit
  key m := spaceAt_modifySpace_same p n m f Namespace.key hkey

/-- One program comes from another by opening locations and some units, with any work
in between that opens nothing. -/
inductive History (loader : Loader) (units : SourceUnit → Prop) : Program → Program → Prop
  | refl (p : Program) : History loader units p p
  | openAt {p q q' : Program} {location : Text} {opened : NamespaceId × Bool} :
      History loader units p q → Program.openAt (some loader) location q = .ok opened q' →
        History loader units p q'
  | openUnit {p q : Program} {unit : SourceUnit} :
      History loader units p q → units unit → History loader units p (q.openUnit unit).2
  | work {p q q' : Program} :
      History loader units p q → q.SamePlaces q' → History loader units p q'

theorem History.trans (h : History loader units p q) (h' : History loader units q q') :
    History loader units p q' := by
  induction h' with
  | refl => exact h
  | openAt _ hopen ih => exact ih.openAt hopen
  | openUnit _ hunit ih => exact ih.openUnit hunit
  | work _ hsame ih => exact ih.work hsame

theorem History.mono {units' : SourceUnit → Prop} (h : History loader units p q)
    (himp : ∀ unit, units unit → units' unit) : History loader units' p q := by
  induction h with
  | refl => exact History.refl _
  | openAt _ hopen ih => exact ih.openAt hopen
  | openUnit _ hunit ih => exact ih.openUnit (himp _ hunit)
  | work _ hsame ih => exact ih.work hsame

theorem SamePlaces.history (h : p.SamePlaces p') : History loader units p p' :=
  (History.refl p).work h

structure KeepsPlaces (p p' : Program) : Prop where
  workingDir : p'.workingDir = p.workingDir
  size_le : p.namespaces.size ≤ p'.namespaces.size
  id : ∀ n < p.namespaces.size, (p'.spaceAt n).id = (p.spaceAt n).id
  unit : ∀ n < p.namespaces.size, (p'.spaceAt n).unit = (p.spaceAt n).unit
  key : ∀ n < p.namespaces.size, (p'.spaceAt n).key = (p.spaceAt n).key

theorem KeepsPlaces.refl (p : Program) : p.KeepsPlaces p :=
  ⟨rfl, le_rfl, fun _ _ => rfl, fun _ _ => rfl, fun _ _ => rfl⟩

theorem KeepsPlaces.trans {p'' : Program} (h : p.KeepsPlaces p') (h' : p'.KeepsPlaces p'') :
    p.KeepsPlaces p'' where
  workingDir := h'.workingDir.trans h.workingDir
  size_le := h.size_le.trans h'.size_le
  id n hn := (h'.id n (hn.trans_le h.size_le)).trans (h.id n hn)
  unit n hn := (h'.unit n (hn.trans_le h.size_le)).trans (h.unit n hn)
  key n hn := (h'.key n (hn.trans_le h.size_le)).trans (h.key n hn)

theorem keepsPlaces_register (p : Program) (unit : SourceUnit) :
    p.KeepsPlaces (p.register unit).2 where
  workingDir := rfl
  size_le := by
    rw [size_register]
    exact Nat.le_succ _
  id n hn := by rw [spaceAt_register, if_neg hn.ne]
  unit n hn := by rw [spaceAt_register, if_neg hn.ne]
  key n hn := by rw [spaceAt_register, if_neg hn.ne]

theorem keepsPlaces_openAt {opened : NamespaceId × Bool}
    (h : openAt (some loader) location p = .ok opened p') : p.KeepsPlaces p' := by
  obtain ⟨-, -, rfl⟩ | ⟨-, text, -, -, rfl⟩ := openAt_cases h
  · exact KeepsPlaces.refl _
  · exact keepsPlaces_register p _

theorem keepsPlaces_openUnit (p : Program) (unit : SourceUnit) :
    p.KeepsPlaces (p.openUnit unit).2 := by
  unfold openUnit
  split
  · exact KeepsPlaces.refl p
  · exact keepsPlaces_register p unit

theorem History.keepsPlaces (h : History loader units p q) : p.KeepsPlaces q := by
  induction h with
  | refl => exact KeepsPlaces.refl _
  | openAt _ hopen ih => exact ih.trans (keepsPlaces_openAt hopen)
  | openUnit _ _ ih => exact ih.trans (keepsPlaces_openUnit _ _)
  | work _ hsame ih =>
      exact ih.trans ⟨hsame.workingDir, hsame.size.ge, fun n _ => hsame.id n,
        fun n _ => hsame.unit n, fun n _ => hsame.key n⟩

/-- Every location that can be loaded has a normal form that is its own normal form. -/
def StableLocations (p : Program) (loader : Loader) : Prop :=
  ∀ location text, loader.load (p.normalLocation location) = .ok text →
    p.normalLocation (p.normalLocation location) = p.normalLocation location

/-- Namespaces are registered under the normal forms of their locations, which differ. -/
structure Located (p : Program) : Prop where
  key : ∀ n < p.namespaces.size,
    (p.spaceAt n).key = p.normalLocation (p.spaceAt n).unit.location
  distinct : ∀ n < p.namespaces.size, ∀ m < p.namespaces.size,
    (p.spaceAt n).key = (p.spaceAt m).key → n = m

theorem Located.location_unique (h : p.Located) (hn : n < p.namespaces.size)
    (hm : m < p.namespaces.size)
    (hlocation : (p.spaceAt n).unit.location = (p.spaceAt m).unit.location) : n = m := by
  apply h.distinct n hn m hm
  rw [h.key n hn, h.key m hm, hlocation]

theorem Located.findKey?_eq (h : p.Located) (hn : n < p.namespaces.size)
    (hkey : (p.spaceAt n).key = key) : p.findKey? key = some n := by
  cases hfind : p.findKey? key with
  | none => exact absurd hkey (findKey?_eq_none_iff.mp hfind n hn)
  | some m =>
      rw [h.distinct m (lt_of_findKey? hfind) n hn ((key_of_findKey? hfind).trans hkey.symm)]

theorem Located.register (h : p.Located) {unit : SourceUnit}
    (hnew : p.findKey? (p.normalLocation unit.location) = none) :
    (p.register unit).2.Located := by
  have hnormal := normalLocation_register p unit
  have hne := findKey?_eq_none_iff.mp hnew
  constructor
  · intro n hn
    rw [size_register] at hn
    rw [hnormal, spaceAt_register]
    split
    · rfl
    · next hlast => exact h.key n (Nat.lt_of_le_of_ne (Nat.le_of_lt_succ hn) hlast)
  · intro n hn m hm hkey
    rw [size_register] at hn hm
    rw [spaceAt_register, spaceAt_register] at hkey
    by_cases hnlast : n = p.namespaces.size
    · by_cases hmlast : m = p.namespaces.size
      · rw [hnlast, hmlast]
      · rw [if_pos hnlast, if_neg hmlast] at hkey
        exact absurd hkey.symm (hne m (by omega))
    · by_cases hmlast : m = p.namespaces.size
      · rw [if_neg hnlast, if_pos hmlast] at hkey
        exact absurd hkey (hne n (by omega))
      · rw [if_neg hnlast, if_neg hmlast] at hkey
        exact h.distinct n (by omega) m (by omega) hkey

theorem Located.samePlaces (h : p.Located) (hsame : p.SamePlaces p') : p'.Located where
  key n hn := by
    rw [hsame.size] at hn
    rw [hsame.key, hsame.unit, normalLocation_congr hsame.workingDir]
    exact h.key n hn
  distinct n hn m hm hkey := by
    rw [hsame.size] at hn hm
    rw [hsame.key, hsame.key] at hkey
    exact h.distinct n hn m hm hkey

theorem Located.openUnit (h : p.Located) (unit : SourceUnit) : (p.openUnit unit).2.Located := by
  unfold Program.openUnit
  split
  · exact h
  · next hnone => exact h.register hnone

theorem Located.opened (h : p.Located) (hstable : p.StableLocations loader)
    {opened : NamespaceId × Bool} (hopen : openAt (some loader) location p = .ok opened p') :
    p'.Located ∧ opened.1 < p'.namespaces.size ∧
      (p'.spaceAt opened.1).key = p.normalLocation location := by
  obtain ⟨hfind, -, rfl⟩ | ⟨hnone, text, hload, rfl, rfl⟩ := openAt_cases hopen
  · exact ⟨h, lt_of_findKey? hfind, key_of_findKey? hfind⟩
  · have hfixed := hstable location text hload
    refine ⟨h.register ?_, ?_, ?_⟩
    · rw [hfixed]
      exact hnone
    · rw [size_register]
      exact Nat.lt_succ_self _
    · exact (key_register p _).trans hfixed

theorem StableLocations.congr (h : p.StableLocations loader) (hdir : p'.workingDir = p.workingDir) :
    p'.StableLocations loader := by
  intro location text hload
  rw [normalLocation_congr hdir] at hload
  rw [normalLocation_congr hdir, normalLocation_congr hdir]
  exact h location text hload

theorem History.located (h : History loader units p q) (hp : p.Located)
    (hstable : p.StableLocations loader) : q.Located := by
  induction h with
  | refl => exact hp
  | openAt hbefore hopen ih =>
      exact (ih.opened (hstable.congr hbefore.keepsPlaces.workingDir) hopen).1
  | openUnit _ _ ih => exact ih.openUnit _
  | work _ hsame ih => exact ih.samePlaces hsame

/-- Once a location is open, every location with the same normal form leads to its
namespace, at any later time. -/
theorem Located.openAt_later (h : p.Located) (hstable : p.StableLocations loader)
    {opened : NamespaceId × Bool} (hopen : openAt (some loader) location p = .ok opened p')
    (hlater : History loader units p' q) {other : Text}
    (hother : p.normalLocation other = p.normalLocation location) :
    openAt (some loader) other q = .ok (opened.1, false) q ∧ q.lookup? other = some opened.1 := by
  obtain ⟨hlocated, hlt, hkey⟩ := h.opened hstable hopen
  have hfirst := keepsPlaces_openAt hopen
  have hkeeps := hlater.keepsPlaces
  have hq := hlater.located hlocated (hstable.congr hfirst.workingDir)
  have hnormal := normalLocation_congr (hkeeps.workingDir.trans hfirst.workingDir) other
  have hfind : q.findKey? (q.normalLocation other) = some opened.1 := by
    apply hq.findKey?_eq (hlt.trans_le hkeeps.size_le)
    rw [hkeeps.key _ hlt, hkey, hnormal, hother]
  exact ⟨openAt_of_findKey? hfind, hfind⟩

def Sourced (p : Program) (loader : Loader) : Prop :=
  ∀ n < p.namespaces.size, (p.spaceAt n).key ∈
    p.normalLocation StandardLibrary.location :: loader.sources.map Prod.fst

theorem Located.size_le (h : p.Located) (hsourced : p.Sourced loader) :
    p.namespaces.size ≤ loader.sources.length + 1 := by
  have hnodup : ((List.range p.namespaces.size).map fun n => (p.spaceAt n).key).Nodup := by
    refine List.Nodup.map_on ?_ List.nodup_range
    intro n hn m hm
    exact h.distinct n (List.mem_range.mp hn) m (List.mem_range.mp hm)
  have hsubset : ((List.range p.namespaces.size).map fun n => (p.spaceAt n).key) ⊆
      p.normalLocation StandardLibrary.location :: loader.sources.map Prod.fst := by
    intro key hkey
    obtain ⟨n, hn, rfl⟩ := List.mem_map.mp hkey
    exact hsourced n (List.mem_range.mp hn)
  have hle := (hnodup.subperm hsubset).length_le
  simpa using hle

theorem mem_sources_of_load {text : Text} (h : loader.load location = .ok text) :
    Path.clean location ∈ loader.sources.map Prod.fst := by
  rw [Loader.load] at h
  split at h
  · next name source hfind =>
      have hname := List.find?_some hfind
      rw [beq_iff_eq] at hname
      rw [← hname]
      exact List.mem_map_of_mem (List.mem_of_find?_eq_some hfind)
  · cases h

theorem Sourced.register (h : p.Sourced loader) {unit : SourceUnit}
    (hunit : p.normalLocation unit.location ∈
      p.normalLocation StandardLibrary.location :: loader.sources.map Prod.fst) :
    (p.register unit).2.Sourced loader := by
  intro n hn
  rw [normalLocation_register, spaceAt_register]
  split
  · exact hunit
  · next hne =>
      rw [size_register] at hn
      exact h n (Nat.lt_of_le_of_ne (Nat.le_of_lt_succ hn) hne)

theorem History.sourced (h : History loader (· = StandardLibrary.unit) p q)
    (hp : p.Sourced loader) (hstable : p.StableLocations loader)
    (hdir : Path.isAbsolute p.workingDir = true) : q.Sourced loader := by
  induction h with
  | refl => exact hp
  | openAt hbefore hopen ih =>
      have hkeeps := hbefore.keepsPlaces
      obtain ⟨-, -, rfl⟩ | ⟨-, text, hload, -, rfl⟩ := openAt_cases hopen
      · exact ih
      · apply ih.register
        have hfixed := hstable.congr hkeeps.workingDir _ text hload
        have hmem := mem_sources_of_load hload
        rw [clean_normalLocation (by rw [hkeeps.workingDir]; exact hdir)] at hmem
        rw [hfixed]
        exact List.mem_cons_of_mem _ hmem
  | openUnit _ hunit ih =>
      rw [hunit]
      unfold Program.openUnit
      split
      · exact ih
      · exact ih.register List.mem_cons_self
  | work _ hsame ih =>
      intro n hn
      rw [hsame.size] at hn
      rw [hsame.key, normalLocation_congr hsame.workingDir]
      exact ih n hn

end Splice.Program

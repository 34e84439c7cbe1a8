import Splice.Proofs.Build.Order

/-!
# Discovery ends

A visit calls itself for the imports of a namespace that was not seen before.  Where
every namespace stands for a source of its own, there are at most as many of them as
sources, and one more for the built-in library; so visits are never nested deeper than
`discoveryFuel` says, and what would happen there does not matter.
-/

namespace Splice.Program

variable {p p' q : Program} {n : NamespaceId} {d d' : Discovery} {loader : Loader}

/-- One level of a visit, with what is done for the imports. -/
def visitStep (loader : Loader) (cancelled : Bool)
    (deeper : NamespaceId → Discovery → Linking Discovery) (n : NamespaceId) (d : Discovery) :
    Linking Discovery := do
  if d.isSeen n then return d
  if cancelled then throw (.plain "context canceled")
  let tree ← parse n
  let (pending, p) := (← get).drainImports n
  set p
  let d ← pending.foldlM
    (fun d i => do
      let target ← openImport loader n i
      deeper target d)
    { d with trees := d.trees ++ [tree] }
  let id := ((← get).spaceAt n).id
  (bindReferences n).mapFailure fun e => e.addContext "namespace" id
  advance n .importsResolved
  return { d with order := d.order ++ [n] }

def discoverBy (loader : Loader) (visitor : NamespaceId → Discovery → Linking Discovery)
    (stdPath entry : Text) : Linking Discovery := do
  let std ← openStd loader stdPath
  modify fun p => { p with std := some std }
  let d ← visitor std {}
  let (root, _) ← openAt (some loader) entry
  visitor root d

theorem visit_succ (loader : Loader) (cancelled : Bool) (fuel : Nat) :
    visit loader cancelled (fuel + 1) =
      visitStep loader cancelled (visit loader cancelled fuel) := by
  funext n d
  rfl

theorem discover_eq (loader : Loader) (cancelled : Bool) (stdPath entry : Text) :
    discover loader cancelled stdPath entry =
      discoverBy loader (visit loader cancelled (discoveryFuel loader)) stdPath entry :=
  rfl

/-- Every namespace stands for a source of its own, and those that are opened later will. -/
structure Confined (p : Program) (loader : Loader) : Prop where
  located : p.Located
  sourced : p.Sourced loader
  stable : p.StableLocations loader
  absolute : Path.isAbsolute p.workingDir = true

theorem Confined.history (h : p.Confined loader)
    (hhistory : History loader (· = StandardLibrary.unit) p q) : q.Confined loader where
  located := hhistory.located h.located h.stable
  sourced := hhistory.sourced h.sourced h.stable h.absolute
  stable := h.stable.congr hhistory.keepsPlaces.workingDir
  absolute := by
    rw [hhistory.keepsPlaces.workingDir]
    exact h.absolute

theorem Discovers.length_le (h : Discovers p d) : d.trees.length ≤ p.namespaces.size := by
  have hsubset : d.trees.map Tree.owner ⊆ List.range p.namespaces.size := by
    intro n hn
    exact List.mem_range.mpr (h.lt hn)
  have hle := (h.owners.subperm hsubset).length_le
  simpa using hle

/-- A visit that goes on to imports has seen one more namespace. -/
theorem Visits.length_lt {t : Tree} {before : List PendingImport}
    (h : Visits loader t before d p d' p') (hd : Discovers p d)
    (hseen : t.owner ∉ d.trees.map Tree.owner) : d.trees.length < d'.trees.length := by
  have hnodup : (t.owner :: d.trees.map Tree.owner).Nodup := hd.owners.cons hseen
  have hsubset : t.owner :: d.trees.map Tree.owner ⊆ d'.trees.map Tree.owner :=
    List.cons_subset.mpr ⟨h.visited, h.seen⟩
  have hle := (hnodup.subperm hsubset).length_le
  simpa using hle

/-- As long as the fuel covers the namespaces that were not seen, a visit never gets
past it. -/
theorem iterate_visitStep (cancelled : Bool)
    (beyond : NamespaceId → Discovery → Linking Discovery) {fuel : Nat}
    (h : Approaches p d n) (hconfined : p.Confined loader)
    (hfuel : loader.sources.length + 1 < d.trees.length + fuel) :
    (visitStep loader cancelled)^[fuel] beyond n d p = visit loader cancelled fuel n d p := by
  induction fuel generalizing p n d with
  | zero =>
      have hseen := h.discovers.length_le
      have hspaces := hconfined.located.size_le hconfined.sourced
      omega
  | succ fuel ih =>
      rw [Function.iterate_succ_apply', visit_succ]
      unfold visitStep
      by_cases hseen : d.isSeen n = true
      · rw [if_pos hseen, if_pos hseen]
      rw [if_neg hseen, if_neg hseen]
      by_cases hcancelled : cancelled = true
      · rw [if_pos hcancelled, if_pos hcancelled]
        rfl
      rw [if_neg hcancelled, if_neg hcancelled]
      rw [isSeen_iff] at hseen
      apply Yields.bind_congr
      refine (h.start loader hseen).mono ?_
      rintro t p₁ ⟨rfl, hqualifiers, hstart⟩
      apply Yields.bind_congr
      rw [yields_get]
      apply Yields.bind_congr
      rw [yields_set]
      apply bind_congr_left
      refine Yields.foldlM_congr (fun before d' p' => Visits loader t before d p d' p') ?_ hstart
      intro before i after hsplit d₂ p₂ h₂
      have hnew := not_mem_of_nodup_split hqualifiers hsplit
      have hlength := h₂.length_lt h.discovers hseen
      constructor
      · apply Yields.bind_congr
        intro m p₃ hopen
        have h₃ := h₂.approaches h hseen hnew hopen
        have hhistory := h₂.history.trans (History.openImport hopen)
        exact ih h₃ (hconfined.history hhistory) (by omega)
      · simp only [yields_bind]
        intro m p₃ hopen
        have h₃ := h₂.approaches h hseen hnew hopen
        refine ((yields_visit loader cancelled fuel h₃.discovers h₃.lt).and
          (yields_visit_tours loader cancelled fuel h₃)).mono ?_
        rintro d₄ p₄ ⟨hexplores, htour⟩
        exact h₂.step h hseen hnew hopen hexplores htour

theorem lt_add_discoveryFuel (loader : Loader) (d : Discovery) :
    loader.sources.length + 1 < d.trees.length + discoveryFuel loader := by
  unfold discoveryFuel
  nlinarith

/-- However deep visits may be nested beyond the bound, and whatever happens there,
discovery has the same outcome. -/
theorem discoverBy_iterate_eq (cancelled : Bool) (stdPath entry : Text)
    (beyond : NamespaceId → Discovery → Linking Discovery) {fuel : Nat}
    (hfuel : discoveryFuel loader ≤ fuel) (hp : p.Pristine)
    (huntargeted : ∀ n, p.Untargeted n) (hblank : ∀ m, (p.spaceAt m).content = ([], [], []))
    (hconfined : p.Confined loader) :
    discoverBy loader ((visitStep loader cancelled)^[fuel] beyond) stdPath entry p =
      discover loader cancelled stdPath entry p := by
  obtain ⟨k, rfl⟩ := Nat.exists_eq_add_of_le hfuel
  rw [Function.iterate_add_apply, discover_eq]
  generalize (visitStep loader cancelled)^[k] beyond = beyond
  unfold discoverBy
  apply Yields.bind_congr
  intro std p₁ hopen
  apply Yields.bind_congr
  rw [yields_modify]
  have hstart := approaches_std hp huntargeted hblank hopen
  have hset : History loader (· = StandardLibrary.unit) p { p₁ with std := some std } :=
    (openStd_spec hopen).1.work ⟨rfl, rfl, fun _ => rfl, fun _ => rfl, fun _ => rfl⟩
  have hconfined₁ := hconfined.history hset
  have hsame : (visitStep loader cancelled)^[discoveryFuel loader] beyond std {} _ = _ :=
    iterate_visitStep cancelled beyond hstart hconfined₁ (lt_add_discoveryFuel loader {})
  rw [bind_congr_left hsame]
  apply Yields.bind_congr
  refine ((yields_visit loader cancelled _ hstart.discovers hstart.lt).and
    (yields_visit_tours loader cancelled _ hstart)).mono ?_
  rintro d₂ p₂ ⟨hexplores, htour⟩
  apply Yields.bind_congr
  intro opened p₃ hentry
  have hnext := htour.approaches_entry hexplores.discovers hentry
  have hhistory := htour.history.openAt hentry
  exact iterate_visitStep cancelled beyond hnext (hconfined₁.history hhistory)
    (lt_add_discoveryFuel loader d₂)

end Splice.Program

import Splice.Build.Discovery
import Splice.Proofs.Program.Locations
import Splice.Proofs.Tree.Binding

/-!
# What discovery finds

Discovery keeps an invariant between any two steps (`Program.Discovers`): the trees
found so far are one for each namespace seen, and a namespace that has its place in
the build order has given each of its references a symbol in the namespace that its
alias leads to.  A namespace takes its place only after it was seen, and its imports
are set only before, so the invariant survives the visits in between.
-/

namespace Splice.Program

variable {p p' : Program} {n m : NamespaceId} {d d' : Discovery}

def importTarget? (p : Program) (n : NamespaceId) (qualifier : Text) : Option NamespaceId :=
  if qualifier.isEmpty then p.std else (p.spaceAt n).import? qualifier

theorem yields_importTarget (qualifier : Text) :
    Yields (importTarget n qualifier) p fun m p' =>
      p' = p ∧ p.importTarget? n qualifier = some m := by
  simp only [importTarget, importTarget?, yields_bind, yields_get]
  split
  · split
    · next h => simp [h]
    · simp
  · split
    · next h => simp [h]
    · simp

theorem Pristine.lt_of_importTarget? (hp : p.Pristine) {qualifier : Text}
    (h : p.importTarget? n qualifier = some m) : m < p.namespaces.size := by
  rw [importTarget?] at h
  split at h
  · exact hp.std_lt m h
  · rw [Namespace.import?, Option.map_eq_some_iff] at h
    obtain ⟨i, hi, rfl⟩ := h
    exact hp.import_lt n i (List.mem_of_find?_eq_some hi)

theorem importTarget?_congr (hstd : p'.std = p.std)
    (himports : (p'.spaceAt n).imports = (p.spaceAt n).imports) (qualifier : Text) :
    p'.importTarget? n qualifier = p.importTarget? n qualifier := by
  rw [importTarget?, importTarget?, hstd, Namespace.import?, Namespace.import?, himports]

/-- A symbol that a reference of a namespace was given belongs to its name in the
namespace that its alias leads to. -/
def Targeted (p : Program) (n : NamespaceId) : Prop :=
  ∀ r ∈ (p.spaceAt n).references, ∀ s, (p.reference r).target = some s →
    ∃ m, p.importTarget? n (p.reference r).qualifier = some m ∧
      s ∈ p.symbolsOf m (p.reference r).name

theorem Untargeted.targeted (h : p.Untargeted n) : p.Targeted n := by
  intro r hr s hs
  rw [h r hr] at hs
  cases hs

/-- Growing keeps a namespace targeted as long as its own references and imports stay. -/
theorem Targeted.mono (h : p.Targeted n) (hp : p.Pristine) (hgrows : p.Grows p')
    (hstd : p'.std = p.std)
    (hreferences : (p'.spaceAt n).references = (p.spaceAt n).references)
    (himports : (p'.spaceAt n).imports = (p.spaceAt n).imports)
    (htargets : ∀ r ∈ (p.spaceAt n).references,
      (p'.reference r).target = (p.reference r).target) : p'.Targeted n := by
  intro r hr s hs
  rw [hreferences] at hr
  rw [htargets r hr] at hs
  obtain ⟨hqualifier, hname⟩ := hgrows.named r (hp.reference_lt n r hr)
  obtain ⟨m, hm, hmem⟩ := h r hr s hs
  refine ⟨m, ?_, ?_⟩
  · rw [hqualifier, importTarget?_congr hstd himports]
    exact hm
  · rw [hname]
    exact hgrows.symbols m _ hmem

theorem Works.targeted (h : Works n p p') (hm : m ≠ n) (hp : p.Pristine)
    (ht : p.Targeted m) : p'.Targeted m :=
  ht.mono hp h.grows h.std (h.references m hm) (h.imports m hm) (h.targets m hm)

def retarget (p : Program) (r : ReferenceId) (s : SymbolId) : Program :=
  { p with references := p.references.modify r fun ref => { ref with target := some s } }

theorem reference_retarget (p : Program) (r q : ReferenceId) (s : SymbolId) :
    (p.retarget r s).reference q =
      if r = q ∧ q < p.references.size then { p.reference q with target := some s }
      else p.reference q :=
  reference_modify p r q _

theorem reference_retarget_same {α : Type} (p : Program) (r q : ReferenceId) (s : SymbolId)
    (part : Reference → α) (h : ∀ ref target, part { ref with target } = part ref) :
    part ((p.retarget r s).reference q) = part (p.reference q) := by
  rw [reference_retarget]
  split
  · exact h _ _
  · rfl

theorem works_retarget {r : ReferenceId} (hp : p.Pristine)
    (hr : r ∈ (p.spaceAt n).references) (s : SymbolId) : Works n p (p.retarget r s) := by
  have hsize : (p.retarget r s).references.size = p.references.size := by
    simp [retarget]
  have hsame : SameSymbols p (p.retarget r s) :=
    ⟨rfl, rfl, rfl, rfl, le_rfl, fun _ _ => rfl, fun _ => rfl⟩
  constructor
  · refine hsame.pristine hp hp.id_ne (fun m q hq => ?_) hp.reference_owner (fun q => ?_)
      hp.import_lt hp.std_lt hp.root hp.ledger
    · rw [hsize]
      exact hp.reference_lt m q hq
    · rw [reference_retarget_same p r q s Reference.resolution fun _ _ => rfl]
      exact hp.unresolved q
  · exact hsame.grows (fun _ => List.Subset.refl _) hsize.ge fun q _ =>
      ⟨reference_retarget_same p r q s Reference.qualifier fun _ _ => rfl,
        reference_retarget_same p r q s Reference.name fun _ _ => rfl⟩
  · rfl
  · exact fun _ _ => rfl
  · exact fun _ _ => rfl
  · intro m hm q hq
    rw [reference_retarget, if_neg]
    rintro ⟨rfl, -⟩
    exact hm (hp.reference_owner m n r hq hr)

structure Retargets (n : NamespaceId) (p p' : Program) : Prop extends Works n p p' where
  ownReferences : (p'.spaceAt n).references = (p.spaceAt n).references
  ownImports : (p'.spaceAt n).imports = (p.spaceAt n).imports
  targeted : p'.Targeted n

theorem Retargets.retarget {p₁ : Program} {r : ReferenceId} (h : Retargets n p p₁)
    (hr : r ∈ (p₁.spaceAt n).references)
    (hm : p₁.importTarget? n (p₁.reference r).qualifier = some m) :
    Retargets n p
      ((p₁.addSymbol m (p₁.reference r).name).2.retarget r
        (p₁.addSymbol m (p₁.reference r).name).1) := by
  have hadd := works_addSymbol (k := n) h.pristine m (p₁.reference r).name
  have hpart := fun {α : Type} (part : Namespace → α)
      (hgroups : ∀ ns groups, part { ns with groups } = part ns) =>
    spaceAt_addSymbol_same p₁ m n (p₁.reference r).name part hgroups
  have hreferences := hpart Namespace.references fun _ _ => rfl
  have himports := hpart Namespace.imports fun _ _ => rfl
  have htargeted := h.targeted.mono h.pristine hadd.grows hadd.std hreferences himports
    fun _ _ => rfl
  have hr' : r ∈ ((p₁.addSymbol m (p₁.reference r).name).2.spaceAt n).references := by
    rw [hreferences]
    exact hr
  constructor
  · exact (h.toWorks.trans hadd).trans (works_retarget hadd.pristine hr' _)
  · exact hreferences.trans h.ownReferences
  · exact himports.trans h.ownImports
  · intro q hq s hs
    rw [reference_retarget_same _ r q _ Reference.qualifier fun _ _ => rfl,
      reference_retarget_same _ r q _ Reference.name fun _ _ => rfl]
    rw [reference_retarget] at hs
    split at hs
    · next hrq =>
        obtain rfl : r = q := hrq.1
        cases hs
        refine ⟨m, ?_, mem_symbolsOf_addSymbol (h.pristine.lt_of_importTarget? hm) _⟩
        exact (importTarget?_congr hadd.std himports _).trans hm
    · exact htargeted q hq s hs

theorem yields_bindReferences (hp : p.Pristine) (hn : p.Untargeted n) :
    Yields (bindReferences n) p fun _ p' => Retargets n p p' := by
  simp only [bindReferences, yields_bind, yields_get, yields_pure]
  refine Yields.forIn_list (fun _ p' => Retargets n p p') ?_ ?_
  · intro before r after hsplit p₁ h₁
    have hr : r ∈ (p₁.spaceAt n).references := by
      rw [h₁.ownReferences, hsplit]
      simp
    simp only [yields_bind, yields_get]
    split
    · simp only [yields_bind, yields_get]
      refine (yields_importTarget _).mono ?_
      rintro m p₂ ⟨rfl, htarget⟩
      split
      · simp only [yields_bind, yields_set, yields_pure, true_and]
        exact h₁.retarget hr htarget
      · simpa only [yields_pure, true_and] using h₁
    · simpa only [yields_pure, true_and] using h₁
  · exact ⟨Works.refl hp, rfl, rfl, hn.targeted⟩

theorem adds_register (hp : p.Pristine) (unit : SourceUnit) : Adds n p (p.register unit).2 := by
  refine (works_register hp unit).adds ?_ fun _ => rfl
  rw [spaceAt_register]
  split
  · next hn => rw [hn, spaceAt_of_size_le le_rfl]
  · rfl

theorem yields_openAt (n : NamespaceId) (loader : Loader) (location : Text)
    (hp : p.Pristine) :
    Yields (openAt (some loader) location) p fun opened p' =>
      p.Adds n p' ∧ opened.1 < p'.namespaces.size := by
  simp only [openAt, yields_bind, yields_get]
  split
  · next m hm =>
      simp only [yields_pure]
      exact ⟨Adds.refl hp, lt_of_findKey? hm⟩
  · split
    · simp
    · simp only [yields_bind, yields_set, yields_pure]
      refine ⟨adds_register hp _, ?_⟩
      rw [size_register]
      exact Nat.lt_succ_self _

theorem yields_mapFailure {α : Type} {f : Failure → Failure} {action : Linking α}
    {post : α → Program → Prop} (h : Yields action p post) :
    Yields (action.mapFailure f) p post := by
  intro a p' hrun
  rw [Linking.mapFailure] at hrun
  cases haction : action p with
  | ok b t =>
      rw [haction] at hrun
      cases hrun
      exact h a p' haction
  | error e t =>
      rw [haction] at hrun
      cases hrun

theorem mem_bindImport {qualifier : Text} {i : Text × NamespaceId}
    (h : i ∈ ((p.bindImport n qualifier m).spaceAt n).imports) :
    i ∈ (p.spaceAt n).imports ∨ i.2 = m := by
  rw [bindImport, spaceAt_modifySpace] at h
  split at h
  · dsimp only at h
    split at h
    · obtain ⟨j, hj, rfl⟩ := List.mem_map.mp h
      split
      · exact Or.inr rfl
      · exact Or.inl hj
    · rcases List.mem_append.mp h with hold | hnew
      · exact Or.inl hold
      · rw [List.mem_singleton.mp hnew]
        exact Or.inr rfl
  · exact Or.inl h

theorem adds_bindImport (hp : p.Pristine) (hm : m < p.namespaces.size) (qualifier : Text) :
    Adds n p (p.bindImport n qualifier m) := by
  have hpart : ∀ {α : Type} (part : Namespace → α)
      (_ : ∀ ns imports, part { ns with imports } = part ns) (k : NamespaceId),
      part ((p.bindImport n qualifier m).spaceAt k) = part (p.spaceAt k) := by
    intro α part h k
    exact spaceAt_modifySpace_same _ n k _ part fun ns => h ns _
  have hid := hpart Namespace.id fun _ _ => rfl
  have hreferences := hpart Namespace.references fun _ _ => rfl
  have hsize : (p.bindImport n qualifier m).namespaces.size = p.namespaces.size :=
    size_modifySpace _
  have hother : ∀ k ≠ n, ((p.bindImport n qualifier m).spaceAt k).imports =
      (p.spaceAt k).imports := by
    intro k hk
    rw [bindImport, spaceAt_modifySpace, if_neg (fun h => hk h.1.symm)]
  have hsame : SameSymbols p (p.bindImport n qualifier m) := {
    symbols := rfl
    properties := rfl
    retainedNames := rfl
    retainGlobs := rfl
    spaces_le := hsize.ge
    id := fun k _ => hid k
    groups := hpart Namespace.groups fun _ _ => rfl }
  refine Works.adds ?_ (hreferences n) fun _ => rfl
  constructor
  · apply hsame.pristine hp
    · intro k hk
      rw [hsize] at hk
      rw [hid]
      exact hp.id_ne k hk
    · intro k r hr
      rw [hreferences] at hr
      exact hp.reference_lt k r hr
    · intro k k' r hr hr'
      rw [hreferences] at hr hr'
      exact hp.reference_owner k k' r hr hr'
    · exact hp.unresolved
    · intro k i hi
      rw [hsize]
      by_cases hk : k = n
      · rw [hk] at hi
        rcases mem_bindImport hi with hold | hnew
        · exact hp.import_lt n i hold
        · rw [hnew]
          exact hm
      · rw [hother k hk] at hi
        exact hp.import_lt k i hi
    · intro k hk
      rw [hsize]
      exact hp.std_lt k hk
    · intro k
      rw [hpart Namespace.root fun _ _ => rfl]
      exact hp.root k
    · exact hp.ledger
  · refine hsame.grows (fun k => ?_) le_rfl fun _ _ => ⟨rfl, rfl⟩
    rw [hreferences]
    exact List.Subset.refl _
  · rfl
  · exact fun k _ => hreferences k
  · exact hother
  · exact fun _ _ _ _ => rfl

theorem yields_openImport (loader : Loader) (i : PendingImport) (hp : p.Pristine) :
    Yields (openImport loader n i) p fun m p' => p.Adds n p' ∧ m < p'.namespaces.size := by
  simp only [openImport, yields_bind, yields_get]
  refine (yields_mapFailure (yields_openAt n loader i.location hp)).mono ?_
  rintro ⟨m, isNew⟩ p₁ ⟨hadds, hm⟩
  simp only [yields_modify, yields_pure]
  have hbind := adds_bindImport (n := n) hadds.pristine hm i.qualifier
  exact ⟨hadds.trans hbind, hm.trans_le hbind.grows.spaces_le⟩

/-! ## The invariant of discovery -/

/-- What holds between any two steps of discovery. -/
structure Discovers (p : Program) (d : Discovery) : Prop where
  pristine : p.Pristine
  found : ∀ t ∈ d.trees, Found p t
  owners : (d.trees.map Tree.owner).Nodup
  order : d.order.Nodup
  seen : ∀ n ∈ d.order, n ∈ d.trees.map Tree.owner
  targeted : ∀ n ∈ d.order, p.Targeted n
  untargeted : ∀ n, n ∉ d.order → p.Untargeted n

theorem isSeen_iff (d : Discovery) (n : NamespaceId) :
    d.isSeen n = true ↔ n ∈ d.trees.map Tree.owner := by
  simp [Discovery.isSeen]

theorem Discovers.lt (h : Discovers p d) (hn : n ∈ d.trees.map Tree.owner) :
    n < p.namespaces.size := by
  obtain ⟨t, ht, rfl⟩ := List.mem_map.mp hn
  exact (h.found t ht).lt

theorem Discovers.size_not_mem (h : Discovers p d) : p.namespaces.size ∉ d.order := by
  intro hmem
  exact lt_irrefl _ (h.lt (h.seen _ hmem))

/-- Reading a namespace that has no place in the order yet keeps the invariant. -/
theorem Discovers.adds (h : Discovers p d) (hn : n ∉ d.order) (hadds : Adds n p p') :
    Discovers p' d where
  pristine := hadds.pristine
  found t ht := (h.found t ht).mono hadds.grows
  owners := h.owners
  order := h.order
  seen := h.seen
  targeted m hm := by
    have hne : m ≠ n := fun heq => hn (heq ▸ hm)
    exact hadds.toWorks.targeted hne h.pristine (h.targeted m hm)
  untargeted m hm := by
    by_cases heq : m = n
    · rw [heq]
      exact hadds.untargeted (h.untargeted n hn)
    · exact hadds.toWorks.untargeted heq (h.untargeted m hm)

theorem Discovers.addTree (h : Discovers p d) {t : Tree} (ht : Found p t)
    (hnew : t.owner ∉ d.trees.map Tree.owner) :
    Discovers p { d with trees := d.trees ++ [t] } where
  pristine := h.pristine
  found u hu := by
    rcases List.mem_append.mp hu with hold | hlast
    · exact h.found u hold
    · rw [List.mem_singleton.mp hlast]
      exact ht
  owners := by
    rw [List.map_append]
    refine List.Nodup.append h.owners (List.nodup_singleton _) ?_
    rw [List.disjoint_right]
    intro m hm
    rw [List.mem_singleton.mp hm]
    exact hnew
  order := h.order
  seen n hn := by
    rw [List.map_append]
    exact List.mem_append_left _ (h.seen n hn)
  targeted := h.targeted
  untargeted := h.untargeted

/-- A seen namespace takes its place in the order when its references are bound. -/
theorem Discovers.place (h : Discovers p d) (hseen : n ∈ d.trees.map Tree.owner)
    (hn : n ∉ d.order) (hw : Retargets n p p') :
    Discovers p' { d with order := d.order ++ [n] } where
  pristine := hw.pristine
  found t ht := (h.found t ht).mono hw.grows
  owners := h.owners
  order := by
    refine List.Nodup.append h.order (List.nodup_singleton _) ?_
    rw [List.disjoint_right]
    intro m hm
    rw [List.mem_singleton.mp hm]
    exact hn
  seen m hm := by
    rcases List.mem_append.mp hm with hold | hlast
    · exact h.seen m hold
    · rw [List.mem_singleton.mp hlast]
      exact hseen
  targeted m hm := by
    rcases List.mem_append.mp hm with hold | hlast
    · have hne : m ≠ n := fun heq => hn (heq ▸ hold)
      exact hw.toWorks.targeted hne h.pristine (h.targeted m hold)
    · rw [List.mem_singleton.mp hlast]
      exact hw.targeted
  untargeted m hm := by
    rw [List.mem_append, List.mem_singleton, not_or] at hm
    exact hw.toWorks.untargeted hm.2 (h.untargeted m hm.1)

/-- What a part of discovery leads to: what was seen stays seen, and only namespaces
that were not seen take new places in the order. -/
structure Explores (d : Discovery) (p' : Program) (d' : Discovery) : Prop where
  discovers : Discovers p' d'
  seen : ∀ n ∈ d.trees.map Tree.owner, n ∈ d'.trees.map Tree.owner
  placed : ∀ n ∈ d'.order, n ∈ d.order ∨ n ∉ d.trees.map Tree.owner

theorem Explores.refl (h : Discovers p d) : Explores d p d where
  discovers := h
  seen _ hn := hn
  placed _ hn := Or.inl hn

theorem Explores.trans {d'' : Discovery} {p'' : Program} (h : Explores d p' d')
    (h' : Explores d' p'' d'') : Explores d p'' d'' where
  discovers := h'.discovers
  seen n hn := h'.seen n (h.seen n hn)
  placed n hn := by
    rcases h'.placed n hn with hold | hnew
    · exact h.placed n hold
    · exact Or.inr fun hseen => hnew (h.seen n hseen)

theorem Explores.not_placed (h : Explores d p' d') (hseen : n ∈ d.trees.map Tree.owner)
    (hn : n ∉ d.order) : n ∉ d'.order := by
  intro hmem
  rcases h.placed n hmem with hold | hnew
  · exact hn hold
  · exact hnew hseen

theorem Explores.adds (h : Explores d p d') (hn : n ∉ d'.order) (hadds : Adds n p p') :
    Explores d p' d' where
  discovers := h.discovers.adds hn hadds
  seen := h.seen
  placed := h.placed

theorem Retargets.adds {p'' : Program} (h : Retargets n p p') (hsame : SameNames p' p'') :
    Retargets n p p'' where
  toWorks := h.toWorks.trans (hsame.works h.pristine)
  ownReferences := (hsame.spaceReferences n).trans h.ownReferences
  ownImports := (hsame.imports n).trans h.ownImports
  targeted := h.targeted.mono h.pristine hsame.grows hsame.std (hsame.spaceReferences n)
    (hsame.imports n) fun r _ => by rw [hsame.reference]

theorem adds_drainImports (hp : p.Pristine) : Adds n p (p.drainImports n).2 := by
  have hsame : SameNames p (p.modifySpace n fun ns => { ns with pending := [] }) :=
    sameNames_modifySpace p n _ (fun _ => rfl) (fun _ => rfl) (fun _ => rfl) (fun _ => rfl)
      fun _ => rfl
  exact hsame.adds hp

theorem yields_visit (loader : Loader) (cancelled : Bool) (fuel : Nat)
    (h : Discovers p d) (hn : n < p.namespaces.size) :
    Yields (visit loader cancelled fuel n d) p fun d' p' => Explores d p' d' := by
  induction fuel generalizing p n d with
  | zero => simp [visit]
  | succ fuel ih =>
      simp only [visit]
      by_cases hseen : d.isSeen n = true
      · rw [if_pos hseen]
        simp only [yields_pure]
        exact Explores.refl h
      rw [if_neg hseen]
      by_cases hcancelled : cancelled = true
      · simp [hcancelled]
      rw [if_neg hcancelled]
      rw [isSeen_iff] at hseen
      have hplace : n ∉ d.order := fun hmem => hseen (h.seen n hmem)
      simp only [yields_bind]
      refine (yields_parse h.pristine hn).mono ?_
      rintro t p₁ ⟨hparse, rfl, ht, -⟩
      simp only [yields_get, yields_set, yields_pure]
      have hdrain := adds_drainImports (n := t.owner) hparse.pristine
      have htree := ((h.adds hplace hparse).addTree ht hseen).adds hplace hdrain
      -- The namespace is seen now, so that no visit below gives it a place.
      have hseen' : t.owner ∈ (d.trees ++ [t]).map Tree.owner := by simp
      refine (Yields.foldlM_list (fun _ d' p' =>
        Explores { d with trees := d.trees ++ [t] } p' d') ?_ (Explores.refl htree)).mono ?_
      · intro _ i _ _ d₂ p₂ h₂
        have hplace₂ := h₂.not_placed hseen' hplace
        simp only [yields_bind]
        refine (yields_openImport loader i h₂.discovers.pristine).mono ?_
        rintro m p₃ ⟨hopen, hm⟩
        have h₃ := h₂.adds hplace₂ hopen
        refine (ih h₃.discovers hm).mono ?_
        intro d₄ p₄ h₄
        exact h₃.trans h₄
      · intro d₂ p₂ h₂
        have hplace₂ := h₂.not_placed hseen' hplace
        have huntargeted := h₂.discovers.untargeted t.owner hplace₂
        refine (yields_mapFailure
          (yields_bindReferences h₂.discovers.pristine huntargeted)).mono ?_
        intro _ p₃ hretargets
        refine (yields_advance _).mono ?_
        intro _ p₄ hsame
        have hseen₂ : t.owner ∈ d₂.trees.map Tree.owner := h₂.seen t.owner hseen'
        constructor
        · exact h₂.discovers.place hseen₂ hplace₂ (hretargets.adds hsame)
        · intro m hm
          exact h₂.seen m (by simp at hm ⊢; exact Or.inl hm)
        · intro m hm
          rcases List.mem_append.mp hm with hold | hlast
          · rcases h₂.placed m hold with hbefore | hnew
            · exact Or.inl hbefore
            · exact Or.inr fun hm => hnew (by simp at hm ⊢; exact Or.inl hm)
          · rw [List.mem_singleton.mp hlast]
            exact Or.inr hseen

theorem yields_openStd (loader : Loader) (stdPath : Text) (hp : p.Pristine) :
    Yields (openStd loader stdPath) p fun m p' => p.Adds n p' ∧ m < p'.namespaces.size := by
  simp only [openStd]
  split
  · simp only [yields_bind, yields_get, yields_set, yields_pure, openUnit]
    split
    · next m hm => exact ⟨Adds.refl hp, lt_of_findKey? hm⟩
    · refine ⟨adds_register hp _, ?_⟩
      rw [size_register]
      exact Nat.lt_succ_self _
  · simp only [yields_bind, yields_pure]
    exact (yields_openAt n loader stdPath hp).mono fun _ _ h => h

theorem Pristine.setStd (hp : p.Pristine) (hn : n < p.namespaces.size) :
    Pristine { p with std := some n } := by
  have hsame : SameSymbols p { p with std := some n } :=
    ⟨rfl, rfl, rfl, rfl, le_rfl, fun _ _ => rfl, fun _ => rfl⟩
  refine hsame.pristine hp hp.id_ne hp.reference_lt hp.reference_owner hp.unresolved hp.import_lt
    (fun m hm => ?_) hp.root hp.ledger
  cases hm
  exact hn

/-- Before the first visit nothing has been found. -/
theorem discovers_start (hp : p.Pristine) (huntargeted : ∀ n, p.Untargeted n) :
    Discovers p {} where
  pristine := hp
  found _ ht := nomatch ht
  owners := List.nodup_nil
  order := List.nodup_nil
  seen _ hn := nomatch hn
  targeted _ hn := nomatch hn
  untargeted n _ := huntargeted n

/-- Everything that the later phases use of discovery. -/
theorem yields_discover (depth : Nat) (loader : Loader) (cancelled : Bool)
    (stdPath entry : Text) (hp : p.Pristine) (huntargeted : ∀ n, p.Untargeted n) :
    Yields (discoverWithin depth loader cancelled stdPath entry) p fun d p' => Discovers p' d := by
  simp only [discoverWithin, yields_bind, yields_modify]
  intro std p₁ hopen
  have hopened := fun n => yields_openStd (n := n) loader stdPath hp std p₁ hopen
  have hp₁ := (hopened std).1.pristine.setStd (hopened std).2
  have hstart : Discovers { p₁ with std := some std } {} :=
    discovers_start hp₁ fun n => (hopened n).1.untargeted (huntargeted n)
  refine (yields_visit loader cancelled _ hstart (hopened std).2).mono ?_
  intro d₂ p₂ h₂
  have hfresh := h₂.discovers.size_not_mem
  refine (yields_openAt p₂.namespaces.size loader entry h₂.discovers.pristine).mono ?_
  rintro ⟨root, isNew⟩ p₃ ⟨hadds, hroot⟩
  refine (yields_visit loader cancelled _ (h₂.discovers.adds hfresh hadds) hroot).mono ?_
  intro d₄ p₄ h₄
  exact h₄.discovers

theorem Discovers.exists_tree (h : Discovers p d) (hn : n ∈ d.order) :
    ∃ t ∈ d.trees, d.treeOf? n = some t ∧ t.owner = n := by
  obtain ⟨t, ht, howner⟩ := List.mem_map.mp (h.seen n hn)
  cases hfind : d.treeOf? n with
  | none =>
      have := List.find?_eq_none.mp hfind t ht
      simp [howner] at this
  | some u =>
      have hu := List.find?_some hfind
      exact ⟨u, List.mem_of_find?_eq_some hfind, rfl, by simpa using hu⟩

theorem Discovers.map_owner_orderedTrees (h : Discovers p d) :
    d.orderedTrees.map Tree.owner = d.order := by
  rw [Discovery.orderedTrees, List.map_filterMap]
  suffices hgen : ∀ order : List NamespaceId, (∀ n ∈ order, n ∈ d.order) →
      order.filterMap (fun n => (d.treeOf? n).map Tree.owner) = order from
    hgen d.order fun _ hn => hn
  intro order horder
  induction order with
  | nil => rfl
  | cons n rest ih =>
      obtain ⟨t, -, htree, howner⟩ := h.exists_tree (horder n (List.mem_cons_self ..))
      rw [List.filterMap_cons_some (b := n) (by rw [htree, Option.map_some, howner])]
      rw [ih fun m hm => horder m (List.mem_cons_of_mem _ hm)]

theorem Discovers.found_orderedTrees (h : Discovers p d) {t : Tree} (ht : t ∈ d.orderedTrees) :
    Found p t := by
  obtain ⟨n, -, hn⟩ := List.mem_filterMap.mp ht
  exact h.found t (List.mem_of_find?_eq_some hn)

end Splice.Program

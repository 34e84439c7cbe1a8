import Splice.Proofs.Program.Basic
import Splice.Tree.Parser

/-!
# The names of a program

Before the analysis a program is pristine: every symbol stands in exactly one group,
the one of its name, and is written as its name says; every reference belongs to one
namespace and is not resolved; and the ledger is empty.  Working on one namespace
keeps a program pristine.  It may add names everywhere, as the names that a namespace
reads elsewhere get symbols there, but it leaves the references and imports of the
other namespaces alone (`Program.Works`).
-/

namespace Splice.Program

variable {p p' p'' : Program} {n m : NamespaceId} {name : Text} {s : SymbolId}
  {r : ReferenceId} {readPattern : PatternReader}

structure Pristine (p : Program) : Prop where
  symbol_lt : ∀ n name, ∀ s ∈ p.symbolsOf n name, s < p.symbols.size
  symbol_eq : ∀ n name, ∀ s ∈ p.symbolsOf n name,
    p.symbol s = Symbol.ofName (p.spaceAt n).id name
  symbol_owner : ∀ n m name other s, s ∈ p.symbolsOf n name → s ∈ p.symbolsOf m other → n = m
  property_lt : ∀ name, ∀ s ∈ p.properties.members name, s < p.symbols.size
  property_eq : ∀ name, ∀ s ∈ p.properties.members name,
    p.symbol s = Symbol.ofProperty name (p.isRetainedName name)
  groups_nodup : ∀ n, ((p.spaceAt n).groups.map Prod.fst).Nodup
  properties_nodup : (p.properties.map Prod.fst).Nodup
  id_ne : ∀ n < p.namespaces.size, (p.spaceAt n).id ≠ []
  reference_lt : ∀ n, ∀ r ∈ (p.spaceAt n).references, r < p.references.size
  reference_owner : ∀ n m r, r ∈ (p.spaceAt n).references → r ∈ (p.spaceAt m).references →
    n = m
  unresolved : ∀ r, (p.reference r).resolution = .unresolved
  import_lt : ∀ n, ∀ i ∈ (p.spaceAt n).imports, i.2 < p.namespaces.size
  std_lt : ∀ n, p.std = some n → n < p.namespaces.size
  root : ∀ n, (p.spaceAt n).root = none
  ledger : p.ledger = {}

theorem lt_of_mem_symbolsOf (h : s ∈ p.symbolsOf n name) : n < p.namespaces.size := by
  by_contra hn
  rw [symbolsOf, spaceAt_of_size_le (Nat.le_of_not_lt hn)] at h
  simp [Groups.members] at h

theorem pristine_empty (workingDir : Text) (globs : List NamePattern) :
    Pristine { workingDir, retainGlobs := globs } := by
  constructor <;> simp [symbolsOf, spaceAt, reference, Groups.members]

theorem create_nil (workingDir : Text) (readPattern : PatternReader) :
    create workingDir [] readPattern = .ok { workingDir } := rfl

theorem exists_create_eq {workingDir : Text} {patterns : List Text}
    (h : create workingDir patterns readPattern = .ok p) :
    ∃ globs, p = { workingDir, retainGlobs := globs } := by
  simp only [create, bind, Except.bind] at h
  split at h
  · cases h
  · cases h
    exact ⟨_, rfl⟩

/-- A later program: what was there is there with the same names. -/
structure Grows (p p' : Program) : Prop where
  spaces_le : p.namespaces.size ≤ p'.namespaces.size
  id : ∀ n < p.namespaces.size, (p'.spaceAt n).id = (p.spaceAt n).id
  symbols : ∀ n name, p.symbolsOf n name ⊆ p'.symbolsOf n name
  properties : ∀ name, p.properties.members name ⊆ p'.properties.members name
  references : ∀ n, (p.spaceAt n).references ⊆ (p'.spaceAt n).references
  references_le : p.references.size ≤ p'.references.size
  named : ∀ r < p.references.size,
    (p'.reference r).qualifier = (p.reference r).qualifier ∧
      (p'.reference r).name = (p.reference r).name

theorem Grows.refl (p : Program) : p.Grows p := by
  constructor <;> simp

theorem Grows.trans (h : p.Grows p') (h' : p'.Grows p'') : p.Grows p'' where
  spaces_le := h.spaces_le.trans h'.spaces_le
  id n hn := (h'.id n (hn.trans_le h.spaces_le)).trans (h.id n hn)
  symbols n name := List.Subset.trans (h.symbols n name) (h'.symbols n name)
  properties name := List.Subset.trans (h.properties name) (h'.properties name)
  references n := List.Subset.trans (h.references n) (h'.references n)
  references_le := h.references_le.trans h'.references_le
  named r hr := by
    have h₁ := h.named r hr
    have h₂ := h'.named r (hr.trans_le h.references_le)
    exact ⟨h₂.1.trans h₁.1, h₂.2.trans h₁.2⟩

/-- What working on a namespace does to a pristine program. -/
structure Works (n : NamespaceId) (p p' : Program) : Prop where
  pristine : p'.Pristine
  grows : p.Grows p'
  std : p'.std = p.std
  references : ∀ m ≠ n, (p'.spaceAt m).references = (p.spaceAt m).references
  imports : ∀ m ≠ n, (p'.spaceAt m).imports = (p.spaceAt m).imports
  targets : ∀ m ≠ n, ∀ r ∈ (p.spaceAt m).references,
    (p'.reference r).target = (p.reference r).target

theorem Works.refl (hp : p.Pristine) : Works n p p := by
  constructor <;> simp [hp, Grows.refl]

theorem Works.trans (h : Works n p p') (h' : Works n p' p'') : Works n p p'' where
  pristine := h'.pristine
  grows := h.grows.trans h'.grows
  std := h'.std.trans h.std
  references m hm := (h'.references m hm).trans (h.references m hm)
  imports m hm := (h'.imports m hm).trans (h.imports m hm)
  targets m hm r hr := by
    rw [h'.targets m hm r (by rw [h.references m hm]; exact hr), h.targets m hm r hr]

/-- The tables of symbols are the same, and the namespaces that were there keep their ids. -/
structure SameSymbols (p p' : Program) : Prop where
  symbols : p'.symbols = p.symbols
  properties : p'.properties = p.properties
  retainedNames : p'.retainedNames = p.retainedNames
  retainGlobs : p'.retainGlobs = p.retainGlobs
  spaces_le : p.namespaces.size ≤ p'.namespaces.size
  id : ∀ n < p.namespaces.size, (p'.spaceAt n).id = (p.spaceAt n).id
  groups : ∀ n, (p'.spaceAt n).groups = (p.spaceAt n).groups

theorem SameSymbols.symbolsOf (h : SameSymbols p p') (n : NamespaceId) (name : Text) :
    p'.symbolsOf n name = p.symbolsOf n name := by
  rw [Program.symbolsOf, h.groups]
  rfl

theorem SameSymbols.symbol (h : SameSymbols p p') (s : SymbolId) : p'.symbol s = p.symbol s := by
  rw [Program.symbol, h.symbols]
  rfl

theorem SameSymbols.isRetainedName (h : SameSymbols p p') (name : Text) :
    p'.isRetainedName name = p.isRetainedName name := by
  rw [Program.isRetainedName, h.retainedNames, h.retainGlobs]
  rfl

/-- What is left to show is what a pristine program says about ids, references and imports. -/
theorem SameSymbols.pristine (h : SameSymbols p p') (hp : p.Pristine)
    (hid : ∀ n < p'.namespaces.size, (p'.spaceAt n).id ≠ [])
    (hreferences : ∀ n, ∀ r ∈ (p'.spaceAt n).references, r < p'.references.size)
    (howner : ∀ n m r, r ∈ (p'.spaceAt n).references → r ∈ (p'.spaceAt m).references → n = m)
    (hunresolved : ∀ r, (p'.reference r).resolution = .unresolved)
    (himports : ∀ n, ∀ i ∈ (p'.spaceAt n).imports, i.2 < p'.namespaces.size)
    (hstd : ∀ n, p'.std = some n → n < p'.namespaces.size)
    (hroot : ∀ n, (p'.spaceAt n).root = none) (hledger : p'.ledger = {}) : p'.Pristine where
  symbol_lt n name s hs := by
    rw [h.symbolsOf] at hs
    rw [h.symbols]
    exact hp.symbol_lt n name s hs
  symbol_eq n name s hs := by
    rw [h.symbolsOf] at hs
    rw [h.symbol, h.id n (lt_of_mem_symbolsOf hs)]
    exact hp.symbol_eq n name s hs
  symbol_owner n m name other s hs hs' := by
    rw [h.symbolsOf] at hs hs'
    exact hp.symbol_owner n m name other s hs hs'
  property_lt name s hs := by
    rw [h.properties] at hs
    rw [h.symbols]
    exact hp.property_lt name s hs
  property_eq name s hs := by
    rw [h.properties] at hs
    rw [h.symbol, h.isRetainedName]
    exact hp.property_eq name s hs
  groups_nodup n := by rw [h.groups]; exact hp.groups_nodup n
  properties_nodup := by rw [h.properties]; exact hp.properties_nodup
  id_ne := hid
  reference_lt := hreferences
  reference_owner := howner
  unresolved := hunresolved
  import_lt := himports
  std_lt := hstd
  root := hroot
  ledger := hledger

theorem SameSymbols.grows (h : SameSymbols p p')
    (hreferences : ∀ n, (p.spaceAt n).references ⊆ (p'.spaceAt n).references)
    (hle : p.references.size ≤ p'.references.size)
    (hnamed : ∀ r < p.references.size,
      (p'.reference r).qualifier = (p.reference r).qualifier ∧
        (p'.reference r).name = (p.reference r).name) : p.Grows p' where
  spaces_le := h.spaces_le
  id := h.id
  symbols n name := by rw [h.symbolsOf]; exact List.Subset.refl _
  properties name := by rw [h.properties]; exact List.Subset.refl _
  references := hreferences
  references_le := hle
  named := hnamed

/-! ## Changes that concern no name -/

structure SameNames (p p' : Program) : Prop where
  symbols : p'.symbols = p.symbols
  properties : p'.properties = p.properties
  retainedNames : p'.retainedNames = p.retainedNames
  retainGlobs : p'.retainGlobs = p.retainGlobs
  references : p'.references = p.references
  ledger : p'.ledger = p.ledger
  std : p'.std = p.std
  size : p'.namespaces.size = p.namespaces.size
  id : ∀ n, (p'.spaceAt n).id = (p.spaceAt n).id
  groups : ∀ n, (p'.spaceAt n).groups = (p.spaceAt n).groups
  spaceReferences : ∀ n, (p'.spaceAt n).references = (p.spaceAt n).references
  imports : ∀ n, (p'.spaceAt n).imports = (p.spaceAt n).imports
  root : ∀ n, (p'.spaceAt n).root = (p.spaceAt n).root

theorem sameNames_modifySpace (p : Program) (n : NamespaceId) (f : Namespace → Namespace)
    (hid : ∀ ns, (f ns).id = ns.id) (hgroups : ∀ ns, (f ns).groups = ns.groups)
    (hreferences : ∀ ns, (f ns).references = ns.references)
    (himports : ∀ ns, (f ns).imports = ns.imports) (hroot : ∀ ns, (f ns).root = ns.root) :
    SameNames p (p.modifySpace n f) where
  symbols := rfl
  properties := rfl
  retainedNames := rfl
  retainGlobs := rfl
  references := rfl
  ledger := rfl
  std := rfl
  size := size_modifySpace f
  id m := spaceAt_modifySpace_same p n m f Namespace.id hid
  groups m := spaceAt_modifySpace_same p n m f Namespace.groups hgroups
  spaceReferences m := spaceAt_modifySpace_same p n m f Namespace.references hreferences
  imports m := spaceAt_modifySpace_same p n m f Namespace.imports himports
  root m := spaceAt_modifySpace_same p n m f Namespace.root hroot

theorem SameNames.sameSymbols (h : SameNames p p') : SameSymbols p p' where
  symbols := h.symbols
  properties := h.properties
  retainedNames := h.retainedNames
  retainGlobs := h.retainGlobs
  spaces_le := h.size.ge
  id n _ := h.id n
  groups := h.groups

theorem SameNames.symbolsOf (h : SameNames p p') (n : NamespaceId) (name : Text) :
    p'.symbolsOf n name = p.symbolsOf n name :=
  h.sameSymbols.symbolsOf n name

theorem SameNames.symbol (h : SameNames p p') (s : SymbolId) : p'.symbol s = p.symbol s :=
  h.sameSymbols.symbol s

theorem SameNames.reference (h : SameNames p p') (r : ReferenceId) :
    p'.reference r = p.reference r := by
  rw [Program.reference, h.references]
  rfl

theorem SameNames.isRetainedName (h : SameNames p p') (name : Text) :
    p'.isRetainedName name = p.isRetainedName name :=
  h.sameSymbols.isRetainedName name

theorem SameNames.grows (h : SameNames p p') : p.Grows p' := by
  refine h.sameSymbols.grows (fun n => ?_) (by rw [h.references]) fun r _ => ?_
  · rw [h.spaceReferences]
    exact List.Subset.refl _
  · rw [h.reference]
    exact ⟨rfl, rfl⟩

theorem SameNames.pristine (h : SameNames p p') (hp : p.Pristine) : p'.Pristine := by
  apply h.sameSymbols.pristine hp
  · intro n hn
    rw [h.size] at hn
    rw [h.id]
    exact hp.id_ne n hn
  · intro n r hr
    rw [h.spaceReferences] at hr
    rw [h.references]
    exact hp.reference_lt n r hr
  · intro n m r hr hr'
    rw [h.spaceReferences] at hr hr'
    exact hp.reference_owner n m r hr hr'
  · intro r
    rw [h.reference]
    exact hp.unresolved r
  · intro n i hi
    rw [h.imports] at hi
    rw [h.size]
    exact hp.import_lt n i hi
  · intro n hn
    rw [h.std] at hn
    rw [h.size]
    exact hp.std_lt n hn
  · intro n
    rw [h.root]
    exact hp.root n
  · rw [h.ledger]
    exact hp.ledger

theorem SameNames.works (h : SameNames p p') (hp : p.Pristine) : Works n p p' where
  pristine := h.pristine hp
  grows := h.grows
  std := h.std
  references m _ := h.spaceReferences m
  imports m _ := h.imports m
  targets m _ r _ := by rw [h.reference]

theorem spaceAt_addSymbol_same {α : Type} (p : Program) (n m : NamespaceId) (name : Text)
    (part : Namespace → α) (h : ∀ ns groups, part { ns with groups } = part ns) :
    part ((p.addSymbol n name).2.spaceAt m) = part (p.spaceAt m) :=
  spaceAt_modifySpace_same _ n m _ part fun ns => h ns _

theorem groups_addSymbol (p : Program) (n m : NamespaceId) (name : Text) :
    ((p.addSymbol n name).2.spaceAt m).groups =
      if n = m ∧ m < p.namespaces.size then (p.spaceAt m).groups.add p.symbols.size name
      else (p.spaceAt m).groups := by
  rw [addSymbol]
  dsimp only
  rw [spaceAt_modifySpace]
  split <;> rfl

theorem symbolsOf_addSymbol (p : Program) (n m : NamespaceId) (name other : Text) :
    (p.addSymbol n name).2.symbolsOf m other =
      p.symbolsOf m other ++
        if n = m ∧ m < p.namespaces.size ∧ name = other then [p.symbols.size] else [] := by
  rw [symbolsOf, groups_addSymbol]
  by_cases hnm : n = m ∧ m < p.namespaces.size
  · rw [if_pos hnm, Groups.members_add]
    simp [hnm, symbolsOf]
  · rw [if_neg hnm, if_neg (fun h => hnm ⟨h.1, h.2.1⟩)]
    simp [symbolsOf]

theorem symbol_addSymbol (p : Program) (n : NamespaceId) (name : Text) (t : SymbolId) :
    (p.addSymbol n name).2.symbol t =
      if t = p.symbols.size then Symbol.ofName (p.spaceAt n).id name else p.symbol t :=
  symbol_push p _ t

theorem mem_symbolsOf_addSymbol (hn : n < p.namespaces.size) (name : Text) :
    (p.addSymbol n name).1 ∈ (p.addSymbol n name).2.symbolsOf n name := by
  rw [symbolsOf_addSymbol, if_pos ⟨rfl, hn, rfl⟩]
  exact List.mem_append_right _ (List.mem_singleton.mpr rfl)

theorem Grows.addSymbol (p : Program) (n : NamespaceId) (name : Text) :
    p.Grows (p.addSymbol n name).2 where
  spaces_le := (size_modifySpace _).ge
  id m _ := spaceAt_addSymbol_same p n m name Namespace.id fun _ _ => rfl
  symbols m other := by
    rw [symbolsOf_addSymbol]
    exact List.subset_append_left _ _
  properties _ := List.Subset.refl _
  references m := by
    rw [spaceAt_addSymbol_same p n m name Namespace.references fun _ _ => rfl]
    exact List.Subset.refl _
  references_le := le_rfl
  named _ _ := ⟨rfl, rfl⟩

/-- The new symbol is in no group but the one of its name. -/
theorem mem_symbolsOf_of_addSymbol {other : Text}
    (h : s ∈ (p.addSymbol n name).2.symbolsOf m other) :
    s ∈ p.symbolsOf m other ∨ (s = p.symbols.size ∧ n = m ∧ name = other) := by
  rw [symbolsOf_addSymbol] at h
  rcases List.mem_append.mp h with hold | hnew
  · exact Or.inl hold
  · split at hnew
    · next hc => exact Or.inr ⟨List.mem_singleton.mp hnew, hc.1, hc.2.2⟩
    · cases hnew

theorem Pristine.addSymbol (hp : p.Pristine) (n : NamespaceId) (name : Text) :
    (p.addSymbol n name).2.Pristine where
  symbol_lt m other s hs := by
    have hsize : (p.addSymbol n name).2.symbols.size = p.symbols.size + 1 := by
      simp [Program.addSymbol]
    rw [hsize]
    rcases mem_symbolsOf_of_addSymbol hs with hold | ⟨rfl, -, -⟩
    · exact Nat.lt_succ_of_lt (hp.symbol_lt m other s hold)
    · exact Nat.lt_succ_self _
  symbol_eq m other s hs := by
    rw [symbol_addSymbol, spaceAt_addSymbol_same p n m name Namespace.id fun _ _ => rfl]
    rcases mem_symbolsOf_of_addSymbol hs with hold | ⟨rfl, rfl, rfl⟩
    · rw [if_neg (hp.symbol_lt m other s hold).ne]
      exact hp.symbol_eq m other s hold
    · rw [if_pos rfl]
  symbol_owner m k other other' s hs hs' := by
    rcases mem_symbolsOf_of_addSymbol hs with hold | ⟨rfl, hm, -⟩
    · rcases mem_symbolsOf_of_addSymbol hs' with hold' | ⟨rfl, -, -⟩
      · exact hp.symbol_owner m k other other' s hold hold'
      · exact absurd (hp.symbol_lt m other _ hold) (lt_irrefl _)
    · rcases mem_symbolsOf_of_addSymbol hs' with hold' | ⟨-, hk, -⟩
      · exact absurd (hp.symbol_lt k other' _ hold') (lt_irrefl _)
      · exact hm.symm.trans hk
  property_lt other s hs := by
    have hsize : (p.addSymbol n name).2.symbols.size = p.symbols.size + 1 := by
      simp [Program.addSymbol]
    rw [hsize]
    exact Nat.lt_succ_of_lt (hp.property_lt other s hs)
  property_eq other s hs := by
    rw [symbol_addSymbol, if_neg (hp.property_lt other s hs).ne]
    exact hp.property_eq other s hs
  groups_nodup m := by
    rw [groups_addSymbol]
    split
    · exact Groups.nodup_add (hp.groups_nodup m) _ _
    · exact hp.groups_nodup m
  properties_nodup := hp.properties_nodup
  id_ne m hm := by
    rw [spaceAt_addSymbol_same p n m name Namespace.id fun _ _ => rfl]
    exact hp.id_ne m (by simpa [Program.addSymbol] using hm)
  reference_lt m r hr := by
    rw [spaceAt_addSymbol_same p n m name Namespace.references fun _ _ => rfl] at hr
    exact hp.reference_lt m r hr
  reference_owner m k r hr hr' := by
    rw [spaceAt_addSymbol_same p n _ name Namespace.references fun _ _ => rfl] at hr hr'
    exact hp.reference_owner m k r hr hr'
  unresolved := hp.unresolved
  import_lt m i hi := by
    rw [spaceAt_addSymbol_same p n m name Namespace.imports fun _ _ => rfl] at hi
    simpa [Program.addSymbol] using hp.import_lt m i hi
  std_lt m hm := by simpa [Program.addSymbol] using hp.std_lt m hm
  root m := by
    rw [spaceAt_addSymbol_same p n m name Namespace.root fun _ _ => rfl]
    exact hp.root m
  ledger := hp.ledger

theorem works_addSymbol {k : NamespaceId} (hp : p.Pristine) (n : NamespaceId) (name : Text) :
    Works k p (p.addSymbol n name).2 where
  pristine := hp.addSymbol n name
  grows := Grows.addSymbol p n name
  std := rfl
  references m _ := spaceAt_addSymbol_same p n m name Namespace.references fun _ _ => rfl
  imports m _ := spaceAt_addSymbol_same p n m name Namespace.imports fun _ _ => rfl
  targets _ _ _ _ := rfl

/-! ## Properties -/

theorem symbol_addProperty (p : Program) (name : Text) (t : SymbolId) :
    (p.addProperty name).2.symbol t =
      if t = p.symbols.size then Symbol.ofProperty name (p.isRetainedName name)
      else p.symbol t :=
  symbol_push p _ t

theorem members_addProperty (p : Program) (name other : Text) :
    (p.addProperty name).2.properties.members other =
      p.properties.members other ++ if name = other then [p.symbols.size] else [] :=
  Groups.members_add _ _ _ _

theorem mem_members_addProperty (p : Program) (name : Text) :
    (p.addProperty name).1 ∈ (p.addProperty name).2.properties.members name := by
  rw [members_addProperty, if_pos rfl]
  exact List.mem_append_right _ (List.mem_singleton.mpr rfl)

/-- Noting a name that a pattern matches tells nothing new. -/
theorem isRetainedName_addProperty (p : Program) (name other : Text) :
    (p.addProperty name).2.isRetainedName other = p.isRetainedName other := by
  have hsame : (p.addProperty name).2.isRetainedName other =
      ((p.retainedNamesAfter name).contains other || p.retainGlobs.any (·.matchesName other)) :=
    rfl
  rw [hsame, retainedNamesAfter]
  cases hretained : p.isRetainedName name with
  | false => rfl
  | true =>
      rw [if_pos rfl, isRetainedName]
      by_cases hother : other = name
      · rw [← hother] at hretained
        rw [← hother, ← isRetainedName, hretained]
        simp
      · simp [hother]

theorem Pristine.addProperty (hp : p.Pristine) (name : Text) :
    (p.addProperty name).2.Pristine := by
  have hsize : (p.addProperty name).2.symbols.size = p.symbols.size + 1 := by
    simp [Program.addProperty]
  have hmem : ∀ other s, s ∈ (p.addProperty name).2.properties.members other →
      s ∈ p.properties.members other ∨ (s = p.symbols.size ∧ name = other) := by
    intro other s hs
    rw [members_addProperty] at hs
    rcases List.mem_append.mp hs with hold | hnew
    · exact Or.inl hold
    · split at hnew
      · next hname => exact Or.inr ⟨List.mem_singleton.mp hnew, hname⟩
      · cases hnew
  constructor
  · intro m other s hs
    rw [hsize]
    exact Nat.lt_succ_of_lt (hp.symbol_lt m other s hs)
  · intro m other s hs
    rw [symbol_addProperty, if_neg (hp.symbol_lt m other s hs).ne]
    exact hp.symbol_eq m other s hs
  · exact hp.symbol_owner
  · intro other s hs
    rw [hsize]
    rcases hmem other s hs with hold | ⟨rfl, -⟩
    · exact Nat.lt_succ_of_lt (hp.property_lt other s hold)
    · exact Nat.lt_succ_self _
  · intro other s hs
    rw [symbol_addProperty, isRetainedName_addProperty]
    rcases hmem other s hs with hold | ⟨rfl, rfl⟩
    · rw [if_neg (hp.property_lt other s hold).ne]
      exact hp.property_eq other s hold
    · rw [if_pos rfl]
  · exact hp.groups_nodup
  · exact Groups.nodup_add hp.properties_nodup _ _
  · exact hp.id_ne
  · exact hp.reference_lt
  · exact hp.reference_owner
  · exact hp.unresolved
  · exact hp.import_lt
  · exact hp.std_lt
  · exact hp.root
  · exact hp.ledger

theorem works_addProperty (hp : p.Pristine) (name : Text) :
    Works n p (p.addProperty name).2 where
  pristine := hp.addProperty name
  grows := {
    spaces_le := le_rfl
    id := fun _ _ => rfl
    symbols := fun _ _ => List.Subset.refl _
    properties := fun other => by
      rw [members_addProperty]
      exact List.subset_append_left _ _
    references := fun _ => List.Subset.refl _
    references_le := le_rfl
    named := fun _ _ => ⟨rfl, rfl⟩ }
  std := rfl
  references _ _ := rfl
  imports _ _ := rfl
  targets _ _ _ _ := rfl

theorem retainProperty_eq (p : Program) (name : Text) :
    p.retainProperty name =
      { p with
        retainedNames := p.retainedNames ++ [name]
        symbols := (p.retainProperty name).symbols } :=
  foldl_modifySymbol_eq _ _ _

theorem size_retainProperty (p : Program) (name : Text) :
    (p.retainProperty name).symbols.size = p.symbols.size :=
  size_foldl_modifySymbol _ _ _

theorem references_retainProperty (p : Program) (name : Text) :
    (p.retainProperty name).references = p.references := by
  rw [retainProperty_eq]

theorem isRetainedName_retainProperty (p : Program) (name other : Text) :
    (p.retainProperty name).isRetainedName other =
      (p.isRetainedName other || name == other) := by
  rw [retainProperty_eq]
  simp only [isRetainedName, List.contains_append, List.contains_cons, List.contains_nil,
    Bool.or_false]
  have hsymm : (other == name) = (name == other) := by
    by_cases h : other = name
    · simp [h]
    · simp [h, Ne.symm h]
  rw [hsymm]
  cases p.retainedNames.contains other <;> cases name == other <;> simp

theorem symbol_retainProperty (p : Program) (name : Text) (t : SymbolId) :
    (p.retainProperty name).symbol t =
      if t ∈ p.properties.members name ∧ t < p.symbols.size then (p.symbol t).retain
      else p.symbol t := by
  rw [retainProperty]
  refine (symbol_foldl_modifySymbol _ _ ?_ t).trans rfl
  intro x
  cases hk : x.kind <;> simp [Symbol.retain, hk]

theorem Pristine.retainProperty (hp : p.Pristine) (name : Text) :
    (p.retainProperty name).Pristine := by
  have hsame := retainProperty_eq p name
  have hsize := size_retainProperty p name
  have hspace : ∀ n, (p.retainProperty name).spaceAt n = p.spaceAt n := by
    intro n
    rw [hsame]
    rfl
  have hsymbolsOf : ∀ n other, (p.retainProperty name).symbolsOf n other = p.symbolsOf n other := by
    intro n other
    rw [symbolsOf, hspace]
    rfl
  have hproperties : (p.retainProperty name).properties = p.properties := by rw [hsame]
  have hreferences := references_retainProperty p name
  -- A symbol is not a property and a name of a namespace at once.
  have hother : ∀ n other s, s ∈ p.symbolsOf n other → s ∉ p.properties.members name := by
    intro n other s hs hmem
    have h := (hp.symbol_eq n other s hs).symm.trans (hp.property_eq name s hmem)
    have hne := hp.id_ne n (lt_of_mem_symbolsOf hs)
    simp [Symbol.ofName, Symbol.ofProperty, hne] at h
  constructor
  · intro n other s hs
    rw [hsymbolsOf] at hs
    rw [hsize]
    exact hp.symbol_lt n other s hs
  · intro n other s hs
    rw [hsymbolsOf] at hs
    rw [symbol_retainProperty, if_neg (fun h => hother n other s hs h.1), hspace]
    exact hp.symbol_eq n other s hs
  · intro n m other other' s hs hs'
    rw [hsymbolsOf] at hs hs'
    exact hp.symbol_owner n m other other' s hs hs'
  · intro other s hs
    rw [hproperties] at hs
    rw [hsize]
    exact hp.property_lt other s hs
  · intro other s hs
    rw [hproperties] at hs
    have hold := hp.property_eq other s hs
    rw [symbol_retainProperty, isRetainedName_retainProperty]
    by_cases hname : name = other
    · subst hname
      rw [if_pos ⟨hs, hp.property_lt name s hs⟩, hold]
      simp [Symbol.retain, Symbol.ofProperty]
    · have hnot : s ∉ p.properties.members name := by
        intro hmem
        have h := (hp.property_eq name s hmem).symm.trans hold
        exact hname (by simpa [Symbol.ofProperty] using congrArg Symbol.name h)
      have hbeq : (name == other) = false := by simpa using hname
      rw [if_neg (fun h => hnot h.1), hold, hbeq, Bool.or_false]
  · intro n
    rw [hspace]
    exact hp.groups_nodup n
  · rw [hproperties]
    exact hp.properties_nodup
  · intro n hn
    rw [hspace]
    exact hp.id_ne n (by rw [hsame] at hn; exact hn)
  · intro n r hr
    rw [hspace] at hr
    rw [hreferences]
    exact hp.reference_lt n r hr
  · intro n m r hr hr'
    rw [hspace] at hr hr'
    exact hp.reference_owner n m r hr hr'
  · intro r
    rw [reference, hreferences]
    exact hp.unresolved r
  · intro n i hi
    rw [hspace] at hi
    rw [hsame]
    exact hp.import_lt n i hi
  · intro n hn
    rw [hsame] at hn ⊢
    exact hp.std_lt n hn
  · intro n
    rw [hspace]
    exact hp.root n
  · rw [hsame]
    exact hp.ledger

theorem works_retainProperty (hp : p.Pristine) (name : Text) :
    Works n p (p.retainProperty name) := by
  have hpristine := hp.retainProperty name
  rw [retainProperty_eq] at hpristine ⊢
  exact {
    pristine := hpristine
    grows := {
      spaces_le := le_rfl
      id := fun _ _ => rfl
      symbols := fun _ _ => List.Subset.refl _
      properties := fun _ => List.Subset.refl _
      references := fun _ => List.Subset.refl _
      references_le := le_rfl
      named := fun _ _ => ⟨rfl, rfl⟩ }
    std := rfl
    references := fun _ _ => rfl
    imports := fun _ _ => rfl
    targets := fun _ _ _ _ => rfl }

/-- No reference of a namespace has a symbol where its name belongs yet. -/
def Untargeted (p : Program) (n : NamespaceId) : Prop :=
  ∀ r ∈ (p.spaceAt n).references, (p.reference r).target = none

theorem Works.untargeted (h : Works n p p') (hm : m ≠ n) (hp : p.Untargeted m) :
    p'.Untargeted m := by
  intro r hr
  rw [h.references m hm] at hr
  rw [h.targets m hm r hr]
  exact hp r hr

theorem spaceAt_addReference (p : Program) (n m : NamespaceId) (qualifier name member : Text)
    (offset : Int) :
    (p.addReference n qualifier name member offset).2.spaceAt m =
      if n = m ∧ m < p.namespaces.size then
        { p.spaceAt m with references := (p.spaceAt m).references ++ [p.references.size] }
      else p.spaceAt m :=
  spaceAt_modifySpace _ n m _

theorem reference_addReference (p : Program) (n : NamespaceId) (qualifier name member : Text)
    (offset : Int) (q : ReferenceId) :
    (p.addReference n qualifier name member offset).2.reference q =
      if q = p.references.size then ⟨qualifier, name, member, offset, none, .unresolved⟩
      else p.reference q :=
  reference_push p _ q

theorem reference_addReference_new (p : Program) (n : NamespaceId)
    (qualifier name member : Text) (offset : Int) :
    (p.addReference n qualifier name member offset).2.reference
        (p.addReference n qualifier name member offset).1 =
      ⟨qualifier, name, member, offset, none, .unresolved⟩ := by
  rw [reference_addReference]
  exact if_pos rfl

theorem mem_addReference (hn : n < p.namespaces.size) (qualifier name member : Text)
    (offset : Int) :
    (p.addReference n qualifier name member offset).1 ∈
      ((p.addReference n qualifier name member offset).2.spaceAt n).references := by
  rw [spaceAt_addReference, if_pos ⟨rfl, hn⟩]
  exact List.mem_append_right _ (List.mem_singleton.mpr rfl)

section

variable {qualifier member : Text} {offset : Int}

theorem mem_of_mem_addReference
    (h : r ∈ ((p.addReference n qualifier name member offset).2.spaceAt m).references) :
    r ∈ (p.spaceAt m).references ∨ (r = p.references.size ∧ n = m) := by
  rw [spaceAt_addReference] at h
  split at h
  · next hc =>
      rcases List.mem_append.mp h with hold | hnew
      · exact Or.inl hold
      · exact Or.inr ⟨List.mem_singleton.mp hnew, hc.1⟩
  · exact Or.inl h

theorem spaceAt_addReference_same {α : Type} (p : Program) (n m : NamespaceId)
    (part : Namespace → α) (h : ∀ ns references, part { ns with references } = part ns) :
    part ((p.addReference n qualifier name member offset).2.spaceAt m) = part (p.spaceAt m) :=
  spaceAt_modifySpace_same _ n m _ part fun ns => h ns _

theorem sameSymbols_addReference (p : Program) (n : NamespaceId) :
    SameSymbols p (p.addReference n qualifier name member offset).2 where
  symbols := rfl
  properties := rfl
  retainedNames := rfl
  retainGlobs := rfl
  spaces_le := by simp [Program.addReference]
  id m _ := spaceAt_addReference_same p n m Namespace.id fun _ _ => rfl
  groups m := spaceAt_addReference_same p n m Namespace.groups fun _ _ => rfl

theorem Pristine.addReference (hp : p.Pristine) :
    (p.addReference n qualifier name member offset).2.Pristine := by
  have hsize : (p.addReference n qualifier name member offset).2.references.size =
      p.references.size + 1 := by
    simp [Program.addReference]
  apply (sameSymbols_addReference p n).pristine hp
  · intro m hm
    rw [spaceAt_addReference_same p n m Namespace.id fun _ _ => rfl]
    exact hp.id_ne m (by simpa [Program.addReference] using hm)
  · intro m r hr
    rw [hsize]
    rcases mem_of_mem_addReference hr with hold | ⟨rfl, -⟩
    · exact Nat.lt_succ_of_lt (hp.reference_lt m r hold)
    · exact Nat.lt_succ_self _
  · intro m k r hr hr'
    rcases mem_of_mem_addReference hr with hold | ⟨rfl, hm⟩
    · rcases mem_of_mem_addReference hr' with hold' | ⟨rfl, -⟩
      · exact hp.reference_owner m k r hold hold'
      · exact absurd (hp.reference_lt m _ hold) (lt_irrefl _)
    · rcases mem_of_mem_addReference hr' with hold' | ⟨-, hk⟩
      · exact absurd (hp.reference_lt k _ hold') (lt_irrefl _)
      · exact hm.symm.trans hk
  · intro r
    rw [reference_addReference]
    split
    · rfl
    · exact hp.unresolved r
  · intro m i hi
    rw [spaceAt_addReference_same p n m Namespace.imports fun _ _ => rfl] at hi
    simpa [Program.addReference] using hp.import_lt m i hi
  · intro m hm
    simpa [Program.addReference] using hp.std_lt m hm
  · intro m
    rw [spaceAt_addReference_same p n m Namespace.root fun _ _ => rfl]
    exact hp.root m
  · exact hp.ledger

theorem works_addReference (hp : p.Pristine) :
    Works n p (p.addReference n qualifier name member offset).2 := by
  have hother : ∀ m ≠ n, (p.addReference n qualifier name member offset).2.spaceAt m =
      p.spaceAt m := by
    intro m hm
    rw [spaceAt_addReference, if_neg (fun h => hm h.1.symm)]
  constructor
  · exact hp.addReference
  · apply (sameSymbols_addReference p n).grows
    · intro m
      rw [spaceAt_addReference]
      split
      · exact List.subset_append_left _ _
      · exact List.Subset.refl _
    · simp [Program.addReference]
    · intro r hr
      rw [reference_addReference, if_neg hr.ne]
      exact ⟨rfl, rfl⟩
  · rfl
  · intro m hm
    rw [hother m hm]
  · intro m hm
    rw [hother m hm]
  · intro m _ r hr
    rw [reference_addReference, if_neg (hp.reference_lt m r hr).ne]

theorem Untargeted.addReference (hp : p.Pristine) (h : p.Untargeted n) :
    (p.addReference n qualifier name member offset).2.Untargeted n := by
  intro r hr
  rw [reference_addReference]
  rcases mem_of_mem_addReference hr with hold | ⟨rfl, -⟩
  · rw [if_neg (hp.reference_lt n r hold).ne]
    exact h r hold
  · rw [if_pos rfl]

end

/-! ## Reading a source -/

/-- What reading the source of a namespace does: it works on the namespace and adds
references that have no symbols elsewhere yet. -/
structure Adds (n : NamespaceId) (p p' : Program) : Prop extends Works n p p' where
  untargeted : p.Untargeted n → p'.Untargeted n

theorem Adds.refl (hp : p.Pristine) : Adds n p p where
  toWorks := Works.refl hp
  untargeted h := h

theorem Adds.trans (h : Adds n p p') (h' : Adds n p' p'') : Adds n p p'' where
  toWorks := h.toWorks.trans h'.toWorks
  untargeted hp := h'.untargeted (h.untargeted hp)

theorem Works.adds (h : Works n p p')
    (hreferences : (p'.spaceAt n).references = (p.spaceAt n).references)
    (htargets : ∀ r, (p'.reference r).target = (p.reference r).target) : Adds n p p' where
  toWorks := h
  untargeted hp r hr := by
    rw [hreferences] at hr
    rw [htargets]
    exact hp r hr

theorem SameNames.adds (h : SameNames p p') (hp : p.Pristine) : Adds n p p' :=
  (h.works hp).adds (h.spaceReferences n) fun r => by rw [h.reference]

theorem adds_addSymbol {k : NamespaceId} (hp : p.Pristine) (n : NamespaceId) (name : Text) :
    Adds k p (p.addSymbol n name).2 :=
  (works_addSymbol hp n name).adds
    (spaceAt_addSymbol_same p n k name Namespace.references fun _ _ => rfl) fun _ => rfl

theorem adds_addProperty (hp : p.Pristine) (name : Text) : Adds n p (p.addProperty name).2 :=
  (works_addProperty hp name).adds rfl fun _ => rfl

theorem adds_retainProperty (hp : p.Pristine) (name : Text) : Adds n p (p.retainProperty name) := by
  apply (works_retainProperty hp name).adds
  · rw [retainProperty_eq]
    rfl
  · intro r
    rw [retainProperty_eq]
    rfl

theorem adds_addReference (hp : p.Pristine) (qualifier name member : Text) (offset : Int) :
    Adds n p (p.addReference n qualifier name member offset).2 where
  toWorks := works_addReference hp
  untargeted h := h.addReference hp

theorem adds_enactOne (hp : p.Pristine) (d : Declaration) : Adds n p (enactOne n p d) := by
  have hquiet : ∀ f : Namespace → Namespace, (∀ ns, (f ns).id = ns.id) →
      (∀ ns, (f ns).groups = ns.groups) → (∀ ns, (f ns).references = ns.references) →
      (∀ ns, (f ns).imports = ns.imports) → (∀ ns, (f ns).root = ns.root) →
      Adds n p (p.modifySpace n f) := by
    intro f hid hgroups hreferences himports hroot
    exact (sameNames_modifySpace p n f hid hgroups hreferences himports hroot).adds hp
  cases d with
  | symbol name => exact adds_addSymbol hp n name
  | property name => exact adds_addProperty hp name
  | reference qualifier name member offset =>
      exact adds_addReference hp qualifier name member offset
  | import_ qualifier path offset =>
      exact hquiet _ (fun _ => rfl) (fun _ => rfl) (fun _ => rfl) (fun _ => rfl) fun _ => rfl
  | generatedAlias =>
      have hsame : SameNames p { p with generated := p.generated + 1 } :=
        ⟨rfl, rfl, rfl, rfl, rfl, rfl, rfl, rfl, fun _ => rfl, fun _ => rfl, fun _ => rfl,
          fun _ => rfl, fun _ => rfl⟩
      exact hsame.adds hp
  | enum name offset =>
      exact hquiet _ (fun _ => rfl) (fun _ => rfl) (fun _ => rfl) (fun _ => rfl) fun _ => rfl
  | entry enum entry =>
      exact hquiet _ (fun _ => rfl) (fun _ => rfl) (fun _ => rfl) (fun _ => rfl) fun _ => rfl
  | retain name => exact adds_retainProperty hp name

theorem adds_enact (hp : p.Pristine) (ds : List Declaration) : Adds n p (p.enact n ds) := by
  induction ds generalizing p with
  | nil => exact Adds.refl hp
  | cons d rest ih =>
      have hfirst := adds_enactOne (n := n) hp d
      exact hfirst.trans (ih hfirst.pristine)

theorem enact_append (p : Program) (n : NamespaceId) (ds es : List Declaration) :
    p.enact n (ds ++ es) = (p.enact n ds).enact n es :=
  List.foldl_append ..

/-- The references that declarations add to a namespace are declared. -/
theorem mem_references_enact (hp : p.Pristine) {ds : List Declaration}
    (h : r ∈ ((p.enact n ds).spaceAt n).references) :
    r ∈ (p.spaceAt n).references ∨ ∃ name member offset,
      .reference ((p.enact n ds).reference r).qualifier name member offset ∈ ds := by
  induction ds generalizing p with
  | nil => exact Or.inl h
  | cons d rest ih =>
      have hfirst := adds_enactOne (n := n) hp d
      have hlater := adds_enact (n := n) hfirst.pristine rest
      have hquiet : ((enactOne n p d).spaceAt n).references = (p.spaceAt n).references ∨
          ∃ qualifier name member offset, d = .reference qualifier name member offset := by
        cases d with
        | reference qualifier name member offset => exact Or.inr ⟨_, _, _, _, rfl⟩
        | symbol name =>
            exact Or.inl (spaceAt_addSymbol_same p n n name Namespace.references fun _ _ => rfl)
        | property name => exact Or.inl rfl
        | generatedAlias => exact Or.inl rfl
        | retain name =>
            left
            rw [enactOne, retainProperty_eq]
            rfl
        | import_ qualifier path offset =>
            exact Or.inl (spaceAt_modifySpace_same p n n _ Namespace.references fun _ => rfl)
        | enum name offset =>
            exact Or.inl (spaceAt_modifySpace_same p n n _ Namespace.references fun _ => rfl)
        | entry enum entry =>
            exact Or.inl (spaceAt_modifySpace_same p n n _ Namespace.references fun _ => rfl)
      rcases ih hfirst.pristine h with hold | ⟨name, member, offset, hmem⟩
      · rcases hquiet with hsame | ⟨qualifier, name, member, offset, rfl⟩
        · exact Or.inl (hsame ▸ hold)
        · rcases mem_of_mem_addReference hold with hold' | ⟨rfl, -⟩
          · exact Or.inl hold'
          · refine Or.inr ⟨name, member, offset, ?_⟩
            have hlt := hfirst.pristine.reference_lt n _ hold
            have hnew : ((enactOne n p (.reference qualifier name member offset)).reference
                p.references.size).qualifier = qualifier :=
              congrArg Reference.qualifier
                (reference_addReference_new p n qualifier name member offset)
            have hsame := (hlater.grows.named p.references.size hlt).1.trans hnew
            exact List.mem_cons.mpr (Or.inl (congrArg (Declaration.reference · _ _ _) hsame))
      · exact Or.inr ⟨name, member, offset, List.mem_cons_of_mem _ hmem⟩

theorem uniqueId_ne {base : Text} (h : base ≠ []) : p.uniqueId base ≠ [] := by
  rw [uniqueId]
  intro hnil
  cases hfind : ((base :: (List.range p.namespaces.size).map fun n =>
      base ++ ("_" : Text) ++ Text.ofNat (n + 2)).find? fun id => !p.isUsedId id) with
  | none =>
      rw [hfind] at hnil
      exact h hnil
  | some id =>
      rw [hfind, Option.getD_some] at hnil
      have hmem := List.mem_of_find?_eq_some hfind
      rw [hnil] at hmem
      rcases List.mem_cons.mp hmem with hbase | hrest
      · exact h hbase.symm
      · obtain ⟨n, -, hn⟩ := List.mem_map.mp hrest
        simp [h] at hn

theorem shortName_ne (u : SourceUnit) : u.shortName ≠ [] := by
  rw [SourceUnit.shortName]
  split
  · decide
  · next h => simpa using h

theorem register_id (p : Program) (unit : SourceUnit) : (p.register unit).1 = p.namespaces.size :=
  rfl

theorem size_register (p : Program) (unit : SourceUnit) :
    (p.register unit).2.namespaces.size = p.namespaces.size + 1 := by
  simp [register]

theorem spaceAt_register (p : Program) (unit : SourceUnit) (m : NamespaceId) :
    (p.register unit).2.spaceAt m =
      if m = p.namespaces.size then
        { id := p.uniqueId unit.shortName, unit, key := p.normalLocation unit.location }
      else p.spaceAt m :=
  spaceAt_push p _ m

theorem works_register (hp : p.Pristine) (unit : SourceUnit) :
    Works n p (p.register unit).2 := by
  have hpart : ∀ {α : Type} (part : Namespace → α),
      (∀ id unit key, part { id, unit, key } = part { id := [], unit := ⟨[], []⟩, key := [] }) →
      ∀ m, part ((p.register unit).2.spaceAt m) = part (p.spaceAt m) := by
    intro α part hnew m
    rw [spaceAt_register]
    split
    · next hm => rw [hm, spaceAt_of_size_le le_rfl]; exact hnew _ _ _
    · rfl
  have hsize := size_register p unit
  have hreferences := hpart Namespace.references fun _ _ _ => rfl
  have hsame : SameSymbols p (p.register unit).2 := {
    symbols := rfl
    properties := rfl
    retainedNames := rfl
    retainGlobs := rfl
    spaces_le := hsize ▸ Nat.le_succ _
    id := fun m hm => by rw [spaceAt_register, if_neg hm.ne]
    groups := hpart Namespace.groups fun _ _ _ => rfl }
  constructor
  · apply hsame.pristine hp
    · intro m hm
      rw [spaceAt_register]
      split
      · exact uniqueId_ne (shortName_ne unit)
      · next hne =>
          rw [hsize] at hm
          exact hp.id_ne m (Nat.lt_of_le_of_ne (Nat.le_of_lt_succ hm) hne)
    · intro m r hr
      rw [hreferences] at hr
      exact hp.reference_lt m r hr
    · intro m k r hr hr'
      rw [hreferences] at hr hr'
      exact hp.reference_owner m k r hr hr'
    · exact hp.unresolved
    · intro m i hi
      rw [hpart Namespace.imports fun _ _ _ => rfl] at hi
      rw [hsize]
      exact Nat.lt_succ_of_lt (hp.import_lt m i hi)
    · intro m hm
      rw [hsize]
      exact Nat.lt_succ_of_lt (hp.std_lt m hm)
    · intro m
      rw [hpart Namespace.root fun _ _ _ => rfl]
      exact hp.root m
    · exact hp.ledger
  · refine hsame.grows (fun m => ?_) le_rfl fun _ _ => ⟨rfl, rfl⟩
    rw [hreferences]
    exact List.Subset.refl _
  · rfl
  · exact fun m _ => hreferences m
  · exact fun m _ => hpart Namespace.imports (fun _ _ _ => rfl) m
  · exact fun _ _ _ _ => rfl

end Splice.Program

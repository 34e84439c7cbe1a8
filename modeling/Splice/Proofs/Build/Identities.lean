import Splice.Proofs.Build.EntryReads

/-!
# Every symbol of a build stands in its trees

Symbols are made while sources are read and while references are bound.  The former stand
in the trees, one for each mention, and the latter are the targets of references, which
stand in the trees as well.  Between any two steps of discovery these are all symbols that
there are, and each of them is met once (`Program.Minted`).  A reference has a target
unless its name is an enum where its alias leads (`Program.Aimed`), so after linking it is
the target that is loaded.
-/

namespace Splice.Program

variable {p p' q : Program} {n m : NamespaceId} {d : Discovery} {r : ReferenceId}

def targets (p : Program) : List SymbolId := p.references.toList.filterMap Reference.target

/-- Declarations add references without targets. -/
theorem targets_enactOne (p : Program) (n : NamespaceId) (declaration : Declaration) :
    (enactOne n p declaration).targets = p.targets := by
  cases declaration with
  | reference qualifier name member offset =>
      simp [targets, enactOne, addReference, modifySpace]
  | retain name =>
      rw [enactOne, retainProperty_eq]
      rfl
  | _ => rfl

theorem targets_enact (p : Program) (n : NamespaceId) (ds : List Declaration) :
    (p.enact n ds).targets = p.targets := by
  induction ds generalizing p with
  | nil => rfl
  | cons declaration rest ih => exact (ih _).trans (targets_enactOne p n declaration)

/-- A reference that is given a target adds it. -/
theorem perm_targets_retarget (hr : r < p.references.size) (hnone : (p.reference r).target = none)
    (s : SymbolId) : (p.retarget r s).targets.Perm (s :: p.targets) := by
  obtain ⟨a, ref, b, hsplit, hlength, hmodify⟩ := List.exists_of_modify
    (fun ref : Reference => { ref with target := some s }) (l := p.references.toList) (i := r) hr
  have hold : ref.target = none := by
    have href : p.reference r = ref := by
      rw [reference, Array.getD_eq_getD_getElem?, ← Array.getElem?_toList, hsplit, ← hlength,
        List.getElem?_append_right le_rfl, Nat.sub_self]
      rfl
    rw [← href]
    exact hnone
  have hnew : (p.retarget r s).targets = a.filterMap Reference.target ++
      s :: b.filterMap Reference.target := by
    rw [targets, retarget, Array.toList_modify, hmodify]
    simp
  have hbefore : p.targets = a.filterMap Reference.target ++ b.filterMap Reference.target := by
    rw [targets, hsplit]
    simp [hold]
  rw [hnew, hbefore]
  exact List.perm_middle

def mentionsOf (trees : List Tree) : List Mention :=
  trees.flatMap fun t => Stmt.mentionsOfAll t.statements

theorem mentionsOf_append (trees : List Tree) (t : Tree) :
    mentionsOf (trees ++ [t]) = mentionsOf trees ++ Stmt.mentionsOfAll t.statements := by
  simp [mentionsOf]

/-- The symbols and references that there are, each of them once: symbols stand in the trees
or belong to references, and references stand in the trees. -/
structure Minted (p : Program) (d : Discovery) : Prop where
  symbols : Counts ((mentionsOf d.trees).filterMap Mention.symbol? ++ p.targets) 0 p.symbols.size
  references : Counts ((mentionsOf d.trees).filterMap Mention.reference?) 0 p.references.size

theorem Minted.of_same (h : Minted p d) (hsymbols : p'.symbols = p.symbols)
    (hreferences : p'.references = p.references) : Minted p' d where
  symbols := by
    rw [targets, hreferences, hsymbols]
    exact h.symbols
  references := by
    rw [hreferences]
    exact h.references

theorem Opens.same (h : Opens p p') :
    p'.symbols = p.symbols ∧ p'.references = p.references := by
  cases h with
  | register unit => exact ⟨rfl, rfl⟩
  | space n hf => exact ⟨rfl, rfl⟩
  | std n => exact ⟨rfl, rfl⟩

theorem Minted.read {t : Tree} (h : Minted p d) (hrecords : Records n p t p') :
    Minted p' { d with trees := d.trees ++ [t] } where
  symbols := by
    obtain ⟨ds, stage, hp'⟩ := hrecords.enacts
    have htargets : p'.targets = p.targets := by
      rw [hp']
      exact targets_enact p n ds
    rw [mentionsOf_append, List.filterMap_append, htargets]
    refine (h.symbols.append hrecords.symbols).perm ?_
    rw [List.append_assoc, List.append_assoc]
    exact List.perm_append_comm.append_left _
  references := by
    rw [mentionsOf_append, List.filterMap_append]
    exact h.references.append hrecords.references

theorem Minted.bindsOne (h : Minted p d) (hr : r < p.references.size) (hstep : BindsOne n r p p') :
    Minted p' d := by
  cases hstep with
  | kept => exact h
  | enum => exact h
  | @bound m hm henum htarget =>
      constructor
      · have hnew : Counts [(p.addSymbol m (p.reference r).name).1] p.symbols.size
            (p.addSymbol m (p.reference r).name).2.symbols.size := by
          rw [symbols_size_addSymbol]
          exact .singleton _
        refine (h.symbols.append hnew).perm ?_
        rw [List.append_assoc]
        refine List.Perm.append_left _ ?_
        refine (perm_targets_retarget (p := (p.addSymbol m (p.reference r).name).2) hr htarget
          _).trans ?_
        exact (List.perm_append_singleton _ _).symm
      · have hsize : ((p.addSymbol m (p.reference r).name).2.retarget r
            (p.addSymbol m (p.reference r).name).1).references.size = p.references.size := by
          simp [retarget, addSymbol]
        rw [hsize]
        exact h.references

theorem lasting_minted : Lasting Minted where
  opens hopens _ h := h.of_same hopens.same.1 hopens.same.2
  read hn _ hparse h := h.read (parse_records hn.discovers.pristine hn.lt _ _ hparse)
  place {p p' d n} hn hbind h := by
    have hend := yields_bindReferences_of (fun _ q => Minted q d) hn.discovers.pristine
      (hn.discovers.untargeted n hn.open_) h
      (fun hq hr hstep hminted => hminted.bindsOne (hq.pristine.reference_lt n _ hr) hstep)
      () p' hbind
    exact ⟨hend.2.symbols, hend.2.references⟩

/-- A reference of a namespace has a target exactly if its name is no enum where its alias
leads. -/
def AimsAt (p : Program) (n : NamespaceId) (r : ReferenceId) : Prop :=
  ∀ m, p.importTarget? n (p.reference r).qualifier = some m →
    (p.reference r).target.isSome = ((p.spaceAt m).enum? (p.reference r).name).isNone

/-- The references of namespaces that have their places are aimed, at namespaces that were
read. -/
structure Aimed (p : Program) (d : Discovery) : Prop where
  seen : ∀ n ∈ d.order, ∀ qualifier m, p.importTarget? n qualifier = some m →
    m ∈ d.trees.map Tree.owner
  aims : ∀ n ∈ d.order, ∀ r ∈ (p.spaceAt n).references, p.AimsAt n r

/-- What a reference and the namespaces it may lead to keep. -/
theorem AimsAt.of_same (h : p.AimsAt n r)
    (hreference : (p'.reference r).qualifier = (p.reference r).qualifier ∧
      (p'.reference r).name = (p.reference r).name ∧
      (p'.reference r).target = (p.reference r).target)
    (hleads : ∀ qualifier, p'.importTarget? n qualifier = p.importTarget? n qualifier)
    (henums : ∀ m qualifier, p.importTarget? n qualifier = some m →
      (p'.spaceAt m).enums.map Enumeration.name = (p.spaceAt m).enums.map Enumeration.name) :
    p'.AimsAt n r := by
  obtain ⟨hqualifier, hname, htarget⟩ := hreference
  intro m hm
  rw [hqualifier, hleads] at hm
  rw [hname, htarget, h m hm, Bool.eq_iff_iff, Option.isNone_iff_eq_none,
    Option.isNone_iff_eq_none, enum?_eq_none_iff, enum?_eq_none_iff, henums m _ hm]

theorem Opens.part {α : Type} (h : Opens p p') (part : Namespace → α)
    (hnew : ∀ id unit key, part { id, unit, key } = part { id := [], unit := ⟨[], []⟩, key := [] })
    (hpart : ∀ ns stage imports pending, part { ns with stage, imports, pending } = part ns)
    (m : NamespaceId) : part (p'.spaceAt m) = part (p.spaceAt m) := by
  cases h with
  | register unit =>
      rw [spaceAt_register]
      split
      · next hm => rw [hm, spaceAt_of_size_le le_rfl, hnew]
      · rfl
  | space n hf =>
      refine spaceAt_modifySpace_same p n m _ part fun ns => ?_
      obtain ⟨stage, imports, pending, heq⟩ := hf ns
      rw [heq, hpart]
  | std n => rfl

theorem Aimed.opens (h : Aimed p d) (hopens : Opens p p') (hsteady : Steady p p' d) :
    Aimed p' d where
  seen n hn qualifier m hm := by
    rw [hsteady n hn] at hm
    exact h.seen n hn qualifier m hm
  aims n hn r hr := by
    rw [hopens.part Namespace.references (fun _ _ _ => rfl) fun _ _ _ _ => rfl] at hr
    have href : p'.reference r = p.reference r := by
      rw [reference, hopens.same.2, reference]
    refine (h.aims n hn r hr).of_same (by simp [href]) (hsteady n hn) fun m _ _ => ?_
    exact congrArg (List.map Enumeration.name)
      (hopens.part Namespace.enums (fun _ _ _ => rfl) (fun _ _ _ _ => rfl) m)

theorem Aimed.read {t : Tree} (h : Aimed p d) (hd : Discovers p d)
    (hseen : t.owner ∉ d.trees.map Tree.owner) (hadds : Adds t.owner p p')
    (hfills : Fills t.owner p p') : Aimed p' { d with trees := d.trees ++ [t] } := by
  have hne : ∀ n ∈ d.order, n ≠ t.owner := fun n hn heq => hseen (heq ▸ hd.seen n hn)
  have hleads : ∀ n ∈ d.order, ∀ qualifier,
      p'.importTarget? n qualifier = p.importTarget? n qualifier :=
    fun n hn qualifier => importTarget?_congr hadds.std (hadds.imports n (hne n hn)) qualifier
  constructor
  · intro n hn qualifier m hm
    rw [hleads n hn] at hm
    rw [List.map_append]
    exact List.mem_append_left _ (h.seen n hn qualifier m hm)
  · intro n hn r hr
    rw [hadds.references n (hne n hn)] at hr
    obtain ⟨hqualifier, hname⟩ := hadds.grows.named r (hd.pristine.reference_lt n r hr)
    refine (h.aims n hn r hr).of_same
      ⟨hqualifier, hname, hadds.targets n (hne n hn) r hr⟩ (hleads n hn) fun m qualifier hm => ?_
    have hother : m ≠ t.owner := fun heq => hseen (heq ▸ h.seen n hn qualifier m hm)
    exact congrArg (fun c => c.2.2.map Enumeration.name) (hfills.content hother)

/-- The references of a namespace that were gone through, and all that have targets, are
aimed. -/
def AimsFor (p : Program) (n : NamespaceId) (done : List ReferenceId) : Prop :=
  ∀ r ∈ (p.spaceAt n).references, r ∈ done ∨ (p.reference r).target.isSome = true → p.AimsAt n r

theorem AimsFor.bindsOne {done : List ReferenceId} (h : p.AimsFor n done)
    (hr : r < p.references.size) (hstep : BindsOne n r p p') : p'.AimsFor n (done ++ [r]) := by
  intro k hk hdone
  rw [List.mem_append, List.mem_singleton, or_assoc] at hdone
  cases hstep with
  | kept htarget =>
      refine h k hk ?_
      rcases hdone with hdone | rfl | hsome
      · exact Or.inl hdone
      · exact Or.inr htarget
      · exact Or.inr hsome
  | @enum m hm henum htarget =>
      rcases hdone with hdone | rfl | hsome
      · exact h k hk (Or.inl hdone)
      · intro m' hm'
        cases hm.symm.trans hm'
        rw [htarget, henum]
        rfl
      · exact h k hk (Or.inr hsome)
  | @bound m hm henum htarget =>
      have hpart := fun {α : Type} (part : Namespace → α)
          (hgroups : ∀ ns groups, part { ns with groups } = part ns) k =>
        spaceAt_addSymbol_same p m k (p.reference r).name part hgroups
      have hleads : ∀ qualifier, ((p.addSymbol m (p.reference r).name).2.retarget r
          (p.addSymbol m (p.reference r).name).1).importTarget? n qualifier =
            p.importTarget? n qualifier :=
        importTarget?_congr rfl (hpart Namespace.imports (fun _ _ => rfl) n)
      have href := reference_retarget (p.addSymbol m (p.reference r).name).2 r k
        (p.addSymbol m (p.reference r).name).1
      by_cases hkr : r = k
      · subst hkr
        rw [if_pos ⟨rfl, hr⟩] at href
        intro m' hm'
        rw [href, hleads] at hm'
        cases hm.symm.trans hm'
        have henums : (((p.addSymbol m (p.reference r).name).2.retarget r
            (p.addSymbol m (p.reference r).name).1).spaceAt m).enums = (p.spaceAt m).enums :=
          hpart Namespace.enums (fun _ _ => rfl) m
        rw [href, Namespace.enum?, henums]
        exact henum.symm
      · rw [if_neg fun hc => hkr hc.1] at href
        have hk' : k ∈ (p.spaceAt n).references :=
          (hpart Namespace.references (fun _ _ => rfl) n) ▸ hk
        have hbefore : k ∈ done ∨ (p.reference k).target.isSome = true := by
          rcases hdone with hdone | rfl | hsome
          · exact Or.inl hdone
          · exact absurd rfl hkr
          · rw [href] at hsome
            exact Or.inr hsome
        refine (h k hk' hbefore).of_same ?_ hleads fun m' _ _ =>
          hpart (fun ns => ns.enums.map Enumeration.name) (fun _ _ => rfl) m'
        rw [href]
        exact ⟨rfl, rfl, rfl⟩

theorem Aimed.place (h : Aimed p d) (hn : Placeable p d n)
    (hbind : bindReferences n p = .ok () p') : Aimed p' { d with order := d.order ++ [n] } := by
  have hnone := hn.discovers.untargeted n hn.open_
  have hstart : p.AimsFor n [] := by
    intro r hr hdone
    rw [hnone r hr] at hdone
    cases hdone <;> contradiction
  obtain ⟨hretargets, hown⟩ := yields_bindReferences_of (fun done q => q.AimsFor n done)
    hn.discovers.pristine hnone hstart
    (fun hq hr hstep haims => haims.bindsOne (hq.pristine.reference_lt n _ hr) hstep) () p' hbind
  have hfiles := sameFiles_bindReferences () p' hbind
  have hleads : ∀ k qualifier, p'.importTarget? k qualifier = p.importTarget? k qualifier :=
    fun k qualifier => importTarget?_congr hretargets.std (hfiles.imports k) qualifier
  constructor
  · intro k hk qualifier m hm
    rw [hleads] at hm
    rcases List.mem_append.mp hk with hold | hlast
    · exact h.seen k hold qualifier m hm
    · rw [List.mem_singleton.mp hlast] at hm
      exact hn.targets qualifier m hm
  · intro k hk r hr
    by_cases hkn : k = n
    · subst hkn
      refine hown r hr (Or.inl ?_)
      rw [← hretargets.ownReferences]
      exact hr
    · have hold : k ∈ d.order := by
        rcases List.mem_append.mp hk with hold | hlast
        · exact hold
        · exact absurd (List.mem_singleton.mp hlast) hkn
      rw [hretargets.references k hkn] at hr
      obtain ⟨hqualifier, hname⟩ :=
        hretargets.grows.named r (hn.discovers.pristine.reference_lt k r hr)
      exact (h.aims k hold r hr).of_same ⟨hqualifier, hname, hretargets.targets k hkn r hr⟩
        (hleads k) fun m _ _ => congrArg (List.map Enumeration.name) (hfiles.enums m)

theorem lasting_aimed : Lasting Aimed where
  opens hopens hsteady h := h.opens hopens hsteady
  read {p p' d n t} hn hseen hparse h := by
    obtain ⟨hadds, rfl, -, hreads⟩ := yields_parse hn.discovers.pristine hn.lt t p' hparse
    exact h.read hn.discovers hseen hadds hreads.fills
  place hn hbind h := h.place hn hbind

end Splice.Program

/-! ## Linked trees -/

namespace Splice

theorem Counts.perm_range {ids : List Nat} {count : Nat} (h : Counts ids 0 count) :
    ids.Perm (List.range count) := by
  rw [List.range_eq_range']
  exact h.2

namespace Mention

theorem symbol?_bare (m : Mention) : m.bare.symbol? = m.symbol? := by
  cases m with
  | name o text read => cases read <;> rfl
  | _ => rfl

theorem reference?_bare (m : Mention) : m.bare.reference? = m.reference? := by
  cases m with
  | name o text read => cases read <;> rfl
  | _ => rfl

theorem filterMap_congr_bare {α : Type} {f : Mention → Option α} (hf : ∀ m, f m.bare = f m)
    {a b : List Mention} (h : a.map bare = b.map bare) : a.filterMap f = b.filterMap f := by
  have hbare : ∀ ms : List Mention, (ms.map bare).filterMap f = ms.filterMap f := by
    intro ms
    rw [List.filterMap_map]
    exact List.filterMap_congr fun m _ => hf m
  rw [← hbare a, h, hbare b]

theorem exists_foreignRead?_of_reference? {m : Mention} {r : ReferenceId}
    (h : m.reference? = some r) : ∃ x, m.foreignRead? = some x ∧ x.reference = r := by
  cases m with
  | name o text read =>
      cases read with
      | std r record =>
          cases h
          exact ⟨_, rfl, rfl⟩
      | own s usage => cases h
      | unbound => cases h
  | imported o r record =>
      cases h
      exact ⟨_, rfl, rfl⟩
  | property s => cases h
  | binding text s => cases h

/-- A mention has a symbol of its own, or it loads that of its reference. -/
theorem symbols_eq (c : Coding) (m : Mention) :
    m.symbols c = m.symbol?.toList ++ m.reference?.toList.flatMap c.loaded := by
  cases m with
  | name o text read => cases read <;> simp [symbols, symbol?, reference?]
  | _ => simp [symbols, symbol?, reference?]

theorem perm_symbols (c : Coding) (ms : List Mention) :
    (ms.flatMap (symbols c)).Perm
      (ms.filterMap symbol? ++ (ms.filterMap reference?).flatMap c.loaded) := by
  have hsplit : symbols c = fun m => m.symbol?.toList ++ m.reference?.toList.flatMap c.loaded :=
    funext (symbols_eq c)
  rw [hsplit, List.filterMap_eq_flatMap_toList, List.filterMap_eq_flatMap_toList,
    List.flatMap_assoc]
  exact (List.flatMap_append_perm ms _ _).symm

end Mention

namespace Program

variable {p p' q : Program} {n : NamespaceId} {d : Discovery} {r : ReferenceId}
  {t t' : Tree} {trees : List Tree} {readPattern : PatternReader}

theorem targets_eq (p : Program) :
    p.targets = (List.range p.references.size).flatMap fun r => (p.reference r).target.toList := by
  have hlist : p.references.toList = (List.range p.references.size).map p.reference := by
    apply List.ext_getElem
    · simp
    · intro i hi hi'
      simp [reference, Array.getD, (Array.length_toList ▸ hi : i < p.references.size)]
  rw [targets, hlist, List.filterMap_map, List.filterMap_eq_flatMap_toList]
  rfl

/-- Analysis mentions nothing new. -/
theorem check_bare (hfound : Found p t) (hl : p.ledger.WellFormed)
    (hrun : check t p = ((t', none), p')) :
    (Stmt.mentionsOfAll t'.statements).map Mention.bare =
      (Stmt.mentionsOfAll t.statements).map Mention.bare := by
  obtain ⟨hok, rfl, -⟩ := check_eq_ok hfound.root hrun
  exact (analysis_spec hfound hl hok).1.bare

theorem yields_checkAll_bare (trees : List Tree) {before : List Tree} (h : Analysed p before)
    (hfound : ∀ t ∈ trees, Found p t)
    (howners : (before.map Tree.owner ++ trees.map Tree.owner).Nodup) :
    Yields (checkAll trees) p fun trees' p' =>
      p.Proceeds p' ∧ trees'.map Tree.owner = trees.map Tree.owner ∧
        (mentionsOf trees').map Mention.bare = (mentionsOf trees).map Mention.bare := by
  refine (yields_checkAll_of (motive := fun done rest q => Checking q done rest ∧ p.Proceeds q ∧
    (done ++ rest).map Tree.owner = (before ++ trees).map Tree.owner ∧
      (mentionsOf (done ++ rest)).map Mention.bare =
        (mentionsOf (before ++ trees)).map Mention.bare) ?_ before trees
    ⟨⟨h, hfound, howners⟩, Proceeds.refl p, rfl, rfl⟩).mono ?_
  · rintro done t rest q t' q' ⟨hchecking, hproceeds, hmap, hmentions⟩ hcheck
    have hbare := check_bare (hchecking.found t List.mem_cons_self)
      hchecking.analysed.wellFormed hcheck
    obtain ⟨-, howner, -, hchecking'⟩ := hchecking.check hcheck
    refine ⟨hchecking', hproceeds.trans (check_proceeds hcheck).2, ?_, ?_⟩
    · rw [← hmap]
      simp [howner]
    · rw [← hmentions]
      simp [mentionsOf, hbare]
  · rintro trees' q ⟨-, hproceeds, hmap, hmentions⟩
    refine ⟨hproceeds, by simpa using hmap, ?_⟩
    simpa [mentionsOf] using hmentions

/-- A linked reference denotes its target if it has one, and an entry of an enum otherwise. -/
theorem LinkReady.bound (h : LinkReady p trees) (hrun : linkAll trees p = .ok () q)
    (ht : t ∈ trees) (hr : r ∈ (p.spaceAt t.owner).references) (haims : p.AimsAt t.owner r) :
    ((p.reference r).target = none ∧ ∃ space enum name value,
        (q.reference r).resolution = .entry space enum name value) ∨
      ∃ s, (p.reference r).target = some s ∧ (q.reference r).resolution = .value s := by
  obtain ⟨m, root, htarget, hcases⟩ :=
    resolution?_eq_some_iff.mp (h.resolution_eq hrun ht hr)
  have haim := haims m (of_linkTarget? htarget).1
  rcases hcases with ⟨enum, entry, henum, -, -, hresolution⟩ | ⟨henum, u, s, -, hs, hresolution⟩
  · rw [henum, Option.isNone_some, Option.isSome_eq_false_iff, Option.isNone_iff_eq_none] at haim
    exact Or.inl ⟨haim, _, _, _, _, hresolution⟩
  · rw [henum, Option.isNone_none] at haim
    obtain ⟨s', hs'⟩ := Option.isSome_iff_exists.mp haim
    rw [hs', Option.some_or] at hs
    cases hs
    exact Or.inr ⟨s, hs', hresolution⟩

/-- A linked reference loads its target, if it has one. -/
theorem LinkReady.loaded_eq (h : LinkReady p trees) (hrun : linkAll trees p = .ok () q)
    (ht : t ∈ trees) (hr : r ∈ (p.spaceAt t.owner).references) (haims : p.AimsAt t.owner r) :
    q.coding.loaded r = (p.reference r).target.toList := by
  rcases h.bound hrun ht hr haims with ⟨htarget, space, enum, name, value, hresolution⟩ |
    ⟨s, htarget, hresolution⟩
  · simp only [Coding.loaded, coding, hresolution, htarget, Option.toList_none]
  · simp only [Coding.loaded, coding, hresolution, htarget, Option.toList_some]

/-- The build order has all trees that were found. -/
theorem perm_orderedTrees (hd : Discovers p d) {std root : NamespaceId}
    (horder : BuildOrder p d std root) : d.orderedTrees.Perm d.trees := by
  have howners := hd.map_owner_orderedTrees
  have hnodup : d.orderedTrees.Nodup := by
    apply List.Nodup.of_map Tree.owner
    rw [howners]
    exact hd.order
  refine (List.perm_ext_iff_of_nodup hnodup (List.Nodup.of_map _ hd.owners)).mpr fun t => ?_
  constructor
  · intro ht
    obtain ⟨n, -, hn⟩ := List.mem_filterMap.mp ht
    exact List.mem_of_find?_eq_some hn
  · intro ht
    have hmem : t.owner ∈ d.orderedTrees.map Tree.owner := by
      rw [howners]
      exact horder.parsed.subset (List.mem_map_of_mem ht)
    obtain ⟨u, hu, howner⟩ := List.mem_map.mp hmem
    obtain ⟨n, -, hn⟩ := List.mem_filterMap.mp hu
    have heq : u = t := List.inj_on_of_nodup_map hd.owners (List.mem_of_find?_eq_some hn) ht howner
    exact heq ▸ hu

theorem minted_create {workingDir : Text} {patterns : List Text}
    (h : create workingDir patterns readPattern = .ok p) : Minted p {} := by
  obtain ⟨globs, rfl⟩ := exists_create_eq h
  exact ⟨.nil 0, .nil 0⟩

section

variable {loader : Loader} {workingDir : Text} {o : BuildOptions} {entry : Text}
  {p₀ p₁ p₂ p₃ p₄ : Program} {symbols : List MangleEntry}

theorem LinkRun.minted (h : LinkRun loader o entry p₀ d p₁ p₂ p₃ p₄ symbols trees q)
    (hcreate : create workingDir o.retain readPattern = .ok p₀) : Minted p₁ d := by
  obtain ⟨hpristine, huntargeted⟩ := pristine_create hcreate
  exact lasting_minted.discover _ false o.stdPath entry hpristine huntargeted
    (content_create hcreate) (minted_create hcreate) d p₁ h.discover

theorem LinkRun.aimed (h : LinkRun loader o entry p₀ d p₁ p₂ p₃ p₄ symbols trees q)
    (hcreate : create workingDir o.retain readPattern = .ok p₀) : Aimed p₁ d := by
  obtain ⟨hpristine, huntargeted⟩ := pristine_create hcreate
  exact lasting_aimed.discover _ false o.stdPath entry hpristine huntargeted
    (content_create hcreate) ⟨fun n hn => (nomatch hn), fun n hn => nomatch hn⟩ d p₁ h.discover

theorem LinkRun.discovers (h : LinkRun loader o entry p₀ d p₁ p₂ p₃ p₄ symbols trees q)
    (hcreate : create workingDir o.retain readPattern = .ok p₀) : Discovers p₂ d :=
  (surveys_of_discover hcreate h.discover).2.sameNames (yields_assignEnumValues () p₂ h.assign)

theorem LinkRun.charted (h : LinkRun loader o entry p₀ d p₁ p₂ p₃ p₄ symbols trees q)
    (hcreate : create workingDir o.retain readPattern = .ok p₀) : Charted p₁ d := by
  obtain ⟨hpristine, huntargeted⟩ := pristine_create hcreate
  exact (ends_discover o.stdPath entry hpristine huntargeted (content_create hcreate)
    (fresh_create hcreate) (Or.inl trivial)).yields d p₁ h.discover

/-- Analysis of the trees in build order. -/
theorem LinkRun.checks (h : LinkRun loader o entry p₀ d p₁ p₂ p₃ p₄ symbols trees q)
    (hcreate : create workingDir o.retain readPattern = .ok p₀) :
    ∃ table, p₃ = p₂.withSymbols table ∧ p₃.Proceeds p₄ ∧ trees.map Tree.owner = d.order ∧
      (mentionsOf trees).map Mention.bare = (mentionsOf d.orderedTrees).map Mention.bare := by
  have hdiscovers := h.discovers hcreate
  obtain ⟨⟨table, rfl⟩, -⟩ := yields_mangleIfAsked hdiscovers o symbols p₃ h.mangle
  have hnodup : (([] : List Tree).map Tree.owner ++ d.orderedTrees.map Tree.owner).Nodup := by
    rw [hdiscovers.map_owner_orderedTrees]
    exact hdiscovers.order
  obtain ⟨hproceeds, howners, hbare⟩ := yields_checkAll_bare d.orderedTrees
    (analysed_nil (p := p₂.withSymbols table) hdiscovers.pristine.ledger hdiscovers.pristine.root)
    (fun t ht => (hdiscovers.found_orderedTrees ht).mono (grows_withSymbols _ _))
    hnodup trees p₄ h.check
  rw [hdiscovers.map_owner_orderedTrees] at howners
  exact ⟨table, rfl, hproceeds, howners, hbare⟩

/-- Analysis leaves references as they were, and those of namespaces in the build order aim
where they aimed after discovery. -/
theorem LinkRun.aimsAt (h : LinkRun loader o entry p₀ d p₁ p₂ p₃ p₄ symbols trees q)
    (hcreate : create workingDir o.retain readPattern = .ok p₀) (hn : n ∈ d.order)
    (hr : r ∈ (p₄.spaceAt n).references) :
    p₄.AimsAt n r ∧ ∃ resolution, p₄.reference r = { p₁.reference r with resolution } := by
  obtain ⟨table, rfl, hproceeds, -, -⟩ := h.checks hcreate
  have hsame := yields_assignEnumValues () p₂ h.assign
  have hnames := yields_assignEnumValues_names () p₂ h.assign
  obtain ⟨resolution, href⟩ := hproceeds.reference r
  replace href : p₄.reference r = { p₁.reference r with resolution } := by
    rw [href, ← hsame.reference]
    rfl
  have hown : r ∈ (p₁.spaceAt n).references := by
    rw [← hsame.spaceReferences]
    exact (hproceeds.part Namespace.references (fun _ _ _ => rfl) n) ▸ hr
  refine ⟨((h.aimed hcreate).aims n hn r hown).of_same (by simp [href]) ?_ ?_, resolution, href⟩
  · intro qualifier
    exact (hproceeds.importTarget? n qualifier).trans
      (importTarget?_congr hsame.std (hsame.imports n) qualifier)
  · intro m _ _
    rw [hproceeds.enums]
    exact hnames m

/-- What the references of linked trees load are the targets that they were given. -/
theorem LinkRun.loaded_eq (h : LinkRun loader o entry p₀ d p₁ p₂ p₃ p₄ symbols trees q)
    (hcreate : create workingDir o.retain readPattern = .ok p₀)
    (hr : r ∈ (mentionsOf trees).filterMap Mention.reference?) :
    q.coding.loaded r = (p₁.reference r).target.toList := by
  obtain ⟨-, -, -, howners, -⟩ := h.checks hcreate
  have hready := linkReady_of_checkAll hcreate h.discover h.assign h.mangle h.check
  obtain ⟨m, hm, hmention⟩ := List.mem_filterMap.mp hr
  obtain ⟨t, ht, hm⟩ := List.mem_flatMap.mp hm
  obtain ⟨read, hread, rfl⟩ := Mention.exists_foreignRead?_of_reference? hmention
  obtain ⟨f, hattaches⟩ := hready.attaches ht hm hread
  have howner : t.owner ∈ d.order := howners ▸ List.mem_map_of_mem ht
  obtain ⟨haims, resolution, href⟩ := h.aimsAt hcreate howner hattaches.reference
  rw [hready.loaded_eq h.link ht hattaches.reference haims, href]

/-- Every symbol that there is after linking is that of one mention. -/
theorem LinkRun.perm_symbols (h : LinkRun loader o entry p₀ d p₁ p₂ p₃ p₄ symbols trees q)
    (hcreate : create workingDir o.retain readPattern = .ok p₀) :
    ((mentionsOf trees).flatMap (Mention.symbols q.coding)).Perm
      (List.range p₁.symbols.size) := by
  obtain ⟨hsurveys, hfound⟩ := surveys_of_discover hcreate h.discover
  obtain ⟨std, root, -, -, -, horder⟩ := hsurveys.sequence
  obtain ⟨table, -, -, -, hbare⟩ := h.checks hcreate
  have hmentions : (mentionsOf d.orderedTrees).Perm (mentionsOf d.trees) :=
    (perm_orderedTrees hfound horder).flatMap_right _
  have hsymbols := Mention.filterMap_congr_bare Mention.symbol?_bare hbare
  have hreferences := Mention.filterMap_congr_bare Mention.reference?_bare hbare
  have hloaded : ((mentionsOf trees).filterMap Mention.reference?).flatMap q.coding.loaded =
      ((mentionsOf d.orderedTrees).filterMap Mention.reference?).flatMap
        fun r => (p₁.reference r).target.toList := by
    rw [← hreferences]
    exact List.flatMap_congr fun r hr => h.loaded_eq hcreate hr
  have hminted := h.minted hcreate
  have htargets : (((mentionsOf d.orderedTrees).filterMap Mention.reference?).flatMap
      fun r => (p₁.reference r).target.toList).Perm p₁.targets := by
    rw [targets_eq]
    exact ((hmentions.filterMap _).trans hminted.references.perm_range).flatMap_right _
  refine (Mention.perm_symbols q.coding (mentionsOf trees)).trans ?_
  rw [hsymbols, hloaded]
  exact ((hmentions.filterMap _).append htargets).trans hminted.symbols.perm_range

end

end Program

end Splice

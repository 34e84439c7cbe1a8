import Splice.Proofs.Build.Analysis

/-!
# What linking settles

Linking takes many small steps, each of which settles one reference or one record of
a foreign name and leaves the settled ones alone (`Program.Settles`).  The invariant
`Program.Linkable` says of every reference and every record that it is open or
settled in the way its namespace asks for.  A record stands in one scope, a scope
lies inside one outermost scope, and this belongs to one namespace, so a step on
behalf of one namespace spoils nothing for the others.
-/

namespace Splice.Program

variable {p p' p'' : Program} {n m : NamespaceId} {r : ReferenceId} {f : ForeignId}
  {root : ScopeId} {trees : List Tree}

structure LeadsTo (p : Program) (n : NamespaceId) (qualifier : Text) (m : NamespaceId)
    (root : ScopeId) : Prop where
  target : p.importTarget? n qualifier = some m
  rooted : (p.spaceAt m).root = some root

/-- A reference has been settled as its namespace asks for. -/
def Denotes (p : Program) (n : NamespaceId) (r : ReferenceId) : Prop :=
  ∃ m root, p.LeadsTo n (p.reference r).qualifier m root ∧
    match (p.reference r).resolution with
    | .unresolved => False
    | .entry _ _ _ _ => True
    | .value s =>
        (p.spaceAt m).enum? (p.reference r).name = none ∧ s ∈ p.symbolsOf m (p.reference r).name

def Tied (p : Program) (n : NamespaceId) (f : ForeignId) : Prop :=
  ∃ m root, p.LeadsTo n (p.ledger.foreignUsage f).qualifier m root ∧
    ((p.ledger.foreignUsage f).isEnum = true ∧
        ((p.spaceAt m).enum? (p.ledger.foreignUsage f).name).isSome = true ∨
      ∃ u, (p.ledger.foreignUsage f).resolved = some u ∧
        p.ledger.find? root (Symbol.idOf (p.spaceAt m).id (p.ledger.foreignUsage f).name) =
          some u)

def IsOpen (p : Program) (f : ForeignId) : Prop :=
  (p.ledger.foreignUsage f).resolved = none ∧ (p.ledger.foreignUsage f).isEnum = false

theorem Tied.not_isOpen (h : p.Tied n f) : ¬p.IsOpen f := by
  rintro ⟨hresolved, hisEnum⟩
  obtain ⟨m, root, -, ⟨henum, -⟩ | ⟨u, hu, -⟩⟩ := h
  · rw [hisEnum] at henum
    cases henum
  · rw [hresolved] at hu
    cases hu

/-- What a part of linking does: it leaves alone what is settled. -/
structure Settles (p p' : Program) : Prop extends Keeps p p' where
  scopes : p'.ledger.scopes = p.ledger.scopes
  roots : ∀ n, (p'.spaceAt n).root = (p.spaceAt n).root
  resolved : ∀ r, (p.reference r).resolution ≠ .unresolved →
    (p'.reference r).resolution = (p.reference r).resolution
  tied : ∀ f, ¬p.IsOpen f →
    (p'.ledger.foreignUsage f).resolved = (p.ledger.foreignUsage f).resolved ∧
      (p'.ledger.foreignUsage f).isEnum = (p.ledger.foreignUsage f).isEnum

theorem Settles.refl (h : p.ledger.WellFormed) : p.Settles p where
  toKeeps := Keeps.refl h
  scopes := rfl
  roots _ := rfl
  resolved _ _ := rfl
  tied _ _ := ⟨rfl, rfl⟩

theorem Settles.not_isOpen (h : p.Settles p') (hf : ¬p.IsOpen f) : ¬p'.IsOpen f := by
  obtain ⟨hresolved, hisEnum⟩ := h.tied f hf
  rw [IsOpen, hresolved, hisEnum]
  exact hf

theorem Settles.resolution_ne (h : p.Settles p')
    (hr : (p.reference r).resolution ≠ .unresolved) :
    (p'.reference r).resolution ≠ .unresolved := by
  rw [h.resolved r hr]
  exact hr

theorem Settles.trans (h : p.Settles p') (h' : p'.Settles p'') : p.Settles p'' where
  toKeeps := h.toKeeps.trans h'.toKeeps
  scopes := h'.scopes.trans h.scopes
  roots n := (h'.roots n).trans (h.roots n)
  resolved r hr := (h'.resolved r (h.resolution_ne hr)).trans (h.resolved r hr)
  tied f hf := by
    have h₁ := h.tied f hf
    have h₂ := h'.tied f (h.not_isOpen hf)
    exact ⟨h₂.1.trans h₁.1, h₂.2.trans h₁.2⟩

theorem Settles.scope (h : p.Settles p') (s : ScopeId) :
    p'.ledger.scope s = p.ledger.scope s :=
  Ledger.scope_congr h.scopes s

theorem Settles.chain (h : p.Settles p') (s : ScopeId) :
    p'.ledger.chain s = p.ledger.chain s :=
  Ledger.chain_congr h.scopes s

theorem LeadsTo.settles {qualifier : Text} (h : p.LeadsTo n qualifier m root)
    (hp : p.Settles p') : p'.LeadsTo n qualifier m root where
  target := by
    rw [importTarget?_congr hp.std (hp.imports n)]
    exact h.target
  rooted := by
    rw [hp.roots]
    exact h.rooted

theorem Settles.enum? (hp : p.Settles p') (m : NamespaceId) (name : Text) :
    (p'.spaceAt m).enum? name = (p.spaceAt m).enum? name := by
  rw [Namespace.enum?, Namespace.enum?, hp.enums]

theorem Denotes.settles (h : p.Denotes n r) (hp : p.Settles p') : p'.Denotes n r := by
  obtain ⟨m, root, hleads, hresolution⟩ := h
  have hsame : (p'.reference r).resolution = (p.reference r).resolution := by
    apply hp.resolved
    intro hopen
    rw [hopen] at hresolution
    exact hresolution
  refine ⟨m, root, ?_, ?_⟩
  · rw [hp.qualifier]
    exact hleads.settles hp
  · rw [hsame, hp.name, hp.enum?, hp.symbolsOf]
    exact hresolution

theorem Settles.find? (hp : p.Settles p') (hl : p.ledger.WellFormed)
    (hroot : root < p.ledger.scopes.size) (id : Text) :
    p'.ledger.find? root id = p.ledger.find? root id :=
  hp.extend.find?_eq hl hp.wellFormed hroot id

theorem Tied.settles (h : p.Tied n f) (hp : p.Settles p') (hl : p.ledger.WellFormed)
    (hf : f < p.ledger.foreign.size)
    (hroots : ∀ n root, (p.spaceAt n).root = some root → root < p.ledger.scopes.size) :
    p'.Tied n f := by
  have hsame := hp.tied f h.not_isOpen
  have hrecord := hp.extend.record f hf
  obtain ⟨m, root, hleads, hsettled⟩ := h
  refine ⟨m, root, ?_, ?_⟩
  · rw [hrecord.1]
    exact hleads.settles hp
  · rw [hrecord.2, hsame.1, hsame.2, hp.enum?, hp.id, hp.find? hl (hroots m root hleads.rooted)]
    exact hsettled

/-! ## The invariant of linking -/

/-- What holds between any two steps of linking. -/
structure Linkable (p : Program) (trees : List Tree) : Prop where
  wellFormed : p.ledger.WellFormed
  accounts : p.ledger.Accounts (placedReads trees)
  sound : ∀ t ∈ trees, ∃ root, Sound p Check.always root t
  rooted : ∀ n root, (p.spaceAt n).root = some root → ∃ t ∈ trees, t.owner = n
  distinct : ∀ n m root, (p.spaceAt n).root = some root → (p.spaceAt m).root = some root → n = m
  reference_lt : ∀ n, ∀ r ∈ (p.spaceAt n).references, r < p.references.size
  reference_owner : ∀ n m r, r ∈ (p.spaceAt n).references → r ∈ (p.spaceAt m).references →
    n = m
  targeted : ∀ t ∈ trees, p.Targeted t.owner
  references : ∀ n, ∀ r ∈ (p.spaceAt n).references,
    (p.reference r).resolution = .unresolved ∨ p.Denotes n r
  records : ∀ n root, (p.spaceAt n).root = some root → ∀ s < p.ledger.scopes.size,
    root ∈ p.ledger.chain s → ∀ f ∈ (p.ledger.scope s).foreign, p.IsOpen f ∨ p.Tied n f

theorem Linkable.sound_root (h : Linkable p trees) (hroot : (p.spaceAt n).root = some root) :
    ∃ t ∈ trees, t.owner = n ∧ Sound p Check.always root t :=
  exists_sound_of_root h.sound (h.rooted n root hroot) hroot

theorem Linkable.root_lt (h : Linkable p trees) (hroot : (p.spaceAt n).root = some root) :
    root < p.ledger.scopes.size := by
  obtain ⟨t, -, -, hsound⟩ := h.sound_root hroot
  exact hsound.lt

/-- A record that stands inside the outermost scopes of two namespaces does not exist. -/
theorem Linkable.record_owner (h : Linkable p trees) {root' : ScopeId} {s s' : ScopeId}
    (hroot : (p.spaceAt n).root = some root) (hroot' : (p.spaceAt m).root = some root')
    (hs : root ∈ p.ledger.chain s) (hs' : root' ∈ p.ledger.chain s')
    (hf : f ∈ (p.ledger.scope s).foreign) (hf' : f ∈ (p.ledger.scope s').foreign) : n = m := by
  obtain rfl := h.wellFormed.foreign_owner s s' f hf hf'
  obtain ⟨t, _, _, hsound⟩ := h.sound_root hroot
  obtain ⟨t', _, _, hsound'⟩ := h.sound_root hroot'
  obtain rfl := h.wellFormed.outermost_unique hs hs' hsound.outermost hsound'.outermost
  exact h.distinct n m root hroot hroot'

/-- A step keeps the invariant if the ledger still accounts for the reads, and what is
newly settled is settled as asked for. -/
theorem Linkable.settles (h : Linkable p trees) (hp : p.Settles p')
    (haccounts : p'.ledger.Accounts (placedReads trees))
    (hreferences : ∀ n, ∀ r ∈ (p.spaceAt n).references, (p.reference r).resolution = .unresolved →
      (p'.reference r).resolution = .unresolved ∨ p'.Denotes n r)
    (hrecords : ∀ n root, (p.spaceAt n).root = some root → ∀ s < p.ledger.scopes.size,
      root ∈ p.ledger.chain s → ∀ f ∈ (p.ledger.scope s).foreign, p.IsOpen f →
        p'.IsOpen f ∨ p'.Tied n f) :
    Linkable p' trees where
  wellFormed := hp.wellFormed
  accounts := haccounts
  sound t ht := by
    obtain ⟨root, hsound⟩ := h.sound t ht
    exact ⟨root, hsound.keeps h.wellFormed hp.toKeeps⟩
  rooted n root hroot := by
    rw [hp.roots] at hroot
    exact h.rooted n root hroot
  distinct n m root hn hm := by
    rw [hp.roots] at hn hm
    exact h.distinct n m root hn hm
  reference_lt n r hr := by
    rw [hp.spaceReferences] at hr
    rw [hp.references_size]
    exact h.reference_lt n r hr
  reference_owner n m r hn hm := by
    rw [hp.spaceReferences] at hn hm
    exact h.reference_owner n m r hn hm
  targeted t ht := by
    intro r hr s hs
    rw [hp.spaceReferences] at hr
    rw [hp.target] at hs
    obtain ⟨m, hm, hmem⟩ := h.targeted t ht r hr s hs
    refine ⟨m, ?_, ?_⟩
    · rw [hp.qualifier, importTarget?_congr hp.std (hp.imports _)]
      exact hm
    · rw [hp.name, hp.symbolsOf]
      exact hmem
  references n r hr := by
    rw [hp.spaceReferences] at hr
    rcases h.references n r hr with hopen | hdenotes
    · exact hreferences n r hr hopen
    · exact Or.inr (hdenotes.settles hp)
  records n root hroot s hs hchain f hf := by
    rw [hp.roots] at hroot
    rw [hp.scopes] at hs
    rw [hp.chain] at hchain
    rw [hp.scope] at hf
    rcases h.records n root hroot s hs hchain f hf with hopen | htied
    · exact hrecords n root hroot s hs hchain f hf hopen
    · exact Or.inr (htied.settles hp h.wellFormed (h.wellFormed.foreign_lt s f hf)
        fun m root hroot => h.root_lt hroot)

def resolving (p : Program) (r : ReferenceId) (resolution : Resolution) : Program :=
  { p with
    references := p.references.modify r fun _ => { p.reference r with resolution } }

theorem reference_resolving (p : Program) (r q : ReferenceId) (resolution : Resolution) :
    (p.resolving r resolution).reference q =
      if r = q ∧ q < p.references.size then { p.reference r with resolution }
      else p.reference q :=
  reference_modify p r q _

theorem reference_resolving_same {α : Type} (p : Program) (r q : ReferenceId)
    (resolution : Resolution) (part : Reference → α)
    (h : ∀ ref resolution, part { ref with resolution } = part ref) :
    part ((p.resolving r resolution).reference q) = part (p.reference q) := by
  rw [reference_resolving]
  split
  · next hc => rw [hc.1, h]
  · rfl

theorem yields_settle (r : ReferenceId) (resolution : Resolution) :
    Yields (settle r resolution) p fun _ p' =>
      p' = p.resolving r resolution ∧ (p.reference r).resolution = .unresolved := by
  simp only [settle, yields_bind, yields_get, Reference.resolve, Reference.isResolved]
  by_cases hopen : (p.reference r).resolution = .unresolved
  · simp only [hopen, bne_self_eq_false, Bool.false_eq_true, if_false, yields_set]
    exact ⟨rfl, trivial⟩
  · have hne : ((p.reference r).resolution != .unresolved) = true := by simpa using hopen
    simp only [hne, if_true, yields_throw]

theorem settles_resolving (hl : p.ledger.WellFormed)
    (hopen : (p.reference r).resolution = .unresolved) (resolution : Resolution) :
    p.Settles (p.resolving r resolution) := by
  have hkeeps : p.Keeps (p.resolving r resolution) := by
    constructor
    · rfl
    · rfl
    · rfl
    · rfl
    · intro n; rfl
    · intro n; rfl
    · intro n; rfl
    · intro n; rfl
    · intro n; rfl
    · intro n root hroot; exact hroot
    · simp [resolving]
    · intro q
      exact reference_resolving_same p r q resolution Reference.qualifier fun _ _ => rfl
    · intro q
      exact reference_resolving_same p r q resolution Reference.name fun _ _ => rfl
    · intro q
      exact reference_resolving_same p r q resolution Reference.target fun _ _ => rfl
    · exact hl
    · exact Ledger.Extends.refl _
  refine ⟨hkeeps, rfl, fun _ => rfl, ?_, fun _ _ => ⟨rfl, rfl⟩⟩
  intro q hq
  rw [reference_resolving, if_neg]
  rintro ⟨rfl, -⟩
  exact hq hopen

theorem Linkable.resolving (h : Linkable p trees) (hr : r ∈ (p.spaceAt n).references)
    (hopen : (p.reference r).resolution = .unresolved) {resolution : Resolution}
    (hdenotes : (p.resolving r resolution).Denotes n r) :
    p.Settles (p.resolving r resolution) ∧ Linkable (p.resolving r resolution) trees := by
  have hsettles := settles_resolving h.wellFormed hopen resolution
  refine ⟨hsettles, h.settles hsettles h.accounts ?_ ?_⟩
  · intro m q hq hq_open
    by_cases hqr : r = q
    · subst hqr
      rw [h.reference_owner m n r hq hr]
      exact Or.inr hdenotes
    · left
      rw [reference_resolving, if_neg (fun hc => hqr hc.1)]
      exact hq_open
  · intro m root hroot s hs hchain g hg hg_open
    exact Or.inl hg_open

theorem yields_linkTarget (qualifier : Text) :
    Yields (linkTarget n qualifier) p fun target p' =>
      p' = p ∧ p.LeadsTo n qualifier target.1 target.2 := by
  simp only [linkTarget, yields_bind]
  refine (yields_importTarget qualifier).mono ?_
  rintro m p₁ ⟨rfl, htarget⟩
  simp only [yields_get]
  cases hroot : (p₁.spaceAt m).root with
  | none => simp
  | some root =>
      simp only [yields_pure]
      exact ⟨trivial, htarget, hroot⟩

theorem yields_resolveReference (h : Linkable p trees) (hn : ∃ t ∈ trees, t.owner = n)
    (hr : r ∈ (p.spaceAt n).references) :
    Yields (resolveReference n r) p fun _ p' =>
      p.Settles p' ∧ Linkable p' trees ∧ (p'.reference r).resolution ≠ .unresolved := by
  obtain ⟨t, ht, rfl⟩ := hn
  have hlt := h.reference_lt t.owner r hr
  -- Whatever is found for the reference, settling it is one step.
  have hsettle : ∀ resolution, resolution ≠ .unresolved →
      (∀ s, resolution = .value s → ∃ m root, p.LeadsTo t.owner (p.reference r).qualifier m root ∧
        (p.spaceAt m).enum? (p.reference r).name = none ∧
          s ∈ p.symbolsOf m (p.reference r).name) →
      (∃ m root, p.LeadsTo t.owner (p.reference r).qualifier m root) →
      Yields (settle r resolution) p fun _ p' =>
        p.Settles p' ∧ Linkable p' trees ∧ (p'.reference r).resolution ≠ .unresolved := by
    intro resolution hne hvalue hleads
    refine (yields_settle r resolution).mono ?_
    rintro _ p' ⟨rfl, hopen⟩
    have hnew : (p.resolving r resolution).reference r =
        { p.reference r with resolution } := by
      rw [reference_resolving, if_pos ⟨rfl, hlt⟩]
    have hstep := settles_resolving h.wellFormed hopen resolution
    have hdenotes : (p.resolving r resolution).Denotes t.owner r := by
      rw [Denotes, hnew]
      cases resolution with
      | unresolved => exact absurd rfl hne
      | entry space enum name value =>
          obtain ⟨m, root, hleads⟩ := hleads
          exact ⟨m, root, hleads.settles hstep, trivial⟩
      | value s =>
          obtain ⟨m, root, hleads, henum, hs⟩ := hvalue s rfl
          refine ⟨m, root, hleads.settles hstep, ?_, ?_⟩
          · rw [hstep.enum?]
            exact henum
          · rw [hstep.symbolsOf]
            exact hs
    obtain ⟨hsettles, hlinkable⟩ := h.resolving hr hopen hdenotes
    refine ⟨hsettles, hlinkable, ?_⟩
    rw [hnew]
    exact hne
  simp only [resolveReference, yields_bind, yields_get]
  refine (yields_linkTarget _).mono ?_
  rintro ⟨m, root⟩ p₁ ⟨rfl, hleads⟩
  dsimp only
  split
  · next enum henum =>
      split
      · simp
      · split
        · simp
        · exact hsettle _ (by simp) (by simp) ⟨m, root, hleads⟩
  · next henum =>
      split
      · simp
      · split
        · next s hs =>
            refine hsettle _ (by simp) ?_ ⟨m, root, hleads⟩
            intro s' hs'
            cases hs'
            refine ⟨m, root, hleads, henum, ?_⟩
            rcases Option.or_eq_some_iff.mp hs with htarget | ⟨-, hhead⟩
            · obtain ⟨m', hm', hmem⟩ := h.targeted t ht r hr s htarget
              rw [hleads.target] at hm'
              cases hm'
              exact hmem
            · exact List.mem_of_mem_head? hhead
        · simp

theorem settles_ledger {l : Ledger} (hl : l.WellFormed) (hext : p.ledger.Extends l)
    (hscopes : l.scopes = p.ledger.scopes) (hf : p.IsOpen f)
    (hother : ∀ g, f ≠ g → l.foreignUsage g = p.ledger.foreignUsage g) :
    p.Settles { p with ledger := l } where
  toKeeps := keeps_ledger hl hext
  scopes := hscopes
  roots _ := rfl
  resolved _ _ := rfl
  tied g hg := by
    have hne : f ≠ g := by
      rintro rfl
      exact hg hf
    change (l.foreignUsage g).resolved = _ ∧ (l.foreignUsage g).isEnum = _
    rw [hother g hne]
    exact ⟨rfl, rfl⟩

/-- Settling a record of a namespace keeps the invariant. -/
theorem Linkable.record (h : Linkable p trees) {l : Ledger} {s : ScopeId}
    (hroot : (p.spaceAt n).root = some root) (hchain : root ∈ p.ledger.chain s)
    (hf : f ∈ (p.ledger.scope s).foreign) (hp : p.Settles { p with ledger := l })
    (haccounts : l.Accounts (placedReads trees))
    (hother : ∀ g, f ≠ g → l.foreignUsage g = p.ledger.foreignUsage g)
    (htied : Tied { p with ledger := l } n f) : Linkable { p with ledger := l } trees := by
  refine h.settles hp haccounts ?_ ?_
  · intro m r hr hopen
    exact Or.inl hopen
  · intro m root' hroot' s' hs' hchain' g hg hopen
    by_cases hfg : f = g
    · subst hfg
      rw [h.record_owner hroot' hroot hchain' hchain hg hf]
      exact Or.inr htied
    · left
      change (l.foreignUsage g).resolved = none ∧ (l.foreignUsage g).isEnum = false
      rw [hother g hfg]
      exact hopen

theorem foreignUsage_markEnum (l : Ledger) (hf : f < l.foreign.size) (g : ForeignId) :
    (l.markEnum f).foreignUsage g =
      if f = g then { l.foreignUsage g with isEnum := true } else l.foreignUsage g := by
  rw [Ledger.markEnum, Ledger.foreignUsage_modifyForeign_of_lt hf]

theorem definedUsage?_eq_some {name : Text} {u : UsageId}
    (h : p.definedUsage? n root name = some u) :
    p.ledger.find? root (Symbol.idOf (p.spaceAt n).id name) = some u := by
  rw [definedUsage?] at h
  split at h
  · next v hv =>
      split at h
      · cases h
        exact hv
      · cases h
  · cases h

theorem Linkable.markEnum (h : Linkable p trees) {s : ScopeId}
    (hroot : (p.spaceAt n).root = some root) (hchain : root ∈ p.ledger.chain s)
    (hf : f ∈ (p.ledger.scope s).foreign) (hopen : p.IsOpen f) {root' : ScopeId}
    (hleads : p.LeadsTo n (p.ledger.foreignUsage f).qualifier m root')
    (henum : ((p.spaceAt m).enum? (p.ledger.foreignUsage f).name).isSome = true) :
    let p' := { p with ledger := p.ledger.markEnum f }
    p.Settles p' ∧ Linkable p' trees ∧ ¬p'.IsOpen f := by
  intro p'
  have hlt := h.wellFormed.foreign_lt s f hf
  have husage := foreignUsage_markEnum p.ledger hlt
  have hother : ∀ g, f ≠ g →
      (p.ledger.markEnum f).foreignUsage g = p.ledger.foreignUsage g := by
    intro g hfg
    rw [husage, if_neg hfg]
  have hwf : (p.ledger.markEnum f).WellFormed :=
    h.wellFormed.modifyForeign f _ fun _ _ hx => Or.inl hx
  have hext : p.ledger.Extends (p.ledger.markEnum f) :=
    Ledger.extends_modifyForeign _ f _ fun _ => ⟨rfl, rfl⟩
  have hsettles : p.Settles p' := settles_ledger hwf hext rfl hopen hother
  have hnew : p'.ledger.foreignUsage f = { p.ledger.foreignUsage f with isEnum := true } := by
    rw [show p'.ledger.foreignUsage f = _ from husage f, if_pos rfl]
  have htied : p'.Tied n f := by
    refine ⟨m, root', ?_, Or.inl ⟨?_, ?_⟩⟩
    · rw [hnew]
      exact hleads.settles hsettles
    · rw [hnew]
    · rw [hnew, hsettles.enum?]
      exact henum
  have haccounts : (p.ledger.markEnum f).Accounts (placedReads trees) := by
    refine h.accounts.congr (fun _ => rfl) (fun g => ?_) (fun g => ?_)
    · rw [husage]
      split <;> rfl
    · rw [husage]
      split <;> rfl
  exact ⟨hsettles, h.record hroot hchain hf hsettles haccounts hother htied, htied.not_isOpen⟩

theorem Linkable.tie (h : Linkable p trees) {s : ScopeId}
    (hroot : (p.spaceAt n).root = some root) (hchain : root ∈ p.ledger.chain s)
    (hf : f ∈ (p.ledger.scope s).foreign) (hopen : p.IsOpen f) {root' : ScopeId}
    (hleads : p.LeadsTo n (p.ledger.foreignUsage f).qualifier m root') {u : UsageId}
    (hu : p.definedUsage? m root' (p.ledger.foreignUsage f).name = some u) :
    let p' := { p with ledger := p.ledger.tie f u }
    p.Settles p' ∧ Linkable p' trees ∧ ¬p'.IsOpen f := by
  intro p'
  have hfind := definedUsage?_eq_some hu
  have hlt := h.wellFormed.foreign_lt s f hf
  have hu_lt := h.wellFormed.lt_of_find? hfind
  have husage := Ledger.foreignUsage_tie hlt u
  have hother : ∀ g, f ≠ g → (p.ledger.tie f u).foreignUsage g = p.ledger.foreignUsage g := by
    intro g hfg
    rw [husage, if_neg hfg]
  have hwf : (p.ledger.tie f u).WellFormed := by
    refine (h.wellFormed.modifyForeign f _ ?_).modifyUsage u _
    intro x v hv
    cases hv
    exact Or.inr hu_lt
  have hext : p.ledger.Extends (p.ledger.tie f u) := by
    refine Ledger.Extends.trans (Ledger.extends_modifyForeign p.ledger f
      (fun usage => { usage with resolved := some u }) fun _ => ⟨rfl, rfl⟩) ?_
    exact Ledger.extends_modifyUsage _ u _ fun _ => rfl
  have hsettles : p.Settles p' := settles_ledger hwf hext rfl hopen hother
  have hnew : p'.ledger.foreignUsage f =
      { p.ledger.foreignUsage f with resolved := some u } := by
    rw [show p'.ledger.foreignUsage f = _ from husage f, if_pos rfl]
  have htied : p'.Tied n f := by
    refine ⟨m, root', ?_, Or.inr ⟨u, ?_, ?_⟩⟩
    · rw [hnew]
      exact hleads.settles hsettles
    · rw [hnew]
    · rw [hnew, hsettles.id, hsettles.find? h.wellFormed (h.root_lt hleads.rooted)]
      exact hfind
  have haccounts := h.accounts.tie hlt hu_lt hopen.1
  exact ⟨hsettles, h.record hroot hchain hf hsettles haccounts hother htied, htied.not_isOpen⟩

theorem yields_linkUsage (h : Linkable p trees) {s : ScopeId}
    (hroot : (p.spaceAt n).root = some root) (hchain : root ∈ p.ledger.chain s)
    (hf : f ∈ (p.ledger.scope s).foreign) (hopen : p.IsOpen f) :
    Yields (linkUsage n f) p fun _ p' => p.Settles p' ∧ Linkable p' trees ∧ ¬p'.IsOpen f := by
  simp only [linkUsage, yields_bind, yields_get]
  refine (yields_linkTarget _).mono ?_
  rintro ⟨m, root'⟩ p₁ ⟨rfl, hleads⟩
  dsimp only
  split
  · next henum =>
      simp only [yields_set]
      exact h.markEnum hroot hchain hf hopen hleads henum
  · split
    · next u hu =>
        simp only [yields_set]
        exact h.tie hroot hchain hf hopen hleads hu
    · simp

/-! ## Whole namespaces -/

structure Linked (p : Program) (n : NamespaceId) : Prop where
  references : ∀ r ∈ (p.spaceAt n).references, (p.reference r).resolution ≠ .unresolved
  records : ∀ root, (p.spaceAt n).root = some root → ∀ s < p.ledger.scopes.size,
    root ∈ p.ledger.chain s → ∀ f ∈ (p.ledger.scope s).foreign, ¬p.IsOpen f

theorem Linked.settles (h : p.Linked n) (hp : p.Settles p') : p'.Linked n where
  references r hr := by
    rw [hp.spaceReferences] at hr
    exact hp.resolution_ne (h.references r hr)
  records root hroot s hs hchain f hf := by
    rw [hp.roots] at hroot
    rw [hp.scopes] at hs
    rw [hp.chain] at hchain
    rw [hp.scope] at hf
    exact hp.not_isOpen (h.records root hroot s hs hchain f hf)

theorem yields_linkReferences (h : Linkable p trees) (hn : ∃ t ∈ trees, t.owner = n) :
    Yields (forIn (p.spaceAt n).references PUnit.unit fun r _ => do
        if !((← get).reference r).isResolved then resolveReference n r
        return ForInStep.yield PUnit.unit : Linking PUnit) p fun _ p' =>
      p.Settles p' ∧ Linkable p' trees ∧
        ∀ r ∈ (p'.spaceAt n).references, (p'.reference r).resolution ≠ .unresolved := by
  refine (Yields.forIn_list (fun before p' => p.Settles p' ∧ Linkable p' trees ∧
    ∀ r ∈ before, (p'.reference r).resolution ≠ .unresolved) ?_ ?_).mono ?_
  · rintro before r after hsplit p₁ ⟨hsettles, hlinkable, hbefore⟩
    have hr : r ∈ (p₁.spaceAt n).references := by
      rw [hsettles.spaceReferences, hsplit]
      simp
    simp only [yields_bind, yields_get]
    by_cases hopen : (!(p₁.reference r).isResolved) = true
    · rw [if_pos hopen]
      simp only [yields_bind, yields_pure, true_and]
      refine (yields_resolveReference hlinkable hn hr).mono ?_
      rintro _ p₂ ⟨hstep, hlinkable₂, hresolved⟩
      refine ⟨hsettles.trans hstep, hlinkable₂, ?_⟩
      intro q hq
      rcases List.mem_append.mp hq with hold | hlast
      · exact hstep.resolution_ne (hbefore q hold)
      · rw [List.mem_singleton.mp hlast]
        exact hresolved
    · rw [if_neg hopen]
      simp only [yields_pure, true_and]
      refine ⟨hsettles, hlinkable, ?_⟩
      intro q hq
      rcases List.mem_append.mp hq with hold | hlast
      · exact hbefore q hold
      · rw [List.mem_singleton.mp hlast]
        simpa [Reference.isResolved] using hopen
  · exact ⟨Settles.refl h.wellFormed, h, by simp⟩
  · rintro _ p' ⟨hsettles, hlinkable, hall⟩
    refine ⟨hsettles, hlinkable, ?_⟩
    rw [hsettles.spaceReferences]
    exact hall

theorem yields_linkScope (h : Linkable p trees) {s : ScopeId}
    (hroot : (p.spaceAt n).root = some root) (hchain : root ∈ p.ledger.chain s) :
    Yields (forIn (p.ledger.scope s).foreign PUnit.unit fun f _ => do
        let usage := (← get).ledger.foreignUsage f
        if usage.resolved.isNone && !usage.isEnum then linkUsage n f
        return ForInStep.yield PUnit.unit : Linking PUnit) p fun _ p' =>
      p.Settles p' ∧ Linkable p' trees ∧ ∀ f ∈ (p.ledger.scope s).foreign, ¬p'.IsOpen f := by
  refine Yields.forIn_list (fun before p' => p.Settles p' ∧ Linkable p' trees ∧
    ∀ f ∈ before, ¬p'.IsOpen f) ?_ ⟨Settles.refl h.wellFormed, h, by simp⟩
  rintro before f after hsplit p₁ ⟨hsettles, hlinkable, hbefore⟩
  have hf : f ∈ (p₁.ledger.scope s).foreign := by
    rw [hsettles.scope, hsplit]
    simp
  simp only [yields_bind, yields_get]
  split
  · next hopen =>
      simp only [yields_bind, yields_pure, true_and]
      have hopen' : p₁.IsOpen f := by simpa [IsOpen] using hopen
      refine (yields_linkUsage hlinkable (by rw [hsettles.roots]; exact hroot)
        (by rw [hsettles.chain]; exact hchain) hf hopen').mono ?_
      rintro _ p₂ ⟨hstep, hlinkable₂, hclosed⟩
      refine ⟨hsettles.trans hstep, hlinkable₂, ?_⟩
      intro g hg
      rcases List.mem_append.mp hg with hold | hlast
      · exact hstep.not_isOpen (hbefore g hold)
      · rw [List.mem_singleton.mp hlast]
        exact hclosed
  · next hclosed =>
      simp only [yields_pure, true_and]
      refine ⟨hsettles, hlinkable, ?_⟩
      intro g hg
      rcases List.mem_append.mp hg with hold | hlast
      · exact hbefore g hold
      · rw [List.mem_singleton.mp hlast]
        rintro ⟨hresolved, hisEnum⟩
        simp [hresolved, hisEnum] at hclosed

theorem yields_linkScopes (h : Linkable p trees) (hroot : (p.spaceAt n).root = some root) :
    Yields (forIn (p.ledger.below root) PUnit.unit fun s _ => do
        for f in ((← get).ledger.scope s).foreign do
          let usage := (← get).ledger.foreignUsage f
          if usage.resolved.isNone && !usage.isEnum then linkUsage n f
        return ForInStep.yield PUnit.unit : Linking PUnit) p fun _ p' =>
      p.Settles p' ∧ Linkable p' trees ∧ ∀ s < p.ledger.scopes.size,
        root ∈ p.ledger.chain s → ∀ f ∈ (p.ledger.scope s).foreign, ¬p'.IsOpen f := by
  refine (Yields.forIn_list (fun before p' => p.Settles p' ∧ Linkable p' trees ∧
    ∀ s ∈ before, ∀ f ∈ (p.ledger.scope s).foreign, ¬p'.IsOpen f) ?_ ?_).mono ?_
  · rintro before s after hsplit p₁ ⟨hsettles, hlinkable, hbefore⟩
    have hchain : root ∈ p.ledger.chain s := by
      have hbelow : s ∈ p.ledger.belowFuel p.ledger.scopes.size root := by
        rw [show p.ledger.belowFuel _ root = _ from hsplit]
        simp
      exact (h.wellFormed.mem_chain_of_mem_belowFuel hbelow).1
    simp only [yields_bind, yields_get]
    refine (yields_linkScope hlinkable (by rw [hsettles.roots]; exact hroot)
      (by rw [hsettles.chain]; exact hchain)).mono ?_
    rintro _ p₂ ⟨hstep, hlinkable₂, hclosed⟩
    simp only [yields_pure, true_and]
    refine ⟨hsettles.trans hstep, hlinkable₂, ?_⟩
    intro t ht f hf
    rcases List.mem_append.mp ht with hold | hlast
    · exact hstep.not_isOpen (hbefore t hold f hf)
    · rw [List.mem_singleton.mp hlast] at hf
      rw [hsettles.scope] at hclosed
      exact hclosed f hf
  · exact ⟨Settles.refl h.wellFormed, h, by simp⟩
  · rintro _ p' ⟨hsettles, hlinkable, hall⟩
    refine ⟨hsettles, hlinkable, ?_⟩
    intro s hs hchain f hf
    exact hall s (h.wellFormed.mem_below hs hchain) f hf

theorem yields_link (h : Linkable p trees) (hn : ∃ t ∈ trees, t.owner = n) :
    Yields (link n) p fun _ p' => p.Settles p' ∧ Linkable p' trees ∧ p'.Linked n := by
  simp only [link, yields_bind, yields_get]
  cases hroot : (p.spaceAt n).root with
  | none => simp
  | some root =>
      simp only [yields_bind]
      refine (yields_linkReferences h hn).mono ?_
      rintro _ p₁ ⟨hsettles₁, hlinkable₁, hreferences⟩
      simp only [yields_get]
      have hroot₁ : (p₁.spaceAt n).root = some root := by
        rw [hsettles₁.roots]
        exact hroot
      refine (yields_linkScopes hlinkable₁ hroot₁).mono ?_
      rintro _ p₂ ⟨hsettles₂, hlinkable₂, hrecords⟩
      have hlinked : p₂.Linked n := by
        constructor
        · intro r hr
          rw [hsettles₂.spaceReferences] at hr
          exact hsettles₂.resolution_ne (hreferences r hr)
        · intro root' hroot' s hs hchain f hf
          rw [hsettles₂.roots, hroot₁] at hroot'
          cases hroot'
          rw [hsettles₂.scopes] at hs
          rw [hsettles₂.chain] at hchain
          rw [hsettles₂.scope] at hf
          exact hrecords s hs hchain f hf
      refine (yields_advance_keeps hlinkable₂.wellFormed _).mono ?_
      rintro _ p₃ ⟨hkeeps, hledger, hrefs, hroots⟩
      have hreference : ∀ r, p₃.reference r = p₂.reference r := by
        intro r
        rw [reference, hrefs]
        rfl
      have hstep : p₂.Settles p₃ := by
        refine ⟨hkeeps, by rw [hledger], hroots, ?_, ?_⟩
        · intro r _
          rw [hreference]
        · intro f _
          rw [hledger]
          exact ⟨rfl, rfl⟩
      have hlinkable₃ : Linkable p₃ trees := by
        refine hlinkable₂.settles hstep (by rw [hledger]; exact hlinkable₂.accounts) ?_ ?_
        · intro m r _ hopen
          rw [hreference]
          exact Or.inl hopen
        · intro m root' _ s _ _ f _ hopen
          rw [IsOpen, hledger]
          exact Or.inl hopen
      exact ⟨(hsettles₁.trans hsettles₂).trans hstep, hlinkable₃, hlinked.settles hstep⟩

theorem linkAll_cons (t : Tree) (rest : List Tree) :
    linkAll (t :: rest) = (do link t.owner; linkAll rest : Linking Unit) := rfl

theorem yields_linkAll (h : Linkable p trees) {rest : List Tree} (hrest : ∀ t ∈ rest, t ∈ trees) :
    Yields (linkAll rest) p fun _ p' =>
      p.Settles p' ∧ Linkable p' trees ∧ ∀ t ∈ rest, p'.Linked t.owner := by
  induction rest generalizing p with
  | nil =>
      change Yields (pure ()) p _
      rw [yields_pure]
      exact ⟨Settles.refl h.wellFormed, h, by simp⟩
  | cons t rest ih =>
      rw [linkAll_cons, yields_bind]
      refine (yields_link h ⟨t, hrest t (by simp), rfl⟩).mono ?_
      rintro _ p₁ ⟨hsettles₁, hlinkable₁, hlinked⟩
      refine (ih hlinkable₁ fun u hu => hrest u (List.mem_cons_of_mem _ hu)).mono ?_
      rintro _ p₂ ⟨hsettles₂, hlinkable₂, hall⟩
      refine ⟨hsettles₁.trans hsettles₂, hlinkable₂, ?_⟩
      intro u hu
      rcases List.mem_cons.mp hu with rfl | hu
      · exact hlinked.settles hsettles₂
      · exact hall u hu

end Splice.Program

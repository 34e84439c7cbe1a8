import Splice.Proofs.Build.Linking

/-!
# What linking finds

What a reference denotes and what a record is tied to can be told before anything is
linked: `Program.resolution?` and `Program.tie?` look at imports, enums and outermost
scopes, and linking changes none of them (`Program.SameTargets`).  So every step of
linking settles what the two functions say of the program that linking started from
(`Program.Follows`), and linking succeeds if they have an answer for everything
(`Program.ends_linkAll`).  If it does not, a source is to blame, as long as everything leads
to a namespace that was analysed (`Program.Directed`).
-/

namespace Splice.Program

variable {p q q' : Program} {n m : NamespaceId} {r : ReferenceId} {f : ForeignId}
  {trees : List Tree}

def linkTarget? (p : Program) (n : NamespaceId) (qualifier : Text) :
    Option (NamespaceId × ScopeId) :=
  (p.importTarget? n qualifier).bind fun m => (p.spaceAt m).root.map (Prod.mk m)

def resolution? (p : Program) (n : NamespaceId) (r : ReferenceId) : Option Resolution :=
  (p.linkTarget? n (p.reference r).qualifier).bind fun target =>
    match (p.spaceAt target.1).enum? (p.reference r).name with
    | some enum =>
        if (p.reference r).member.isEmpty then none
        else (enum.entry? (p.reference r).member).map fun entry =>
          .entry (p.spaceAt target.1).id enum.name entry.name entry.value
    | none =>
        (p.definedUsage? target.1 target.2 (p.reference r).name).bind fun _ =>
          ((p.reference r).target.or (p.symbolsOf target.1 (p.reference r).name).head?).map
            .value

/-- What a record of a foreign name is tied to; an enum has no binding. -/
def tie? (p : Program) (n : NamespaceId) (f : ForeignId) : Option (Option UsageId) :=
  (p.linkTarget? n (p.ledger.foreignUsage f).qualifier).bind fun target =>
    if ((p.spaceAt target.1).enum? (p.ledger.foreignUsage f).name).isSome then some none
    else (p.definedUsage? target.1 target.2 (p.ledger.foreignUsage f).name).map some

def tying (p : Program) (f : ForeignId) : Option UsageId → Program
  | none => { p with ledger := p.ledger.markEnum f }
  | some u => { p with ledger := p.ledger.tie f u }

/-- The failures that are due to what sources ask for: an enum is used as a value, or a
name is not defined where it is looked for. -/
inductive Unlinked : Failure → Prop
  | enumValue (unit : SourceUnit) (r : Reference) :
      Unlinked (.source ⟨"enum " ++ r.spelling ++ " cannot be used as a value", some unit,
        r.offset⟩)
  | reference (p : Program) (n target : NamespaceId) (r : Reference) (what : Text) :
      Unlinked (p.unresolvedFailure n target r what)
  | record (what owner : Text) : Unlinked (.coded (notDefined what owner))

/-- How linking fails: not if there is an answer, and only because of what sources ask for
if it is known where they lead. -/
def Refuses (answered reached : Prop) (e : Failure) : Prop :=
  ¬answered ∧ (reached → Unlinked e)

theorem Refuses.mono {answered reached answered' reached' : Prop} {e : Failure}
    (h : Refuses answered reached e) (hanswered : answered' → answered)
    (hreached : reached' → reached) : Refuses answered' reached' e :=
  ⟨fun ha => h.1 (hanswered ha), fun hr => h.2 (hreached hr)⟩

theorem ends_importTarget (qualifier : Text) :
    Ends (importTarget n qualifier) p (fun _ => p.importTarget? n qualifier = none) fun m p' =>
      p' = p ∧ p.importTarget? n qualifier = some m := by
  unfold importTarget? importTarget
  simp only [ends_bind, ends_get]
  by_cases hempty : qualifier.isEmpty = true
  · simp only [hempty, if_true]
    split
    · next std hstd => exact ⟨rfl, hstd⟩
    · next hstd => exact hstd
  · simp only [hempty, Bool.false_eq_true, if_false]
    split
    · next target htarget => exact ⟨rfl, htarget⟩
    · next htarget => exact htarget

theorem ends_linkTarget (qualifier : Text) :
    Ends (linkTarget n qualifier) p (fun _ => p.linkTarget? n qualifier = none)
      fun target p' => p' = p ∧ p.linkTarget? n qualifier = some target := by
  simp only [linkTarget, ends_bind]
  refine ((ends_importTarget qualifier).expecting ?_).mono ?_
  · intro _ hnone
    rw [linkTarget?, hnone]
    rfl
  · rintro m p₁ ⟨rfl, hm⟩
    have htarget : p₁.linkTarget? n qualifier = (p₁.spaceAt m).root.map (Prod.mk m) := by
      rw [linkTarget?, hm]
      rfl
    simp only [ends_get]
    split
    · next root hroot =>
        refine ⟨rfl, ?_⟩
        rw [htarget, hroot]
        rfl
    · next hroot =>
        change p₁.linkTarget? n qualifier = none
        rw [htarget, hroot]
        rfl

theorem ends_settle {expected : Failure → Prop} (hopen : (p.reference r).resolution = .unresolved)
    (resolution : Resolution) :
    Ends (settle r resolution) p expected fun _ p' => p' = p.resolving r resolution := by
  simp only [settle, ends_bind, ends_get, Reference.resolve, Reference.isResolved, hopen,
    bne_self_eq_false, Bool.false_eq_true, if_false, ends_set]
  rfl

/-- Finding out what a reference denotes gives the answer that is known. -/
theorem ends_resolveReference (hopen : (p.reference r).resolution = .unresolved) :
    Ends (resolveReference n r) p
      (Refuses ((p.resolution? n r).isSome = true)
        ((p.linkTarget? n (p.reference r).qualifier).isSome = true)) fun _ p' =>
      ∃ resolution, p.resolution? n r = some resolution ∧ p' = p.resolving r resolution := by
  have hsettle : ∀ {expected} resolution, p.resolution? n r = some resolution →
      Ends (settle r resolution) p expected fun _ p' =>
        ∃ resolution, p.resolution? n r = some resolution ∧ p' = p.resolving r resolution := by
    intro expected resolution hresolution
    refine (ends_settle hopen resolution).mono ?_
    intro _ p' hp'
    exact ⟨resolution, hresolution, hp'⟩
  simp only [resolveReference, ends_bind, ends_get]
  refine ((ends_linkTarget _).expecting ?_).mono ?_
  · intro _ hnone
    constructor
    · simp [resolution?, hnone]
    · simp [hnone]
  rintro ⟨m, root⟩ p₁ ⟨rfl, htarget⟩
  split
  · next enum henum =>
      split
      · next hmember =>
          exact ⟨by simp [resolution?, htarget, henum, hmember], fun _ => .enumValue _ _⟩
      · next hmember =>
          split
          · next hentry =>
              exact ⟨by simp [resolution?, htarget, henum, hentry],
                fun _ => .reference _ _ _ _ _⟩
          · next entry hentry =>
              apply hsettle
              simp [resolution?, htarget, henum, hmember, hentry]
  · next henum =>
      split
      · next hdefined =>
          exact ⟨by simp [resolution?, htarget, henum, hdefined], fun _ => .reference _ _ _ _ _⟩
      · next u hdefined =>
          split
          · next s hs =>
              apply hsettle
              simp only [resolution?, htarget, Option.bind_some, henum, hdefined, hs,
                Option.map_some]
          · next hs =>
              refine ⟨?_, fun _ => .reference _ _ _ _ _⟩
              simp only [resolution?, htarget, Option.bind_some, henum, hdefined, hs,
                Option.map_none, Option.isSome_none, Bool.false_eq_true, not_false_iff]

/-- Linking a record gives the tie that is known. -/
theorem ends_linkUsage :
    Ends (linkUsage n f) p
      (Refuses ((p.tie? n f).isSome = true)
        ((p.linkTarget? n (p.ledger.foreignUsage f).qualifier).isSome = true)) fun _ p' =>
      ∃ target, p.tie? n f = some target ∧ p' = p.tying f target := by
  simp only [linkUsage, ends_bind, ends_get]
  refine ((ends_linkTarget _).expecting ?_).mono ?_
  · intro _ hnone
    constructor
    · simp [tie?, hnone]
    · simp [hnone]
  rintro ⟨m, root⟩ p₁ ⟨rfl, htarget⟩
  split
  · next henum =>
      refine ⟨none, ?_, rfl⟩
      simp [tie?, htarget, henum]
  · next henum =>
      split
      · next u hu =>
          refine ⟨some u, ?_, rfl⟩
          simp [tie?, htarget, henum, hu]
      · next hu =>
          exact ⟨by simp [tie?, htarget, henum, hu], fun _ => .record _ _⟩

/-! ## What linking leaves alone -/

/-- Linking changes how far namespaces have come, what references denote, who reads a
binding and what records are tied to, and nothing else. -/
structure SameTargets (p q : Program) : Prop where
  std : q.std = p.std
  symbols : q.symbols = p.symbols
  size : q.namespaces.size = p.namespaces.size
  space : ∀ n, ∃ stage, q.spaceAt n = { p.spaceAt n with stage }
  references_size : q.references.size = p.references.size
  reference : ∀ r, ∃ resolution, q.reference r = { p.reference r with resolution }
  scopes : q.ledger.scopes = p.ledger.scopes
  usage : ∀ u, ∃ readers, q.ledger.usage u = { p.ledger.usage u with readers }
  foreign_size : q.ledger.foreign.size = p.ledger.foreign.size
  record : ∀ f, ∃ resolved isEnum,
    q.ledger.foreignUsage f = { p.ledger.foreignUsage f with resolved, isEnum }

theorem SameTargets.refl (p : Program) : p.SameTargets p where
  std := rfl
  symbols := rfl
  size := rfl
  space n := ⟨(p.spaceAt n).stage, rfl⟩
  references_size := rfl
  reference r := ⟨(p.reference r).resolution, rfl⟩
  scopes := rfl
  usage u := ⟨(p.ledger.usage u).readers, rfl⟩
  foreign_size := rfl
  record _ := ⟨_, _, rfl⟩

theorem SameTargets.trans (h : p.SameTargets q) (h' : q.SameTargets q') : p.SameTargets q' where
  std := h'.std.trans h.std
  symbols := h'.symbols.trans h.symbols
  size := h'.size.trans h.size
  space n := by
    obtain ⟨a, ha⟩ := h.space n
    obtain ⟨b, hb⟩ := h'.space n
    exact ⟨b, by rw [hb, ha]⟩
  references_size := h'.references_size.trans h.references_size
  reference r := by
    obtain ⟨a, ha⟩ := h.reference r
    obtain ⟨b, hb⟩ := h'.reference r
    exact ⟨b, by rw [hb, ha]⟩
  scopes := h'.scopes.trans h.scopes
  usage u := by
    obtain ⟨a, ha⟩ := h.usage u
    obtain ⟨b, hb⟩ := h'.usage u
    exact ⟨b, by rw [hb, ha]⟩
  foreign_size := h'.foreign_size.trans h.foreign_size
  record f := by
    obtain ⟨a, a', ha⟩ := h.record f
    obtain ⟨b, b', hb⟩ := h'.record f
    exact ⟨b, b', by rw [hb, ha]⟩

theorem SameTargets.part {α : Type} (h : p.SameTargets q) (part : Namespace → α)
    (hpart : ∀ ns stage, part { ns with stage } = part ns) (n : NamespaceId) :
    part (q.spaceAt n) = part (p.spaceAt n) := by
  obtain ⟨stage, hstage⟩ := h.space n
  rw [hstage, hpart]

theorem SameTargets.root (h : p.SameTargets q) (n : NamespaceId) :
    (q.spaceAt n).root = (p.spaceAt n).root :=
  h.part Namespace.root (fun _ _ => rfl) n

theorem SameTargets.spaceReferences (h : p.SameTargets q) (n : NamespaceId) :
    (q.spaceAt n).references = (p.spaceAt n).references :=
  h.part Namespace.references (fun _ _ => rfl) n

theorem SameTargets.id (h : p.SameTargets q) (n : NamespaceId) :
    (q.spaceAt n).id = (p.spaceAt n).id :=
  h.part Namespace.id (fun _ _ => rfl) n

theorem SameTargets.enum? (h : p.SameTargets q) (n : NamespaceId) (name : Text) :
    (q.spaceAt n).enum? name = (p.spaceAt n).enum? name :=
  h.part (fun ns => ns.enum? name) (fun _ _ => rfl) n

theorem SameTargets.symbolsOf (h : p.SameTargets q) (n : NamespaceId) (name : Text) :
    q.symbolsOf n name = p.symbolsOf n name :=
  h.part (fun ns => ns.groups.members name) (fun _ _ => rfl) n

theorem SameTargets.importTarget? (h : p.SameTargets q) (n : NamespaceId) (qualifier : Text) :
    q.importTarget? n qualifier = p.importTarget? n qualifier :=
  importTarget?_congr h.std (h.part Namespace.imports (fun _ _ => rfl) n) qualifier

theorem SameTargets.linkTarget? (h : p.SameTargets q) (n : NamespaceId) (qualifier : Text) :
    q.linkTarget? n qualifier = p.linkTarget? n qualifier := by
  unfold Program.linkTarget?
  simp only [h.importTarget?, h.root]

theorem SameTargets.definedUsage? (h : p.SameTargets q) (n : NamespaceId) (root : ScopeId)
    (name : Text) : q.definedUsage? n root name = p.definedUsage? n root name := by
  have hid : ∀ u, (q.ledger.usage u).id = (p.ledger.usage u).id := by
    intro u
    obtain ⟨readers, hu⟩ := h.usage u
    rw [hu]
  have hdefined : ∀ u, (q.ledger.usage u).defined = (p.ledger.usage u).defined := by
    intro u
    obtain ⟨readers, hu⟩ := h.usage u
    rw [hu]
  unfold Program.definedUsage?
  simp only [h.id, Ledger.find?_congr h.scopes hid, hdefined]

theorem SameTargets.resolution? (h : p.SameTargets q) (n : NamespaceId) (r : ReferenceId) :
    q.resolution? n r = p.resolution? n r := by
  obtain ⟨resolution, hr⟩ := h.reference r
  unfold Program.resolution?
  simp only [hr, h.linkTarget?, h.enum?, h.id, h.definedUsage?, h.symbolsOf]

theorem SameTargets.tie? (h : p.SameTargets q) (n : NamespaceId) (f : ForeignId) :
    q.tie? n f = p.tie? n f := by
  obtain ⟨resolved, isEnum, hf⟩ := h.record f
  unfold Program.tie?
  simp only [hf, h.linkTarget?, h.enum?, h.definedUsage?]

theorem sameTargets_resolving (p : Program) (r : ReferenceId) (resolution : Resolution) :
    p.SameTargets (p.resolving r resolution) where
  std := rfl
  symbols := rfl
  size := rfl
  space n := ⟨(p.spaceAt n).stage, rfl⟩
  references_size := by simp [resolving]
  reference k := by
    rw [reference_resolving]
    split
    · next hk =>
        rw [hk.1]
        exact ⟨resolution, rfl⟩
    · exact ⟨(p.reference k).resolution, rfl⟩
  scopes := rfl
  usage u := ⟨(p.ledger.usage u).readers, rfl⟩
  foreign_size := rfl
  record f := ⟨_, _, rfl⟩

theorem foreignUsage_tying (p : Program) (hf : f < p.ledger.foreign.size)
    (target : Option UsageId) (g : ForeignId) :
    (p.tying f target).ledger.foreignUsage g =
      if f = g then
        match target with
        | none => { p.ledger.foreignUsage g with isEnum := true }
        | some u => { p.ledger.foreignUsage g with resolved := some u }
      else p.ledger.foreignUsage g := by
  cases target with
  | none => exact foreignUsage_markEnum p.ledger hf g
  | some u => exact Ledger.foreignUsage_tie hf u g

theorem sameTargets_tying (p : Program) (hf : f < p.ledger.foreign.size)
    (target : Option UsageId) : p.SameTargets (p.tying f target) where
  std := by cases target <;> rfl
  symbols := by cases target <;> rfl
  size := by cases target <;> rfl
  space n := ⟨(p.spaceAt n).stage, by cases target <;> rfl⟩
  references_size := by cases target <;> rfl
  reference r := ⟨(p.reference r).resolution, by cases target <;> rfl⟩
  scopes := by cases target <;> rfl
  usage u := by
    cases target with
    | none => exact ⟨(p.ledger.usage u).readers, rfl⟩
    | some v =>
        change ∃ readers, (p.ledger.tie f v).usage u = _
        rw [Ledger.tie, Ledger.usage_modifyUsage]
        split
        · exact ⟨_, rfl⟩
        · exact ⟨(p.ledger.usage u).readers, rfl⟩
  foreign_size := by cases target <;> simp [tying, Ledger.markEnum, Ledger.tie]
  record g := by
    rw [foreignUsage_tying p hf]
    split
    · cases target with
      | none => exact ⟨_, _, rfl⟩
      | some u => exact ⟨_, _, rfl⟩
    · exact ⟨_, _, rfl⟩

def Owns (p : Program) (n : NamespaceId) (f : ForeignId) : Prop :=
  ∃ root s, (p.spaceAt n).root = some root ∧ root ∈ p.ledger.chain s ∧
    f ∈ (p.ledger.scope s).foreign

theorem Linkable.owner_unique (h : Linkable p trees) (hn : p.Owns n f) (hm : p.Owns m f) :
    n = m := by
  obtain ⟨root, s, hroot, hs, hf⟩ := hn
  obtain ⟨root', s', hroot', hs', hf'⟩ := hm
  exact h.record_owner hroot hroot' hs hs' hf hf'

theorem Owns.lt (h : p.Owns n f) (hl : p.ledger.WellFormed) : f < p.ledger.foreign.size := by
  obtain ⟨root, s, -, -, hf⟩ := h
  exact hl.foreign_lt s f hf

/-- A record has been settled as the answer for it says. -/
def Matches (p q : Program) (n : NamespaceId) (f : ForeignId) : Prop :=
  p.tie? n f = some (q.ledger.foreignUsage f).resolved ∧
    (q.ledger.foreignUsage f).isEnum = (q.ledger.foreignUsage f).resolved.isNone

/-- A later state of linking: everything is open or settled as its answer says. -/
structure Follows (p q : Program) : Prop extends SameTargets p q where
  resolved : ∀ n, ∀ r ∈ (p.spaceAt n).references, (q.reference r).resolution = .unresolved ∨
    p.resolution? n r = some (q.reference r).resolution
  tied : ∀ n f, p.Owns n f → q.IsOpen f ∨ p.Matches q n f

theorem Follows.resolving (hp : Linkable p trees) (h : p.Follows q)
    (hr : r ∈ (p.spaceAt n).references) {resolution : Resolution}
    (hresolution : p.resolution? n r = some resolution) :
    p.Follows (q.resolving r resolution) where
  toSameTargets := h.toSameTargets.trans (sameTargets_resolving q r resolution)
  resolved m k hk := by
    rw [reference_resolving]
    by_cases hrk : r = k
    · subst hrk
      have hlt : r < q.references.size := by
        rw [h.references_size]
        exact hp.reference_lt n r hr
      rw [if_pos ⟨rfl, hlt⟩, hp.reference_owner m n r hk hr]
      exact Or.inr hresolution
    · rw [if_neg (fun hc => hrk hc.1)]
      exact h.resolved m k hk
  tied := h.tied

theorem Follows.tying (hp : Linkable p trees) (h : p.Follows q) (hf : p.Owns n f)
    (hopen : q.IsOpen f) {target : Option UsageId} (htarget : p.tie? n f = some target) :
    p.Follows (q.tying f target) := by
  have hlt : f < q.ledger.foreign.size := by
    rw [h.foreign_size]
    exact hf.lt hp.wellFormed
  have husage := foreignUsage_tying q hlt target
  refine ⟨h.toSameTargets.trans (sameTargets_tying q hlt target), ?_, ?_⟩
  · intro m r hr
    have hsame : (q.tying f target).reference r = q.reference r := by
      cases target <;> rfl
    rw [hsame]
    exact h.resolved m r hr
  · intro m g hg
    by_cases hfg : f = g
    · subst hfg
      right
      rw [hp.owner_unique hg hf]
      unfold Matches
      rw [husage, if_pos rfl, htarget]
      cases target with
      | none => exact ⟨by rw [hopen.1], by rw [hopen.1]; rfl⟩
      | some u => exact ⟨rfl, hopen.2⟩
    · rw [IsOpen, Matches, husage, if_neg hfg]
      exact h.tied m g hg

/-- Every reference and every record of a namespace has an answer. -/
structure Answered (p : Program) (n : NamespaceId) : Prop where
  references : ∀ r ∈ (p.spaceAt n).references, (p.resolution? n r).isSome = true
  records : ∀ f, p.Owns n f → (p.tie? n f).isSome = true

/-- Every reference and every record of a namespace leads to a namespace that was
analysed. -/
structure Directed (p : Program) (n : NamespaceId) : Prop where
  references : ∀ r ∈ (p.spaceAt n).references,
    (p.linkTarget? n (p.reference r).qualifier).isSome = true
  records : ∀ f, p.Owns n f →
    (p.linkTarget? n (p.ledger.foreignUsage f).qualifier).isSome = true

theorem ends_linkReferences (hp : Linkable p trees) (h : p.Follows q) :
    Ends (forIn (p.spaceAt n).references PUnit.unit fun r _ => do
        if !((← get).reference r).isResolved then resolveReference n r
        return ForInStep.yield PUnit.unit : Linking PUnit) q
      (Refuses (p.Answered n) (p.Directed n)) fun _ q' =>
      p.Follows q' ∧ q'.namespaces = q.namespaces := by
  refine Ends.forIn_list (fun _ q' => p.Follows q' ∧ q'.namespaces = q.namespaces) ?_ ⟨h, rfl⟩
  rintro before r after hsplit q₁ ⟨h₁, hspaces⟩
  have hr : r ∈ (p.spaceAt n).references := by
    rw [hsplit]
    simp
  simp only [ends_bind, ends_get]
  by_cases hopen : (q₁.reference r).resolution = .unresolved
  · rw [if_pos (by simp [Reference.isResolved, hopen]), ends_bind]
    refine ((ends_resolveReference hopen).expecting ?_).mono ?_
    · intro e he
      refine he.mono (fun hanswered => ?_) fun hdirected => ?_
      · rw [h₁.resolution?]
        exact hanswered.references r hr
      · obtain ⟨resolution, hreference⟩ := h₁.reference r
        rw [h₁.linkTarget?, hreference]
        exact hdirected.references r hr
    · rintro _ q₂ ⟨resolution, hresolution, rfl⟩
      rw [h₁.resolution?] at hresolution
      exact ⟨rfl, h₁.resolving hp hr hresolution, hspaces⟩
  · rw [if_neg (by simpa [Reference.isResolved] using hopen)]
    exact ⟨rfl, h₁, hspaces⟩

theorem ends_linkScope (hp : Linkable p trees) (h : p.Follows q) {records : List ForeignId}
    (hrecords : ∀ f ∈ records, p.Owns n f) :
    Ends (forIn records PUnit.unit fun f _ => do
        let usage := (← get).ledger.foreignUsage f
        if usage.resolved.isNone && !usage.isEnum then linkUsage n f
        return ForInStep.yield PUnit.unit : Linking PUnit) q
      (Refuses (p.Answered n) (p.Directed n)) fun _ q' =>
      p.Follows q' ∧ q'.namespaces = q.namespaces := by
  refine Ends.forIn_list (fun _ q' => p.Follows q' ∧ q'.namespaces = q.namespaces) ?_ ⟨h, rfl⟩
  rintro before f after hsplit q₁ ⟨h₁, hspaces⟩
  have hf : p.Owns n f := by
    apply hrecords
    rw [hsplit]
    simp
  simp only [ends_bind, ends_get]
  by_cases hopen : q₁.IsOpen f
  · rw [if_pos (by simp [hopen.1, hopen.2]), ends_bind]
    refine (ends_linkUsage.expecting ?_).mono ?_
    · intro e he
      refine he.mono (fun hanswered => ?_) fun hdirected => ?_
      · rw [h₁.tie?]
        exact hanswered.records f hf
      · obtain ⟨resolved, isEnum, hrecord⟩ := h₁.record f
        rw [h₁.linkTarget?, hrecord]
        exact hdirected.records f hf
    · rintro _ q₂ ⟨target, htarget, rfl⟩
      rw [h₁.tie?] at htarget
      refine ⟨rfl, h₁.tying hp hf hopen htarget, ?_⟩
      rw [← hspaces]
      cases target <;> rfl
  · rw [if_neg (by simpa [IsOpen] using hopen)]
    exact ⟨rfl, h₁, hspaces⟩

theorem ends_linkScopes (hp : Linkable p trees) (h : p.Follows q) {scopes : List ScopeId}
    (hscopes : ∀ s ∈ scopes, ∀ f ∈ (p.ledger.scope s).foreign, p.Owns n f) :
    Ends (forIn scopes PUnit.unit fun s _ => do
        for f in ((← get).ledger.scope s).foreign do
          let usage := (← get).ledger.foreignUsage f
          if usage.resolved.isNone && !usage.isEnum then linkUsage n f
        return ForInStep.yield PUnit.unit : Linking PUnit) q
      (Refuses (p.Answered n) (p.Directed n)) fun _ q' =>
      p.Follows q' ∧ q'.namespaces = q.namespaces := by
  refine Ends.forIn_list (fun _ q' => p.Follows q' ∧ q'.namespaces = q.namespaces) ?_ ⟨h, rfl⟩
  rintro before s after hsplit q₁ ⟨h₁, hspaces⟩
  rw [ends_bind, ends_get]
  have hrecords : ∀ f ∈ (q₁.ledger.scope s).foreign, p.Owns n f := by
    rw [Ledger.scope_congr h₁.scopes]
    apply hscopes
    rw [hsplit]
    simp
  rw [ends_bind]
  refine (ends_linkScope hp h₁ hrecords).mono ?_
  rintro _ q₂ ⟨h₂, hspaces₂⟩
  exact ⟨rfl, h₂, hspaces₂.trans hspaces⟩

/-! ## Whole namespaces -/

theorem stage_modifySpace (p : Program) (hn : n < p.namespaces.size) (stage : Stage)
    (m : NamespaceId) :
    ((p.modifySpace n fun ns => { ns with stage }).spaceAt m).stage =
      if n = m then stage else (p.spaceAt m).stage := by
  rw [spaceAt_modifySpace]
  by_cases hnm : n = m
  · rw [if_pos ⟨hnm, hnm ▸ hn⟩, if_pos hnm]
  · rw [if_neg (fun hc => hnm hc.1), if_neg hnm]

theorem Follows.modifySpace (h : p.Follows q) (n : NamespaceId) (stage : Stage) :
    p.Follows (q.modifySpace n fun ns => { ns with stage }) where
  toSameTargets := by
    refine h.toSameTargets.trans ?_
    constructor
    · rfl
    · rfl
    · exact size_modifySpace _
    · intro m
      rw [spaceAt_modifySpace]
      split
      · exact ⟨stage, rfl⟩
      · exact ⟨(q.spaceAt m).stage, rfl⟩
    · rfl
    · exact fun r => ⟨(q.reference r).resolution, rfl⟩
    · rfl
    · exact fun u => ⟨(q.ledger.usage u).readers, rfl⟩
    · rfl
    · exact fun f => ⟨_, _, rfl⟩
  resolved := h.resolved
  tied := h.tied

/-- A namespace that has not come further can be moved forward. -/
theorem advance_eq {stage : Stage} (h : (q.spaceAt n).stage.rank ≤ stage.rank) :
    advance n stage q = .ok () (q.modifySpace n fun ns => { ns with stage }) := by
  rw [advance, get_bind_eq, if_neg (not_lt.mpr h)]
  rfl

theorem ends_advance {expected : Failure → Prop} {stage : Stage}
    (h : (q.spaceAt n).stage.rank ≤ stage.rank) :
    Ends (advance n stage) q expected fun _ q' =>
      q' = q.modifySpace n fun ns => { ns with stage } := by
  rw [Ends, advance_eq h]

/-- Linking a namespace moves it forward and leaves the others where they are. -/
theorem ends_link (hp : Linkable p trees) (h : p.Follows q) {root : ScopeId}
    (hroot : (p.spaceAt n).root = some root) (hstage : (q.spaceAt n).stage = .analyzed) :
    Ends (link n) q (Refuses (p.Answered n) (p.Directed n)) fun _ q' =>
      p.Follows q' ∧ (q'.spaceAt n).stage = .crossLinked ∧
        ∀ m ≠ n, (q'.spaceAt m).stage = (q.spaceAt m).stage := by
  have hlt : n < q.namespaces.size := by
    by_contra hle
    rw [spaceAt_of_size_le (Nat.le_of_not_lt (h.size ▸ hle))] at hroot
    cases hroot
  unfold link
  rw [ends_bind, ends_get]
  dsimp only
  rw [h.root, hroot, h.spaceReferences]
  dsimp only
  rw [ends_bind]
  refine (ends_linkReferences hp h).mono ?_
  rintro _ q₁ ⟨h₁, hspaces₁⟩
  rw [ends_bind, ends_get]
  have hscopes : ∀ s ∈ q₁.ledger.below root, ∀ f ∈ (p.ledger.scope s).foreign,
      p.Owns n f := by
    intro s hs f hf
    rw [Ledger.below_congr h₁.scopes] at hs
    exact ⟨root, s, hroot, (hp.wellFormed.mem_chain_of_mem_belowFuel hs).1, hf⟩
  rw [ends_bind]
  refine (ends_linkScopes hp h₁ hscopes).mono ?_
  rintro _ q₂ ⟨h₂, hspaces₂⟩
  have hspaces : q₂.namespaces = q.namespaces := hspaces₂.trans hspaces₁
  have hsame : ∀ m, q₂.spaceAt m = q.spaceAt m := by
    intro m
    unfold spaceAt
    rw [hspaces]
  have hrank : (q₂.spaceAt n).stage.rank ≤ Stage.crossLinked.rank := by
    rw [hsame, hstage]
    decide
  refine (ends_advance hrank).mono ?_
  rintro _ q' rfl
  have hstages := stage_modifySpace q₂ (n := n) (by rw [hspaces]; exact hlt) .crossLinked
  refine ⟨h₂.modifySpace n _, ?_, ?_⟩
  · rw [hstages, if_pos rfl]
  · intro m hm
    rw [hstages, if_neg (Ne.symm hm), hsame]

/-- Linking succeeds if everything has an answer, and then follows the answers. -/
theorem ends_linkAll (hp : Linkable p trees) {rest : List Tree} (h : p.Follows q)
    (hroots : ∀ t ∈ rest, ∃ root, (p.spaceAt t.owner).root = some root)
    (howners : (rest.map Tree.owner).Nodup)
    (hstages : ∀ t ∈ rest, (q.spaceAt t.owner).stage = .analyzed) :
    Ends (linkAll rest) q
      (Refuses (∀ t ∈ rest, p.Answered t.owner) (∀ t ∈ rest, p.Directed t.owner)) fun _ q' =>
      p.Follows q' ∧ (∀ t ∈ rest, (q'.spaceAt t.owner).stage = .crossLinked) ∧
        ∀ m, m ∉ rest.map Tree.owner → (q'.spaceAt m).stage = (q.spaceAt m).stage := by
  induction rest generalizing q with
  | nil => exact ⟨h, fun t ht => (nomatch ht), fun _ _ => rfl⟩
  | cons t rest ih =>
      rw [List.map_cons, List.nodup_cons] at howners
      obtain ⟨root, hroot⟩ := hroots t List.mem_cons_self
      rw [linkAll_cons, ends_bind]
      refine ((ends_link hp h hroot (hstages t List.mem_cons_self)).expecting ?_).mono ?_
      · intro e he
        exact he.mono (fun hall => hall t List.mem_cons_self) fun hall =>
          hall t List.mem_cons_self
      rintro _ q₁ ⟨h₁, hdone, hothers⟩
      have hnew : ∀ u ∈ rest, u.owner ≠ t.owner := by
        intro u hu heq
        exact howners.1 (heq ▸ List.mem_map_of_mem hu)
      have hstages₁ : ∀ u ∈ rest, (q₁.spaceAt u.owner).stage = .analyzed := by
        intro u hu
        rw [hothers u.owner (hnew u hu)]
        exact hstages u (List.mem_cons_of_mem _ hu)
      refine ((ih h₁ (fun u hu => hroots u (List.mem_cons_of_mem _ hu)) howners.2
        hstages₁).expecting ?_).mono ?_
      · intro e he
        exact he.mono (fun hall u hu => hall u (List.mem_cons_of_mem _ hu)) fun hall u hu =>
          hall u (List.mem_cons_of_mem _ hu)
      rintro _ q₂ ⟨h₂, hdone₂, hothers₂⟩
      refine ⟨h₂, ?_, ?_⟩
      · intro u hu
        rcases List.mem_cons.mp hu with rfl | hu
        · rw [hothers₂ _ howners.1]
          exact hdone
        · exact hdone₂ u hu
      · intro m hm
        rw [List.map_cons, List.mem_cons, not_or] at hm
        rw [hothers₂ m hm.2, hothers m hm.1]

theorem modifySpace_eq_self {change : Namespace → Namespace}
    (h : change (p.spaceAt n) = p.spaceAt n) : p.modifySpace n change = p := by
  unfold modifySpace
  suffices hsame : p.namespaces.modify n change = p.namespaces by rw [hsame]
  apply Array.ext_getElem?
  intro m
  rw [Array.getElem?_modify]
  split
  · next hnm =>
      subst hnm
      cases hget : p.namespaces[n]? with
      | none => rfl
      | some ns =>
          have hspace : p.spaceAt n = ns := by simp [spaceAt, hget]
          rw [hspace] at h
          rw [Option.map_some, h]
  · rfl

/-- Linking a namespace that is linked changes nothing. -/
theorem link_eq_of_linked (hl : p.ledger.WellFormed) (h : p.Linked n) {root : ScopeId}
    (hroot : (p.spaceAt n).root = some root) (hstage : (p.spaceAt n).stage = .crossLinked) :
    link n p = .ok () p := by
  have hreferences : ∀ r ∈ (p.spaceAt n).references,
      (!(p.reference r).isResolved) = false := by
    intro r hr
    simpa [Reference.isResolved] using h.references r hr
  have hrecords : ∀ s ∈ p.ledger.below root, ∀ f ∈ (p.ledger.scope s).foreign,
      ((p.ledger.foreignUsage f).resolved.isNone && !(p.ledger.foreignUsage f).isEnum) = false := by
    intro s hs f hf
    have hclosed := h.records root hroot s (Ledger.lt_of_mem_foreign hf)
      (hl.mem_chain_of_mem_belowFuel hs).1 f hf
    simpa [IsOpen] using hclosed
  unfold link
  rw [get_bind_eq]
  dsimp only
  rw [hroot]
  dsimp only
  rw [bind_eq_of_eq_ok (forIn_eq_of_idle ?_)]
  · rw [get_bind_eq, bind_eq_of_eq_ok (forIn_eq_of_idle ?_)]
    · unfold advance
      rw [get_bind_eq, hstage, if_neg (lt_irrefl _)]
      have hsame : (p.modifySpace n fun ns => { ns with stage := .crossLinked }) = p := by
        apply modifySpace_eq_self
        rw [← hstage]
      rw [hsame]
      rfl
    · intro s hs
      rw [get_bind_eq, bind_eq_of_eq_ok (forIn_eq_of_idle ?_)]
      · rfl
      · intro f hf
        rw [get_bind_eq, hrecords s hs f hf]
        rfl
  · intro r hr
    rw [get_bind_eq, hreferences r hr]
    rfl

end Splice.Program

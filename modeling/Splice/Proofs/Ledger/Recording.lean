import Splice.Proofs.Ledger.Accounting
import Splice.Proofs.Ledger.Visibility

/-!
# Recording keeps a ledger in order

Opening scopes, recording definitions and entering reads keep a ledger well formed
and extend it.  A definition that is recorded already adds nothing; a new one
appears at the end of its scope, so what other scopes hold stays as it is.
-/

namespace Splice.Ledger

variable {l l₀ : Ledger} {reads : List PlacedRead} {s t : ScopeId} {u : UsageId}
  {f : ForeignId} {id : Text}

theorem WellFormed.modifyUsage (h : l.WellFormed) (u : UsageId) (change : Usage → Usage) :
    (l.modifyUsage u change).WellFormed where
  parent_lt := h.parent_lt
  usages_lt s v hv := by
    rw [size_modifyUsage]
    exact h.usages_lt s v hv
  foreign_lt := h.foreign_lt
  resolved_lt f v hv := by
    rw [size_modifyUsage]
    exact h.resolved_lt f v hv
  child_iff := h.child_iff
  foreign_owner := h.foreign_owner

theorem extends_modifyUsage (l : Ledger) (u : UsageId) (change : Usage → Usage)
    (hid : ∀ x, (change x).id = x.id) : l.Extends (l.modifyUsage u change) where
  scopes_le := le_rfl
  usages_le := (size_modifyUsage change).ge
  foreign_le := le_rfl
  parent _ _ := rfl
  usages _ _ := rfl
  foreign _ _ := List.Subset.refl _
  id v _ := by
    rw [usage_modifyUsage]
    split
    · exact hid _
    · rfl
  record _ _ := ⟨rfl, rfl⟩

theorem WellFormed.modifyForeign (h : l.WellFormed) (f : ForeignId)
    (change : ForeignUsage → ForeignUsage)
    (hresolved : ∀ x u, (change x).resolved = some u →
      x.resolved = some u ∨ u < l.usages.size) :
    (l.modifyForeign f change).WellFormed where
  parent_lt := h.parent_lt
  usages_lt := h.usages_lt
  foreign_lt s g hg := by
    rw [size_modifyForeign]
    exact h.foreign_lt s g hg
  resolved_lt g v hv := by
    rw [foreignUsage_modifyForeign] at hv
    split at hv
    · rcases hresolved _ v hv with hold | hlt
      · exact h.resolved_lt g v hold
      · exact hlt
    · exact h.resolved_lt g v hv
  child_iff := h.child_iff
  foreign_owner := h.foreign_owner

theorem extends_modifyForeign (l : Ledger) (f : ForeignId)
    (change : ForeignUsage → ForeignUsage)
    (hname : ∀ x, (change x).qualifier = x.qualifier ∧ (change x).name = x.name) :
    l.Extends (l.modifyForeign f change) where
  scopes_le := le_rfl
  usages_le := le_rfl
  foreign_le := (size_modifyForeign change).ge
  parent _ _ := rfl
  usages _ _ := rfl
  foreign _ _ := List.Subset.refl _
  id _ _ := rfl
  record g _ := by
    rw [foreignUsage_modifyForeign]
    split
    · exact hname _
    · exact ⟨rfl, rfl⟩

theorem scope_openRoot (l : Ledger) (t : ScopeId) : l.openRoot.2.scope t = l.scope t := by
  rw [openRoot, scope_push]
  split
  · next h => rw [h, scope_of_size_le le_rfl]
  · rfl

theorem WellFormed.openRoot (h : l.WellFormed) : l.openRoot.2.WellFormed where
  parent_lt s p hp := by
    rw [scope_openRoot] at hp
    exact h.parent_lt s p hp
  usages_lt s v hv := by
    rw [scope_openRoot] at hv
    exact h.usages_lt s v hv
  foreign_lt s g hg := by
    rw [scope_openRoot] at hg
    exact h.foreign_lt s g hg
  resolved_lt := h.resolved_lt
  child_iff s p := by
    rw [scope_openRoot, scope_openRoot]
    exact h.child_iff s p
  foreign_owner s t f hs ht := by
    rw [scope_openRoot] at hs ht
    exact h.foreign_owner s t f hs ht

theorem extends_openRoot (l : Ledger) : l.Extends l.openRoot.2 where
  scopes_le := by simp [openRoot]
  usages_le := le_rfl
  foreign_le := le_rfl
  parent s _ := by rw [scope_openRoot]
  usages s _ := by rw [scope_openRoot]
  foreign s _ := by rw [scope_openRoot]; exact List.Subset.refl _
  id _ _ := rfl
  record _ _ := ⟨rfl, rfl⟩

theorem scope_openChild (l : Ledger) (s t : ScopeId) :
    (l.openChild s).2.scope t =
      if t = l.scopes.size then { parent := some s }
      else if s = t ∧ t < l.scopes.size then
        { l.scope t with children := (l.scope t).children ++ [l.scopes.size] }
      else l.scope t := by
  simp only [openChild]
  rw [scope_push, size_modifyScope, scope_modifyScope]

theorem foreign_openChild (l : Ledger) (s t : ScopeId) :
    ((l.openChild s).2.scope t).foreign = (l.scope t).foreign := by
  rw [scope_openChild]
  split
  · next ht => rw [ht, scope_of_size_le le_rfl]
  · split <;> rfl

theorem WellFormed.openChild (h : l.WellFormed) (hs : s < l.scopes.size) :
    (l.openChild s).2.WellFormed where
  parent_lt t p hp := by
    rw [scope_openChild] at hp
    split at hp
    · next ht =>
        obtain rfl := Option.some.inj hp
        rw [ht]
        exact hs
    · split at hp
      · exact h.parent_lt t p hp
      · exact h.parent_lt t p hp
  usages_lt t v hv := by
    rw [scope_openChild] at hv
    split at hv
    · simp at hv
    · split at hv
      · exact h.usages_lt t v hv
      · exact h.usages_lt t v hv
  foreign_lt t g hg := by
    rw [foreign_openChild] at hg
    exact h.foreign_lt t g hg
  resolved_lt := h.resolved_lt
  child_iff t p := by
    have hnew : l.scopes.size ∉ (l.scope p).children := by
      intro hmem
      have hparent := (h.child_iff _ p).mp hmem
      rw [scope_of_size_le le_rfl] at hparent
      cases hparent
    have hchildren : ((l.openChild s).2.scope p).children =
        (l.scope p).children ++ if s = p then [l.scopes.size] else [] := by
      rw [scope_openChild]
      by_cases hp : p = l.scopes.size
      · rw [if_pos hp, if_neg (by rintro rfl; exact hs.ne hp), hp, scope_of_size_le le_rfl]
        rfl
      · rw [if_neg hp]
        by_cases hsp : s = p
        · rw [if_pos ⟨hsp, hsp ▸ hs⟩, if_pos hsp]
        · rw [if_neg (fun hc => hsp hc.1), if_neg hsp, List.append_nil]
    have hparent : ((l.openChild s).2.scope t).parent =
        if t = l.scopes.size then some s else (l.scope t).parent := by
      rw [scope_openChild]
      split
      · rfl
      · split <;> rfl
    rw [hchildren, hparent, List.mem_append]
    by_cases ht : t = l.scopes.size
    · subst ht
      rw [if_pos rfl]
      by_cases hsp : s = p
      · simp [hsp]
      · simp [hsp, hnew]
    · rw [if_neg ht, h.child_iff t p]
      by_cases hsp : s = p
      · simp [hsp, ht]
      · simp [hsp]
  foreign_owner t t' f ht ht' := by
    rw [foreign_openChild] at ht ht'
    exact h.foreign_owner t t' f ht ht'

theorem extends_openChild (l : Ledger) (s : ScopeId) : l.Extends (l.openChild s).2 where
  scopes_le := by simp [openChild]
  usages_le := le_rfl
  foreign_le := le_rfl
  parent t ht := by
    rw [scope_openChild, if_neg ht.ne]
    split <;> rfl
  usages t ht := by
    rw [scope_openChild, if_neg ht.ne]
    split <;> rfl
  foreign t ht := by
    rw [scope_openChild, if_neg ht.ne]
    split <;> exact List.Subset.refl _
  id _ _ := rfl
  record _ _ := ⟨rfl, rfl⟩

theorem frame_openChild (l : Ledger) (s : ScopeId) :
    (l.openChild s).2.frame l.scopes.size = [] := by
  rw [frame, scope_openChild, if_pos rfl]
  rfl

theorem parent_openChild (l : Ledger) (s : ScopeId) :
    ((l.openChild s).2.scope l.scopes.size).parent = some s := by
  rw [scope_openChild, if_pos rfl]

/-! ## Definitions -/

theorem define_of_own? (h : l.own? s id = some u) : l.define s id = (u, l.markDefined u) := by
  simp [define, ownOrNew, h]

def withNew (l : Ledger) (s : ScopeId) (id : Text) : Ledger :=
  Ledger.modifyScope { l with usages := l.usages.push { id } } s
    fun sc => { sc with usages := sc.usages ++ [l.usages.size] }

theorem define_of_own?_eq_none (h : l.own? s id = none) :
    l.define s id = (l.usages.size, (l.withNew s id).markDefined l.usages.size) := by
  simp [define, ownOrNew, h, withNew]

theorem scope_withNew (l : Ledger) (s t : ScopeId) (id : Text) :
    (l.withNew s id).scope t =
      if s = t ∧ t < l.scopes.size then
        { l.scope t with usages := (l.scope t).usages ++ [l.usages.size] }
      else l.scope t :=
  scope_modifyScope _ s t _

theorem usage_withNew (l : Ledger) (s : ScopeId) (id : Text) (v : UsageId) :
    (l.withNew s id).usage v = if v = l.usages.size then { id } else l.usage v :=
  usage_push l { id } v

theorem WellFormed.withNew (h : l.WellFormed) (s : ScopeId) (id : Text) :
    (l.withNew s id).WellFormed where
  parent_lt t p hp := by
    rw [scope_withNew] at hp
    split at hp <;> exact h.parent_lt t p hp
  usages_lt t v hv := by
    have hsize : (l.withNew s id).usages.size = l.usages.size + 1 := by
      simp [Ledger.withNew]
    rw [hsize]
    rw [scope_withNew] at hv
    split at hv
    · rcases List.mem_append.mp hv with hold | hnew
      · exact Nat.lt_succ_of_lt (h.usages_lt t v hold)
      · rw [List.mem_singleton.mp hnew]
        exact Nat.lt_succ_self _
    · exact Nat.lt_succ_of_lt (h.usages_lt t v hv)
  foreign_lt t g hg := by
    rw [scope_withNew] at hg
    split at hg <;> exact h.foreign_lt t g hg
  resolved_lt g v hv := by
    have hsize : (l.withNew s id).usages.size = l.usages.size + 1 := by
      simp [Ledger.withNew]
    rw [hsize]
    exact Nat.lt_succ_of_lt (h.resolved_lt g v hv)
  child_iff t p := by
    have hparent : ((l.withNew s id).scope t).parent = (l.scope t).parent := by
      rw [scope_withNew]
      split <;> rfl
    have hchildren : ((l.withNew s id).scope p).children = (l.scope p).children := by
      rw [scope_withNew]
      split <;> rfl
    rw [hparent, hchildren]
    exact h.child_iff t p
  foreign_owner t t' f ht ht' := by
    have hsame : ∀ t, ((l.withNew s id).scope t).foreign = (l.scope t).foreign := by
      intro t
      rw [scope_withNew]
      split <;> rfl
    rw [hsame] at ht ht'
    exact h.foreign_owner t t' f ht ht'

theorem WellFormed.define (h : l.WellFormed) (s : ScopeId) (id : Text) :
    (l.define s id).2.WellFormed := by
  cases hown : l.own? s id with
  | some u =>
      rw [define_of_own? hown]
      exact h.modifyUsage u _
  | none =>
      rw [define_of_own?_eq_none hown]
      exact (h.withNew s id).modifyUsage _ _

/-- A definition that is recorded already. -/
theorem extends_define_of_own? (h : l.own? s id = some u) : l.Extends (l.define s id).2 := by
  rw [define_of_own? h]
  exact extends_modifyUsage l u _ fun _ => rfl

/-- A definition in a scope that was opened later. -/
theorem Extends.define (h : l₀.Extends l) (hs : l₀.scopes.size ≤ s) (id : Text) :
    l₀.Extends (l.define s id).2 := by
  cases hown : l.own? s id with
  | some u => exact h.trans (extends_define_of_own? hown)
  | none =>
      rw [define_of_own?_eq_none hown]
      suffices hnew : l₀.Extends (l.withNew s id) from
        hnew.trans (extends_modifyUsage _ _ _ fun _ => rfl)
      have hother : ∀ t < l₀.scopes.size, (l.withNew s id).scope t = l.scope t := by
        intro t ht
        rw [scope_withNew, if_neg]
        rintro ⟨rfl, -⟩
        exact absurd ht (Nat.not_lt.mpr hs)
      constructor
      · simpa [withNew] using h.scopes_le
      · simpa [withNew] using Nat.le_succ_of_le h.usages_le
      · exact h.foreign_le
      · intro t ht
        rw [hother t ht]
        exact h.parent t ht
      · intro t ht
        rw [hother t ht]
        exact h.usages t ht
      · intro t ht
        rw [hother t ht]
        exact h.foreign t ht
      · intro v hv
        rw [usage_withNew, if_neg]
        · exact h.id v hv
        · rintro rfl
          exact absurd hv (Nat.not_lt.mpr h.usages_le)
      · exact h.record

theorem frame_markDefined (l : Ledger) (u : UsageId) (s : ScopeId) :
    (l.markDefined u).frame s = l.frame s := by
  simp only [frame, markDefined, scope_modifyUsage]
  apply List.map_congr_left
  intro v _
  rw [usage_modifyUsage]
  split <;> rfl

/-- A definition leaves a scope as it is, or adds one binding at its end. -/
theorem frame_define (hl : l.WellFormed) (hs : s < l.scopes.size) (id : Text) :
    (l.define s id).2.frame s =
      l.frame s ++ if (l.own? s id).isSome then [] else [(id, l.usages.size)] := by
  cases hown : l.own? s id with
  | some u =>
      rw [define_of_own? hown, frame_markDefined]
      simp
  | none =>
      rw [define_of_own?_eq_none hown, frame_markDefined]
      simp only [frame, scope_withNew, hs, and_self, if_true, List.map_append, List.map_cons,
        List.map_nil, Option.isSome_none, Bool.false_eq_true, if_false]
      congr 1
      · apply List.map_congr_left
        intro v hv
        rw [usage_withNew, if_neg (hl.usages_lt s v hv).ne]
      · rw [usage_withNew, if_pos rfl]

/-- A binding that was defined is found in its scope. -/
theorem own?_define (hl : l.WellFormed) (hs : s < l.scopes.size) (id : Text) :
    (l.define s id).2.own? s id = some (l.define s id).1 := by
  rw [own?_eq_lookup, frame_define hl hs]
  cases hown : l.own? s id with
  | some u =>
      rw [define_of_own? hown]
      rw [own?_eq_lookup] at hown
      simpa using hown
  | none =>
      rw [define_of_own?_eq_none hown]
      rw [own?_eq_lookup] at hown
      simp [List.lookup_append, hown]

theorem own?_define_isSome (hl : l.WellFormed) (hs : s < l.scopes.size) (id : Text)
    {other : Text} (h : (l.own? s other).isSome) :
    ((l.define s id).2.own? s other).isSome := by
  rw [own?_eq_lookup] at h ⊢
  rw [frame_define hl hs, List.lookup_append]
  obtain ⟨u, hu⟩ := Option.isSome_iff_exists.mp h
  simp [hu]

theorem size_scopes_define (l : Ledger) (s : ScopeId) (id : Text) :
    (l.define s id).2.scopes.size = l.scopes.size := by
  cases hown : l.own? s id with
  | some u => rw [define_of_own? hown]; rfl
  | none =>
      rw [define_of_own?_eq_none hown]
      simp [markDefined, withNew]

theorem Accounts.define (h : l.Accounts reads) (s : ScopeId) (id : Text) :
    (l.define s id).2.Accounts reads := by
  have hmark : ∀ (m : Ledger) (u v : UsageId),
      ((m.markDefined u).usage v).readers = (m.usage v).readers := by
    intro m u v
    rw [markDefined, usage_modifyUsage]
    split <;> rfl
  cases hown : l.own? s id with
  | some u =>
      rw [define_of_own? hown]
      exact h.congr (hmark l u) (fun _ => rfl) (fun _ => rfl)
  | none =>
      rw [define_of_own?_eq_none hown]
      refine h.congr (fun v => ?_) (fun _ => rfl) (fun _ => rfl)
      rw [hmark, usage_withNew]
      split
      · next hv => rw [hv, usage_of_size_le le_rfl]
      · rfl

/-! ## Names of other namespaces -/

def withNewForeign (l : Ledger) (s : ScopeId) (qualifier name : Text) : Ledger :=
  Ledger.modifyScope { l with foreign := l.foreign.push { qualifier, name } } s
    fun sc => { sc with foreign := sc.foreign ++ [l.foreign.size] }

theorem foreignOrNew_of_ownForeign?_eq_none {qualifier name : Text}
    (h : l.ownForeign? s qualifier name = none) :
    l.foreignOrNew s qualifier name =
      (l.foreign.size, l.withNewForeign s qualifier name) := by
  simp [foreignOrNew, h, withNewForeign]

theorem scope_withNewForeign (l : Ledger) (s t : ScopeId) (qualifier name : Text) :
    (l.withNewForeign s qualifier name).scope t =
      if s = t ∧ t < l.scopes.size then
        { l.scope t with foreign := (l.scope t).foreign ++ [l.foreign.size] }
      else l.scope t :=
  scope_modifyScope _ s t _

theorem foreignUsage_withNewForeign (l : Ledger) (s : ScopeId) (qualifier name : Text)
    (g : ForeignId) :
    (l.withNewForeign s qualifier name).foreignUsage g =
      if g = l.foreign.size then { qualifier, name } else l.foreignUsage g :=
  foreignUsage_push l { qualifier, name } g

theorem WellFormed.withNewForeign (h : l.WellFormed) (s : ScopeId) (qualifier name : Text) :
    (l.withNewForeign s qualifier name).WellFormed where
  parent_lt t p hp := by
    rw [scope_withNewForeign] at hp
    split at hp <;> exact h.parent_lt t p hp
  usages_lt t v hv := by
    rw [scope_withNewForeign] at hv
    split at hv <;> exact h.usages_lt t v hv
  foreign_lt t g hg := by
    have hsize : (l.withNewForeign s qualifier name).foreign.size = l.foreign.size + 1 := by
      simp [Ledger.withNewForeign]
    rw [hsize]
    rw [scope_withNewForeign] at hg
    split at hg
    · rcases List.mem_append.mp hg with hold | hnew
      · exact Nat.lt_succ_of_lt (h.foreign_lt t g hold)
      · rw [List.mem_singleton.mp hnew]
        exact Nat.lt_succ_self _
    · exact Nat.lt_succ_of_lt (h.foreign_lt t g hg)
  resolved_lt g v hv := by
    rw [foreignUsage_withNewForeign] at hv
    split at hv
    · cases hv
    · exact h.resolved_lt g v hv
  child_iff t p := by
    have hparent : ((l.withNewForeign s qualifier name).scope t).parent = (l.scope t).parent := by
      rw [scope_withNewForeign]
      split <;> rfl
    have hchildren :
        ((l.withNewForeign s qualifier name).scope p).children = (l.scope p).children := by
      rw [scope_withNewForeign]
      split <;> rfl
    rw [hparent, hchildren]
    exact h.child_iff t p
  foreign_owner t t' f ht ht' := by
    -- The new record is in no scope but the one it was made for.
    have hcases : ∀ t, f ∈ ((l.withNewForeign s qualifier name).scope t).foreign →
        f ∈ (l.scope t).foreign ∨ (f = l.foreign.size ∧ s = t) := by
      intro t hf
      rw [scope_withNewForeign] at hf
      split at hf
      · next hc =>
          rcases List.mem_append.mp hf with hold | hnew
          · exact Or.inl hold
          · exact Or.inr ⟨List.mem_singleton.mp hnew, hc.1⟩
      · exact Or.inl hf
    rcases hcases t ht with hold | ⟨rfl, hs⟩
    · rcases hcases t' ht' with hold' | ⟨rfl, -⟩
      · exact h.foreign_owner t t' f hold hold'
      · exact absurd (h.foreign_lt t _ hold) (lt_irrefl _)
    · rcases hcases t' ht' with hold' | ⟨-, hs'⟩
      · exact absurd (h.foreign_lt t' _ hold') (lt_irrefl _)
      · exact hs.symm.trans hs'

theorem extends_withNewForeign (l : Ledger) (s : ScopeId) (qualifier name : Text) :
    l.Extends (l.withNewForeign s qualifier name) where
  scopes_le := by simp [withNewForeign]
  usages_le := le_rfl
  foreign_le := by simp [withNewForeign]
  parent t _ := by
    rw [scope_withNewForeign]
    split <;> rfl
  usages t _ := by
    rw [scope_withNewForeign]
    split <;> rfl
  foreign t _ := by
    rw [scope_withNewForeign]
    split
    · exact List.subset_append_left _ _
    · exact List.Subset.refl _
  id _ _ := rfl
  record g hg := by
    rw [foreignUsage_withNewForeign, if_neg hg.ne]
    exact ⟨rfl, rfl⟩

structure Files (l : Ledger) (s : ScopeId) (qualifier name : Text) (f : ForeignId) : Prop where
  mem : f ∈ (l.scope s).foreign
  qualifier : (l.foreignUsage f).qualifier = qualifier
  name : (l.foreignUsage f).name = name

theorem Files.extends {l' : Ledger} {qualifier name : Text} (h : l.Files s qualifier name f)
    (hl : l.WellFormed) (hs : s < l.scopes.size) (hext : l.Extends l') :
    l'.Files s qualifier name f where
  mem := hext.foreign s hs h.mem
  qualifier := (hext.record f (hl.foreign_lt s f h.mem)).1.trans h.qualifier
  name := (hext.record f (hl.foreign_lt s f h.mem)).2.trans h.name

theorem WellFormed.addForeignReader (h : l.WellFormed) (f : ForeignId) (r : Reader) :
    (l.addForeignReader f r).WellFormed := by
  have hmodify := h.modifyForeign f
    (fun usage => { usage with readers := usage.readers ++ [r] }) fun _ _ hx => Or.inl hx
  simp only [Ledger.addForeignReader]
  split
  · exact hmodify.modifyUsage _ _
  · exact hmodify

theorem extends_addForeignReader (l : Ledger) (f : ForeignId) (r : Reader) :
    l.Extends (l.addForeignReader f r) := by
  have hmodify := extends_modifyForeign l f
    (fun usage => { usage with readers := usage.readers ++ [r] }) fun _ => ⟨rfl, rfl⟩
  simp only [Ledger.addForeignReader]
  split
  · exact hmodify.trans (extends_modifyUsage _ _ _ fun _ => rfl)
  · exact hmodify

/-- The ledger before linking: no record of a foreign name is tied to a binding or known
to be an enum, somebody reads it, and every binding is defined. -/
structure Unlinked (l : Ledger) : Prop where
  loose : ∀ f, (l.foreignUsage f).resolved = none ∧ (l.foreignUsage f).isEnum = false
  read : ∀ f < l.foreign.size, (l.foreignUsage f).readers ≠ []
  defined : ∀ u < l.usages.size, (l.usage u).defined = true

theorem unlinked_empty : Unlinked {} where
  loose f := by simp [foreignUsage]
  read f hf := absurd hf (Nat.not_lt_zero f)
  defined u hu := absurd hu (Nat.not_lt_zero u)

theorem Unlinked.modifyUsage (h : l.Unlinked) (u : UsageId) (change : Usage → Usage)
    (hdefined : ∀ x, x.defined = true → (change x).defined = true) :
    (l.modifyUsage u change).Unlinked where
  loose := h.loose
  read := h.read
  defined v hv := by
    rw [size_modifyUsage] at hv
    rw [usage_modifyUsage]
    split
    · exact hdefined _ (h.defined v hv)
    · exact h.defined v hv

theorem Unlinked.define (h : l.Unlinked) (s : ScopeId) (id : Text) :
    (l.define s id).2.Unlinked := by
  cases hown : l.own? s id with
  | some u =>
      rw [define_of_own? hown]
      exact h.modifyUsage u _ fun _ _ => rfl
  | none =>
      rw [define_of_own?_eq_none hown]
      refine ⟨h.loose, h.read, ?_⟩
      intro v hv
      have hsize : (l.withNew s id).usages.size = l.usages.size + 1 := by simp [withNew]
      rw [markDefined, size_modifyUsage, hsize] at hv
      rw [markDefined, usage_modifyUsage, hsize]
      by_cases hnew : l.usages.size = v
      · rw [if_pos ⟨hnew, hv⟩]
      · rw [if_neg (fun hc => hnew hc.1), usage_withNew, if_neg (Ne.symm hnew)]
        exact h.defined v (by omega)

/-- A record may wait for its first reader. -/
theorem Unlinked.mentionForeign (h : l.Unlinked) (s : ScopeId) (qualifier name : Text)
    (r : Reader) : (l.mentionForeign s qualifier name (some r)).2.Unlinked := by
  suffices hrecord : ∀ f m, l.foreignOrNew s qualifier name = (f, m) →
      (∀ g, (m.foreignUsage g).resolved = none ∧ (m.foreignUsage g).isEnum = false) ∧
      (∀ g < m.foreign.size, f ≠ g → (m.foreignUsage g).readers ≠ []) ∧
      ∀ u < m.usages.size, (m.usage u).defined = true by
    obtain ⟨⟨f, m⟩, hrun⟩ : ∃ x, l.foreignOrNew s qualifier name = x := ⟨_, rfl⟩
    obtain ⟨hloose, hread, hdefined⟩ := hrecord f m hrun
    simp only [Ledger.mentionForeign, hrun]
    have hadd : m.addForeignReader f r = m.modifyForeign f
        fun usage => { usage with readers := usage.readers ++ [r] } := by
      simp only [Ledger.addForeignReader]
      split
      · next u hu =>
          rw [foreignUsage_modifyForeign] at hu
          split at hu
          · rw [(hloose f).1] at hu
            cases hu
          · rw [(hloose f).1] at hu
            cases hu
      · rfl
    have husage := fun g => foreignUsage_addForeignReader m f g r
    constructor
    · intro g
      rw [husage]
      split <;> exact hloose g
    · intro g hg
      rw [hadd, size_modifyForeign] at hg
      rw [husage]
      by_cases hfg : f = g
      · rw [if_pos ⟨hfg, hg⟩]
        simp
      · rw [if_neg (fun hc => hfg hc.1)]
        exact hread g hg hfg
    · rw [hadd]
      exact hdefined
  intro f m hrun
  cases hown : l.ownForeign? s qualifier name with
  | some g =>
      simp only [foreignOrNew, hown, Prod.mk.injEq] at hrun
      obtain ⟨rfl, rfl⟩ := hrun
      exact ⟨h.loose, fun g hg _ => h.read g hg, h.defined⟩
  | none =>
      rw [foreignOrNew_of_ownForeign?_eq_none hown, Prod.mk.injEq] at hrun
      obtain ⟨rfl, rfl⟩ := hrun
      refine ⟨?_, ?_, h.defined⟩
      · intro g
        rw [foreignUsage_withNewForeign]
        split
        · exact ⟨rfl, rfl⟩
        · exact h.loose g
      · intro g hg hne
        have hsize : (l.withNewForeign s qualifier name).foreign.size = l.foreign.size + 1 := by
          simp [withNewForeign]
        rw [hsize] at hg
        rw [foreignUsage_withNewForeign, if_neg (Ne.symm hne)]
        exact h.read g (Nat.lt_of_le_of_ne (Nat.le_of_lt_succ hg) (Ne.symm hne))

/-- A read of a foreign name is filed in its scope, and the ledger accounts for it. -/
theorem mentionForeign_spec (hl : l.WellFormed) (hs : s < l.scopes.size)
    (qualifier name : Text) (file : NamespaceId) (offset : Nat) :
    let r := l.mentionForeign s qualifier name (some ⟨file, offset⟩)
    r.2.WellFormed ∧ l.Extends r.2 ∧ r.2.Files s qualifier name r.1 ∧
      ∀ reads, l.Accounts reads →
        r.2.Accounts (reads ++ [⟨file, ⟨offset, none, some r.1⟩⟩]) := by
  suffices hrecord : ∀ g m, l.foreignOrNew s qualifier name = (g, m) →
      m.WellFormed ∧ l.Extends m ∧ m.Files s qualifier name g ∧
        ∀ reads, l.Accounts reads → m.Accounts reads by
    obtain ⟨hwf, hext, hfiles, haccounts⟩ := hrecord _ _ rfl
    simp only [mentionForeign]
    have hs' : s < (l.foreignOrNew s qualifier name).2.scopes.size :=
      hs.trans_le hext.scopes_le
    have hlt := hwf.foreign_lt s _ hfiles.mem
    refine ⟨hwf.addForeignReader _ _, hext.trans (extends_addForeignReader _ _ _),
      hfiles.extends hwf hs' (extends_addForeignReader _ _ _), ?_⟩
    intro reads hreads
    exact (haccounts reads hreads).addForeignReader hlt (hwf.resolved_lt _) file offset
  intro g m hrun
  cases hown : l.ownForeign? s qualifier name with
  | some f =>
      simp only [foreignOrNew, hown, Prod.mk.injEq] at hrun
      obtain ⟨rfl, rfl⟩ := hrun
      have hmem := List.mem_of_find?_eq_some hown
      have hname := List.find?_some hown
      simp only [Bool.and_eq_true, beq_iff_eq] at hname
      exact ⟨hl, Extends.refl l, ⟨hmem, hname.1, hname.2⟩, fun _ h => h⟩
  | none =>
      rw [foreignOrNew_of_ownForeign?_eq_none hown, Prod.mk.injEq] at hrun
      obtain ⟨rfl, rfl⟩ := hrun
      refine ⟨hl.withNewForeign s qualifier name, extends_withNewForeign l s qualifier name,
        ?_, ?_⟩
      · constructor
        · rw [scope_withNewForeign, if_pos ⟨rfl, hs⟩]
          simp
        · rw [foreignUsage_withNewForeign, if_pos rfl]
        · rw [foreignUsage_withNewForeign, if_pos rfl]
      · intro reads hreads
        have hsame : ∀ g, ((l.withNewForeign s qualifier name).foreignUsage g).readers =
              (l.foreignUsage g).readers ∧
            ((l.withNewForeign s qualifier name).foreignUsage g).resolved =
              (l.foreignUsage g).resolved := by
          intro g
          rw [foreignUsage_withNewForeign]
          split
          · next hg => rw [hg, foreignUsage_of_size_le le_rfl]; exact ⟨rfl, rfl⟩
          · exact ⟨rfl, rfl⟩
        exact hreads.congr (fun _ => rfl) (fun g => (hsame g).1) (fun g => (hsame g).2)

end Splice.Ledger

import Splice.Proofs.Ledger.Basic

/-!
# Which bindings a scope sees

A scope sees its own bindings and those of the scopes around it, innermost first.
`Ledger.visible` lists them, and looking a name up in the ledger is looking it up in
this list.  What a ledger says of its scopes stays true while it grows
(`Ledger.Extends`), so a name that was looked up once would be found again with the
same result.
-/

namespace Splice

/-- Bindings by their identifiers, innermost first. -/
abbrev Env := List (Text × UsageId)

namespace Ledger

def frame (l : Ledger) (s : ScopeId) : Env :=
  (l.scope s).usages.map fun u => ((l.usage u).id, u)

def visible (l : Ledger) (s : ScopeId) : Env := (l.chain s).flatMap l.frame

private theorem lookup_map (us : List UsageId) (name : UsageId → Text) (id : Text) :
    (us.map fun u => (name u, u)).lookup id = us.find? fun u => name u == id := by
  induction us with
  | nil => rfl
  | cons u rest ih =>
      simp only [List.map_cons, List.lookup_cons, List.find?_cons]
      by_cases h : name u = id
      · simp [h]
      · have h₁ : (id == name u) = false := by simpa using fun e => h e.symm
        have h₂ : (name u == id) = false := by simpa using h
        simp only [h₁, h₂]
        exact ih

theorem own?_eq_lookup (l : Ledger) (s : ScopeId) (id : Text) :
    l.own? s id = (l.frame s).lookup id := by
  rw [frame, lookup_map]
  rfl

theorem find?_eq_lookup (l : Ledger) (s : ScopeId) (id : Text) :
    l.find? s id = (l.visible s).lookup id := by
  unfold find? visible
  induction l.chain s with
  | nil => rfl
  | cons t rest ih =>
      rw [List.findSome?_cons, List.flatMap_cons, List.lookup_append, ← ih, own?_eq_lookup]
      cases (l.frame t).lookup id <;> rfl

section

variable {l l' : Ledger}

theorem scope_congr (hscopes : l'.scopes = l.scopes) (s : ScopeId) : l'.scope s = l.scope s := by
  rw [scope, hscopes]
  rfl

theorem chain_congr (hscopes : l'.scopes = l.scopes) (s : ScopeId) : l'.chain s = l.chain s := by
  have hfuel : ∀ fuel s, l'.chainFuel fuel s = l.chainFuel fuel s := by
    intro fuel
    induction fuel with
    | zero => intro s; rfl
    | succ fuel ih =>
        intro s
        simp only [chainFuel, scope_congr hscopes, ih]
  exact hfuel s s

theorem below_congr (hscopes : l'.scopes = l.scopes) (s : ScopeId) :
    l'.below s = l.below s := by
  have hfuel : ∀ fuel, l'.belowFuel fuel = l.belowFuel fuel := by
    intro fuel
    induction fuel with
    | zero => rfl
    | succ fuel ih =>
        funext s
        simp only [belowFuel, scope_congr hscopes, ih]
  unfold below
  rw [hfuel, hscopes]

theorem find?_congr (hscopes : l'.scopes = l.scopes)
    (hid : ∀ u, (l'.usage u).id = (l.usage u).id) (s : ScopeId) (id : Text) :
    l'.find? s id = l.find? s id := by
  unfold find? own?
  simp only [chain_congr hscopes, scope_congr hscopes, hid]

end

theorem lt_of_mem_foreign {l : Ledger} {s : ScopeId} {f : ForeignId}
    (h : f ∈ (l.scope s).foreign) : s < l.scopes.size := by
  by_contra hs
  rw [scope_of_size_le (Nat.le_of_not_lt hs)] at h
  cases h

theorem id_of_own? {l : Ledger} {s : ScopeId} {id : Text} {u : UsageId}
    (h : l.own? s id = some u) : (l.usage u).id = id := by
  simpa using List.find?_some h

/-- Scopes are opened after the scopes around them and list their children; records
are known by positions that exist, and one of a foreign name stands in one scope. -/
structure WellFormed (l : Ledger) : Prop where
  parent_lt : ∀ s p, (l.scope s).parent = some p → p < s
  usages_lt : ∀ s, ∀ u ∈ (l.scope s).usages, u < l.usages.size
  foreign_lt : ∀ s, ∀ f ∈ (l.scope s).foreign, f < l.foreign.size
  resolved_lt : ∀ f u, (l.foreignUsage f).resolved = some u → u < l.usages.size
  child_iff : ∀ s p, s ∈ (l.scope p).children ↔ (l.scope s).parent = some p
  foreign_owner : ∀ s t f, f ∈ (l.scope s).foreign → f ∈ (l.scope t).foreign → s = t

theorem wellFormed_empty : WellFormed {} := by
  constructor <;> simp [scope, foreignUsage]

variable {l l' l'' : Ledger} {s t : ScopeId} {u : UsageId} {f : ForeignId} {id : Text}

theorem WellFormed.chainFuel_eq (h : l.WellFormed) {n : Nat} (hn : s ≤ n) :
    l.chainFuel n s = l.chain s := by
  unfold chain
  induction s using Nat.strongRecOn generalizing n with
  | ind s ih =>
      cases hp : (l.scope s).parent with
      | none =>
          cases n <;> cases s <;> simp [chainFuel, hp]
      | some p =>
          have hlt := h.parent_lt s p hp
          cases s with
          | zero => exact absurd hlt (Nat.not_lt_zero p)
          | succ s =>
              cases n with
              | zero => exact absurd hn (Nat.not_succ_le_zero s)
              | succ n =>
                  have hps : p ≤ s := Nat.le_of_lt_succ hlt
                  have hpn : p ≤ n := hps.trans (Nat.le_of_succ_le_succ hn)
                  simp only [chainFuel, hp]
                  rw [ih p hlt hpn, ih p hlt hps]

theorem WellFormed.chain_eq (h : l.WellFormed) (s : ScopeId) :
    l.chain s = s :: ((l.scope s).parent.elim [] l.chain) := by
  cases hp : (l.scope s).parent with
  | none =>
      unfold chain
      cases s <;> simp [chainFuel, hp]
  | some p =>
      have hlt := h.parent_lt s p hp
      cases s with
      | zero => exact absurd hlt (Nat.not_lt_zero p)
      | succ s =>
          conv_lhs => rw [chain, chainFuel]
          simp only [hp, Option.elim_some]
          rw [h.chainFuel_eq (Nat.le_of_lt_succ hlt)]

theorem WellFormed.visible_eq (h : l.WellFormed) (s : ScopeId) :
    l.visible s = l.frame s ++ ((l.scope s).parent.elim [] l.visible) := by
  rw [visible, h.chain_eq, List.flatMap_cons]
  cases (l.scope s).parent <;> rfl

/-- An outermost scope sees its own bindings only. -/
theorem WellFormed.find?_eq_own? (h : l.WellFormed) (hs : (l.scope s).parent = none) (id : Text) :
    l.find? s id = l.own? s id := by
  rw [find?_eq_lookup, own?_eq_lookup, h.visible_eq, hs]
  simp

theorem WellFormed.lt_of_mem_frame (h : l.WellFormed) {b : Text × UsageId}
    (hb : b ∈ l.frame s) : b.2 < l.usages.size := by
  obtain ⟨u, hu, rfl⟩ := List.mem_map.mp hb
  exact h.usages_lt s u hu

theorem WellFormed.lt_of_mem_visible (h : l.WellFormed) {b : Text × UsageId}
    (hb : b ∈ l.visible s) : b.2 < l.usages.size := by
  obtain ⟨t, -, ht⟩ := List.mem_flatMap.mp hb
  exact h.lt_of_mem_frame ht

theorem mem_of_lookup {env : Env} (h : env.lookup id = some u) : (id, u) ∈ env := by
  induction env with
  | nil => simp at h
  | cons b rest ih =>
      obtain ⟨k, v⟩ := b
      rw [List.lookup_cons] at h
      by_cases hk : id = k
      · simp only [hk, beq_self_eq_true] at h
        simp [hk, Option.some.inj h]
      · have hk' : (id == k) = false := by simpa using hk
        rw [hk'] at h
        exact List.mem_cons_of_mem _ (ih h)

theorem WellFormed.lt_of_find? (h : l.WellFormed) (hfind : l.find? s id = some u) :
    u < l.usages.size := by
  rw [find?_eq_lookup] at hfind
  exact h.lt_of_mem_visible (mem_of_lookup hfind)

/-! ## Growing ledgers -/

/-- A later ledger: the scopes and records of the earlier one are there with the
same names and the same bindings. -/
structure Extends (l l' : Ledger) : Prop where
  scopes_le : l.scopes.size ≤ l'.scopes.size
  usages_le : l.usages.size ≤ l'.usages.size
  foreign_le : l.foreign.size ≤ l'.foreign.size
  parent : ∀ s < l.scopes.size, (l'.scope s).parent = (l.scope s).parent
  usages : ∀ s < l.scopes.size, (l'.scope s).usages = (l.scope s).usages
  foreign : ∀ s < l.scopes.size, (l.scope s).foreign ⊆ (l'.scope s).foreign
  id : ∀ u < l.usages.size, (l'.usage u).id = (l.usage u).id
  record : ∀ f < l.foreign.size,
    (l'.foreignUsage f).qualifier = (l.foreignUsage f).qualifier ∧
      (l'.foreignUsage f).name = (l.foreignUsage f).name

theorem Extends.refl (l : Ledger) : l.Extends l := by
  constructor <;> simp

theorem Extends.trans (h : l.Extends l') (h' : l'.Extends l'') : l.Extends l'' where
  scopes_le := h.scopes_le.trans h'.scopes_le
  usages_le := h.usages_le.trans h'.usages_le
  foreign_le := h.foreign_le.trans h'.foreign_le
  parent s hs := (h'.parent s (hs.trans_le h.scopes_le)).trans (h.parent s hs)
  usages s hs := (h'.usages s (hs.trans_le h.scopes_le)).trans (h.usages s hs)
  foreign s hs := List.Subset.trans (h.foreign s hs) (h'.foreign s (hs.trans_le h.scopes_le))
  id u hu := (h'.id u (hu.trans_le h.usages_le)).trans (h.id u hu)
  record f hf := by
    have h₁ := h.record f hf
    have h₂ := h'.record f (hf.trans_le h.foreign_le)
    exact ⟨h₂.1.trans h₁.1, h₂.2.trans h₁.2⟩

theorem Extends.frame_eq (h : l.Extends l') (hl : l.WellFormed) (hs : s < l.scopes.size) :
    l'.frame s = l.frame s := by
  rw [frame, h.usages s hs]
  apply List.map_congr_left
  intro u hu
  rw [h.id u (hl.usages_lt s u hu)]

theorem Extends.own?_eq (h : l.Extends l') (hl : l.WellFormed) (hs : s < l.scopes.size)
    (id : Text) : l'.own? s id = l.own? s id := by
  rw [own?_eq_lookup, own?_eq_lookup, h.frame_eq hl hs]

theorem Extends.chain_eq (h : l.Extends l') (hl : l.WellFormed) (hl' : l'.WellFormed)
    (hs : s < l.scopes.size) : l'.chain s = l.chain s := by
  induction s using Nat.strongRecOn with
  | ind s ih =>
      rw [hl.chain_eq, hl'.chain_eq, h.parent s hs]
      cases hp : (l.scope s).parent with
      | none => rfl
      | some p =>
          have hlt := hl.parent_lt s p hp
          simp only [Option.elim_some]
          rw [ih p hlt (hlt.trans hs)]

theorem WellFormed.lt_of_mem_chain (h : l.WellFormed) (ht : t ∈ l.chain s) : t ≤ s := by
  induction s using Nat.strongRecOn with
  | ind s ih =>
      rw [h.chain_eq, List.mem_cons] at ht
      rcases ht with rfl | ht
      · exact le_rfl
      · cases hp : (l.scope s).parent with
        | none => simp [hp] at ht
        | some p =>
            have hlt := h.parent_lt s p hp
            rw [hp, Option.elim_some] at ht
            exact (ih p hlt ht).trans hlt.le

theorem Extends.visible_eq (h : l.Extends l') (hl : l.WellFormed) (hl' : l'.WellFormed)
    (hs : s < l.scopes.size) : l'.visible s = l.visible s := by
  rw [visible, visible, h.chain_eq hl hl' hs]
  have hframe : ∀ t ∈ l.chain s, l'.frame t = l.frame t := by
    intro t ht
    exact h.frame_eq hl ((hl.lt_of_mem_chain ht).trans_lt hs)
  exact List.flatMap_congr hframe

theorem Extends.find?_eq (h : l.Extends l') (hl : l.WellFormed) (hl' : l'.WellFormed)
    (hs : s < l.scopes.size) (id : Text) : l'.find? s id = l.find? s id := by
  rw [find?_eq_lookup, find?_eq_lookup, h.visible_eq hl hl' hs]

/-- A scope lies inside at most one scope that has none around it. -/
theorem WellFormed.outermost_unique (h : l.WellFormed) {root root' : ScopeId}
    (hroot : root ∈ l.chain s) (hroot' : root' ∈ l.chain s)
    (hparent : (l.scope root).parent = none) (hparent' : (l.scope root').parent = none) :
    root = root' := by
  induction s using Nat.strongRecOn with
  | ind s ih =>
      rw [h.chain_eq, List.mem_cons] at hroot hroot'
      cases hp : (l.scope s).parent with
      | none =>
          simp only [hp, Option.elim_none, List.not_mem_nil, or_false] at hroot hroot'
          rw [hroot, hroot']
      | some p =>
          simp only [hp, Option.elim_some] at hroot hroot'
          rcases hroot with rfl | hroot
          · rw [hparent] at hp
            cases hp
          · rcases hroot' with rfl | hroot'
            · rw [hparent'] at hp
              cases hp
            · exact ih p (h.parent_lt s p hp) hroot hroot'

theorem mem_belowFuel_self (l : Ledger) (fuel : Nat) (s : ScopeId) : s ∈ l.belowFuel fuel s := by
  cases fuel <;> simp [belowFuel]

theorem mem_belowFuel_child {fuel : Nat} {root : ScopeId} (ht : t ∈ l.belowFuel fuel root)
    (hs : s ∈ (l.scope t).children) : s ∈ l.belowFuel (fuel + 1) root := by
  induction fuel generalizing root with
  | zero =>
      simp only [belowFuel, List.mem_singleton] at ht
      subst ht
      rw [belowFuel, List.mem_cons, List.mem_flatMap]
      exact Or.inr ⟨s, hs, mem_belowFuel_self l 0 s⟩
  | succ fuel ih =>
      rw [belowFuel, List.mem_cons, List.mem_flatMap]
      right
      rw [belowFuel, List.mem_cons, List.mem_flatMap] at ht
      rcases ht with rfl | ⟨child, hchild, ht⟩
      · exact ⟨s, hs, mem_belowFuel_self l _ s⟩
      · exact ⟨child, hchild, ih ht⟩

theorem WellFormed.mem_belowFuel (h : l.WellFormed) {root : ScopeId}
    (hroot : root ∈ l.chain s) {fuel : Nat} (hfuel : s ≤ root + fuel) :
    s ∈ l.belowFuel fuel root := by
  induction s using Nat.strongRecOn generalizing fuel with
  | ind s ih =>
      rw [h.chain_eq, List.mem_cons] at hroot
      rcases hroot with rfl | hroot
      · exact mem_belowFuel_self l fuel root
      · cases hp : (l.scope s).parent with
        | none => simp [hp] at hroot
        | some p =>
            rw [hp, Option.elim_some] at hroot
            have hlt := h.parent_lt s p hp
            have hle := h.lt_of_mem_chain hroot
            cases fuel with
            | zero => exact absurd (hle.trans_lt hlt) (Nat.not_lt.mpr hfuel)
            | succ fuel =>
                have hfuel' : p ≤ root + fuel := Nat.le_of_lt_succ (hlt.trans_le hfuel)
                exact mem_belowFuel_child (ih p hlt hroot hfuel') ((h.child_iff s p).mpr hp)

theorem WellFormed.mem_chain_of_mem_belowFuel (h : l.WellFormed) {fuel : Nat} {root : ScopeId}
    (hs : s ∈ l.belowFuel fuel root) : root ∈ l.chain s ∧ ∀ t ∈ l.chain root, t ∈ l.chain s := by
  induction fuel generalizing root with
  | zero =>
      simp only [belowFuel, List.mem_singleton] at hs
      subst hs
      rw [h.chain_eq]
      exact ⟨List.mem_cons_self .., fun _ ht => ht⟩
  | succ fuel ih =>
      rw [belowFuel, List.mem_cons, List.mem_flatMap] at hs
      rcases hs with rfl | ⟨child, hchild, hs⟩
      · refine ⟨?_, fun _ ht => ht⟩
        rw [h.chain_eq]
        exact List.mem_cons_self ..
      · have hparent := (h.child_iff child root).mp hchild
        have hchain : ∀ t ∈ l.chain root, t ∈ l.chain child := by
          intro t ht
          rw [h.chain_eq child, hparent]
          exact List.mem_cons_of_mem _ ht
        have hinner := (ih hs).2
        have hroot : root ∈ l.chain root := by
          rw [h.chain_eq]
          exact List.mem_cons_self ..
        exact ⟨hinner root (hchain root hroot), fun t ht => hinner t (hchain t ht)⟩

theorem WellFormed.mem_below (h : l.WellFormed) {root : ScopeId} (hs : s < l.scopes.size)
    (hroot : root ∈ l.chain s) : s ∈ l.below root :=
  h.mem_belowFuel hroot (hs.le.trans (Nat.le_add_left _ _))

end Ledger

end Splice

import Splice.Proofs.Ledger.Growth

/-!
# What is known of truth values

A record starts without a truth value and is told the value of each store into it.
What it knows only gets less: two different values, or a value nothing is known of,
make it unknown for good.  So a truth value that is known in the end was given by
every store on the way (`Ledger.Tracks`).

The argument needs that a store finds the record it is told to.  The scopes of one
analysis are a region at the end of the ledger whose records all exist
(`Ledger.Region`), and looking up a name in the region does not leave it.
-/

namespace Splice

theorem Usage.constant_track {usage : Usage} {x : Truth} {v : Bool}
    (h : (usage.track x).truth.constant? = some v) :
    x = .ofBool v ∧ (usage.truth.constant? = some v ∨ usage.truth = .untracked) := by
  unfold Usage.track at h
  dsimp only at h
  split at h
  · cases h
  · next hopen =>
      simp only [Bool.or_eq_true, beq_iff_eq, not_or] at hopen
      have hx : ∀ w, x.constant? = some w → x = .ofBool w := by
        intro w hw
        cases x <;> cases hw <;> rfl
      split at h
      · next hfirst => exact ⟨hx v h, Or.inr (by simpa using hfirst)⟩
      · split at h
        · next hsame =>
            rw [beq_iff_eq] at hsame
            exact ⟨hx v h, Or.inl (hsame ▸ h)⟩
        · cases h

theorem Usage.track_ne_untracked (usage : Usage) (x : Truth) :
    (usage.track x).truth ≠ .untracked := by
  unfold Usage.track
  dsimp only
  split
  · nofun
  · next hopen =>
      simp only [Bool.or_eq_true, beq_iff_eq, not_or] at hopen
      split
      · exact hopen.1.1.2
      · split
        · exact hopen.1.1.2
        · nofun

namespace Ledger

variable {l l' l'' : Ledger} {root s : ScopeId} {base u : UsageId} {id : Text}

/-- The scopes from one position on lie inside one another and hold records from
another position on. -/
structure Region (root : ScopeId) (base : UsageId) (l : Ledger) : Prop where
  root_le : root ≤ l.scopes.size
  base_le : base ≤ l.usages.size
  records : ∀ s, root ≤ s → ∀ u ∈ (l.scope s).usages, base ≤ u ∧ u < l.usages.size
  parents : ∀ s, root ≤ s → ∀ q, (l.scope s).parent = some q → root ≤ q

theorem Region.own? (h : l.Region root base) (hs : root ≤ s) (hown : l.own? s id = some u) :
    base ≤ u ∧ u < l.usages.size :=
  h.records s hs u (List.mem_of_find?_eq_some hown)

theorem Region.chainFuel (h : l.Region root base) (fuel : Nat) (hs : root ≤ s) :
    ∀ t ∈ l.chainFuel fuel s, root ≤ t := by
  induction fuel generalizing s with
  | zero =>
      intro t ht
      rw [List.mem_singleton.mp ht]
      exact hs
  | succ fuel ih =>
      intro t ht
      rw [Ledger.chainFuel] at ht
      cases hparent : (l.scope s).parent with
      | none =>
          rw [hparent] at ht
          rw [List.mem_singleton.mp ht]
          exact hs
      | some q =>
          rw [hparent] at ht
          rcases List.mem_cons.mp ht with rfl | ht
          · exact hs
          · exact ih (h.parents s hs q hparent) t ht

theorem Region.find? (h : l.Region root base) (hs : root ≤ s) (hfind : l.find? s id = some u) :
    base ≤ u ∧ u < l.usages.size := by
  obtain ⟨t, ht, hown⟩ := List.exists_of_findSome?_eq_some hfind
  exact h.own? (h.chainFuel s hs t ht) hown

theorem region_openRoot (l : Ledger) :
    l.openRoot.2.Region l.scopes.size l.usages.size where
  root_le := by simp [openRoot]
  base_le := le_rfl
  records s hs u hu := by
    rw [scope_openRoot, scope_of_size_le hs] at hu
    cases hu
  parents s hs q hq := by
    rw [scope_openRoot, scope_of_size_le hs] at hq
    cases hq

theorem Region.modifyUsage (h : l.Region root base) (u : UsageId) (change : Usage → Usage) :
    (l.modifyUsage u change).Region root base where
  root_le := h.root_le
  base_le := by
    rw [size_modifyUsage]
    exact h.base_le
  records s hs v hv := by
    rw [size_modifyUsage]
    exact h.records s hs v hv
  parents := h.parents

theorem Region.openChild (h : l.Region root base) (hs : root ≤ s) :
    (l.openChild s).2.Region root base where
  root_le := by
    simp only [Ledger.openChild, Array.size_push, size_modifyScope]
    exact Nat.le_succ_of_le h.root_le
  base_le := h.base_le
  records t ht v hv := by
    rw [scope_openChild] at hv
    split at hv
    · cases hv
    · split at hv
      · exact h.records t ht v hv
      · exact h.records t ht v hv
  parents t ht q hq := by
    rw [scope_openChild] at hq
    split at hq
    · cases hq
      exact hs
    · split at hq
      · exact h.parents t ht q hq
      · exact h.parents t ht q hq

theorem Region.withNew (h : l.Region root base) (s : ScopeId) (id : Text) :
    (l.withNew s id).Region root base where
  root_le := by
    simp only [Ledger.withNew, size_modifyScope]
    exact h.root_le
  base_le := by
    simp only [Ledger.withNew, usages_modifyScope, Array.size_push]
    exact Nat.le_succ_of_le h.base_le
  records t ht v hv := by
    have hold : v ∈ (l.scope t).usages → base ≤ v ∧ v < l.usages.size + 1 := by
      intro hmem
      obtain ⟨hbase, hlt⟩ := h.records t ht v hmem
      exact ⟨hbase, Nat.lt_succ_of_lt hlt⟩
    rw [scope_withNew] at hv
    simp only [Ledger.withNew, usages_modifyScope, Array.size_push]
    split at hv
    · rcases List.mem_append.mp hv with hmem | hnew
      · exact hold hmem
      · rw [List.mem_singleton.mp hnew]
        exact ⟨h.base_le, Nat.lt_succ_self _⟩
    · exact hold hv
  parents t ht q hq := by
    rw [scope_withNew] at hq
    split at hq
    · exact h.parents t ht q hq
    · exact h.parents t ht q hq

theorem Region.define (h : l.Region root base) (hs : root ≤ s) (id : Text) :
    (l.define s id).2.Region root base ∧
      base ≤ (l.define s id).1 ∧ (l.define s id).1 < (l.define s id).2.usages.size := by
  cases hown : l.own? s id with
  | some u =>
      rw [define_of_own? hown]
      refine ⟨h.modifyUsage u _, ?_⟩
      rw [markDefined, size_modifyUsage]
      exact h.own? hs hown
  | none =>
      rw [define_of_own?_eq_none hown]
      refine ⟨(h.withNew s id).modifyUsage _ _, h.base_le, ?_⟩
      rw [markDefined, size_modifyUsage]
      simp [Ledger.withNew]

/-- A ledger with the same scopes, in which the same is known of every binding. -/
structure Quiet (l l' : Ledger) : Prop where
  scopes : l'.scopes.size = l.scopes.size
  usages : l'.usages.size = l.usages.size
  records : ∀ s, (l'.scope s).usages = (l.scope s).usages
  parents : ∀ s, (l'.scope s).parent = (l.scope s).parent
  truth : ∀ u, (l'.usage u).truth = (l.usage u).truth

theorem Quiet.refl (l : Ledger) : l.Quiet l where
  scopes := rfl
  usages := rfl
  records _ := rfl
  parents _ := rfl
  truth _ := rfl

theorem Quiet.trans (h : l.Quiet l') (h' : l'.Quiet l'') : l.Quiet l'' where
  scopes := h'.scopes.trans h.scopes
  usages := h'.usages.trans h.usages
  records s := (h'.records s).trans (h.records s)
  parents s := (h'.parents s).trans (h.parents s)
  truth u := (h'.truth u).trans (h.truth u)

theorem Quiet.region (h : l.Quiet l') (hl : l.Region root base) : l'.Region root base where
  root_le := by
    rw [h.scopes]
    exact hl.root_le
  base_le := by
    rw [h.usages]
    exact hl.base_le
  records s hs u hu := by
    rw [h.records] at hu
    rw [h.usages]
    exact hl.records s hs u hu
  parents s hs q hq := by
    rw [h.parents] at hq
    exact hl.parents s hs q hq

theorem truth_modifyUsage (l : Ledger) (u : UsageId) (change : Usage → Usage)
    (h : ∀ x, (change x).truth = x.truth) (v : UsageId) :
    ((l.modifyUsage u change).usage v).truth = (l.usage v).truth := by
  rw [usage_modifyUsage]
  split
  · exact h _
  · rfl

theorem quiet_modifyUsage (l : Ledger) (u : UsageId) (change : Usage → Usage)
    (h : ∀ x, (change x).truth = x.truth) : l.Quiet (l.modifyUsage u change) where
  scopes := rfl
  usages := size_modifyUsage change
  records _ := rfl
  parents _ := rfl
  truth := truth_modifyUsage l u change h

theorem quiet_foreignOrNew (l : Ledger) (s : ScopeId) (qualifier name : Text) :
    l.Quiet (l.foreignOrNew s qualifier name).2 := by
  cases hown : l.ownForeign? s qualifier name with
  | some f =>
      simp only [foreignOrNew, hown]
      exact Quiet.refl l
  | none =>
      rw [foreignOrNew_of_ownForeign?_eq_none hown]
      constructor
      · exact size_modifyScope _
      · rfl
      · intro t
        rw [scope_withNewForeign]
        split <;> rfl
      · intro t
        rw [scope_withNewForeign]
        split <;> rfl
      · intro u
        rfl

theorem quiet_mentionForeign (l : Ledger) (s : ScopeId) (qualifier name : Text)
    (r : Option Reader) : l.Quiet (l.mentionForeign s qualifier name r).2 := by
  have hrecord := quiet_foreignOrNew l s qualifier name
  cases r with
  | none => exact hrecord
  | some r =>
      refine hrecord.trans ?_
      simp only [mentionForeign, addForeignReader]
      have hforeign : ∀ (l : Ledger) (f : ForeignId) (change : ForeignUsage → ForeignUsage),
          l.Quiet (l.modifyForeign f change) :=
        fun _ _ _ => ⟨rfl, rfl, fun _ => rfl, fun _ => rfl, fun _ => rfl⟩
      split
      · exact (hforeign _ _ _).trans (quiet_modifyUsage _ _ _ fun _ => rfl)
      · exact hforeign _ _ _

theorem truth_markDefined (l : Ledger) (u v : UsageId) :
    ((l.markDefined u).usage v).truth = (l.usage v).truth :=
  truth_modifyUsage l u (fun usage => { usage with defined := true }) (fun _ => rfl) v

theorem truth_define (l : Ledger) (s : ScopeId) (id : Text) (v : UsageId) :
    ((l.define s id).2.usage v).truth = (l.usage v).truth := by
  cases hown : l.own? s id with
  | some u =>
      rw [define_of_own? hown]
      exact truth_markDefined l u v
  | none =>
      rw [define_of_own?_eq_none hown, truth_markDefined, usage_withNew]
      split
      · next hv => rw [hv, usage_of_size_le le_rfl]
      · rfl

/-! ## Stores -/

/-- A later ledger of a region, after some stores of known or unknown values.  A truth
value that it knows is the one that every store gave, and it comes from a store if it
was not known before. -/
structure Tracks (root : ScopeId) (base : UsageId) (l l' : Ledger)
    (stores : List (Option UsageId × Truth)) : Prop where
  region : l'.Region root base
  recorded : ∀ e ∈ stores, ∃ u, e.1 = some u ∧ base ≤ u
  known : ∀ u v, (l'.usage u).truth.constant? = some v →
    ((l.usage u).truth.constant? = some v ∨
      (l.usage u).truth = .untracked ∧ ∃ x, (some u, x) ∈ stores) ∧
    ∀ x, (some u, x) ∈ stores → x = .ofBool v
  untracked : ∀ u, (l'.usage u).truth = .untracked →
    (l.usage u).truth = .untracked ∧ ∀ x, (some u, x) ∉ stores

variable {stores stores' : List (Option UsageId × Truth)}

theorem Tracks.trans (h : Tracks root base l l' stores) (h' : Tracks root base l' l'' stores') :
    Tracks root base l l'' (stores ++ stores') where
  region := h'.region
  recorded e he := by
    rcases List.mem_append.mp he with he | he
    · exact h.recorded e he
    · exact h'.recorded e he
  known u v hv := by
    obtain ⟨hbefore, hlater⟩ := h'.known u v hv
    simp only [List.mem_append]
    rcases hbefore with hbefore | ⟨hbefore, x, hx⟩
    · obtain ⟨hfirst, hearlier⟩ := h.known u v hbefore
      refine ⟨?_, ?_⟩
      · rcases hfirst with hfirst | ⟨hfirst, x, hx⟩
        · exact Or.inl hfirst
        · exact Or.inr ⟨hfirst, x, Or.inl hx⟩
      · intro x hx
        rcases hx with hx | hx
        · exact hearlier x hx
        · exact hlater x hx
    · obtain ⟨hfirst, hnone⟩ := h.untracked u hbefore
      refine ⟨Or.inr ⟨hfirst, x, Or.inr hx⟩, ?_⟩
      intro y hy
      rcases hy with hy | hy
      · exact absurd hy (hnone y)
      · exact hlater y hy
  untracked u hu := by
    obtain ⟨hbefore, hlater⟩ := h'.untracked u hu
    obtain ⟨hfirst, hearlier⟩ := h.untracked u hbefore
    refine ⟨hfirst, ?_⟩
    intro x hx
    rcases List.mem_append.mp hx with hx | hx
    · exact hearlier x hx
    · exact hlater x hx

theorem tracks_of_truth (hl' : l'.Region root base)
    (h : ∀ u, (l'.usage u).truth = (l.usage u).truth) : Tracks root base l l' [] where
  region := hl'
  recorded := nofun
  known u v hv := by
    rw [h] at hv
    exact ⟨Or.inl hv, nofun⟩
  untracked u hu := by
    rw [h] at hu
    exact ⟨hu, nofun⟩

theorem Quiet.tracks (h : l.Quiet l') (hl : l.Region root base) : Tracks root base l l' [] :=
  tracks_of_truth (h.region hl) h.truth

theorem Region.tracks_openChild (h : l.Region root base) (hs : root ≤ s) :
    Tracks root base l (l.openChild s).2 [] :=
  tracks_of_truth (h.openChild hs) fun _ => rfl

theorem Region.tracks_define (h : l.Region root base) (hs : root ≤ s) (id : Text) :
    Tracks root base l (l.define s id).2 [] :=
  tracks_of_truth (h.define hs id).1 (truth_define l s id)

theorem Region.tracks_defineAll (h : l.Region root base) (hs : root ≤ s) (ids : List Text) :
    Tracks root base l (l.defineAll s ids) [] := by
  induction ids generalizing l with
  | nil => exact tracks_of_truth h fun _ => rfl
  | cons id rest ih => exact (h.tracks_define hs id).trans (ih (h.define hs id).1)

theorem Region.tracks_track (h : l.Region root base) (hbase : base ≤ u)
    (hu : u < l.usages.size) (x : Truth) :
    Tracks root base l (l.track u x) [(some u, x)] where
  region := h.modifyUsage u _
  recorded e he := by
    rw [List.mem_singleton.mp he]
    exact ⟨u, rfl, hbase⟩
  known w v hw := by
    rw [Ledger.track, usage_modifyUsage] at hw
    split at hw
    · next huw =>
        obtain rfl := huw.1
        obtain ⟨hx, hbefore⟩ := Usage.constant_track hw
        refine ⟨?_, ?_⟩
        · rcases hbefore with hbefore | hbefore
          · exact Or.inl hbefore
          · exact Or.inr ⟨hbefore, x, List.mem_singleton_self _⟩
        · intro y hy
          obtain ⟨-, rfl⟩ := Prod.mk.injEq .. ▸ List.mem_singleton.mp hy
          exact hx
    · next huw =>
        refine ⟨Or.inl hw, ?_⟩
        intro y hy
        cases List.mem_singleton.mp hy
        exact absurd ⟨rfl, hu⟩ huw
  untracked w hw := by
    rw [Ledger.track, usage_modifyUsage] at hw
    split at hw
    · exact absurd hw (Usage.track_ne_untracked _ _)
    · next huw =>
        refine ⟨hw, ?_⟩
        intro y hy
        cases List.mem_singleton.mp hy
        exact absurd ⟨rfl, hu⟩ huw

end Ledger

end Splice

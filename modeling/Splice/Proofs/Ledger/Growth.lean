import Splice.Proofs.Ledger.Recording

/-!
# How a ledger grows

The analysis opens a scope, fills it with the bindings of a list of statements, and
then enters the reads of the statements.  Once a scope is filled its bindings stay
as they are, so `Enters` can promise that everything seen before is seen as before.
-/

namespace Splice.Ledger

/-- A later ledger to which some reads of a namespace have been added. -/
structure Enters (file : NamespaceId) (l l' : Ledger) (reads : List Read) : Prop where
  wellFormed : l'.WellFormed
  extend : l.Extends l'
  accounts : ∀ before, l.Accounts before →
    l'.Accounts (before ++ reads.map (PlacedRead.mk file))
  unlinked : l.Unlinked → l'.Unlinked

variable {file : NamespaceId} {l l' l'' : Ledger} {reads reads' : List Read}

theorem Enters.refl (hl : l.WellFormed) : l.Enters file l [] where
  wellFormed := hl
  extend := Extends.refl l
  accounts before h := by simpa using h
  unlinked h := h

theorem Enters.trans (h : Enters file l l' reads) (h' : Enters file l' l'' reads') :
    Enters file l l'' (reads ++ reads') where
  wellFormed := h'.wellFormed
  extend := h.extend.trans h'.extend
  accounts before hbefore := by
    rw [List.map_append, ← List.append_assoc]
    exact h'.accounts _ (h.accounts before hbefore)
  unlinked hl := h'.unlinked (h.unlinked hl)

/-- A change that concerns no reader. -/
theorem Enters.of_accounts (hl' : l'.WellFormed) (hext : l.Extends l')
    (h : ∀ before, l.Accounts before → l'.Accounts before)
    (hunlinked : l.Unlinked → l'.Unlinked) : Enters file l l' [] where
  wellFormed := hl'
  extend := hext
  accounts before hbefore := by simpa using h before hbefore
  unlinked := hunlinked

/-- Reads without a record belong to no binding. -/
theorem Accounts.append_unlisted {before : List PlacedRead} (h : l.Accounts before)
    (hnone : ∀ r ∈ reads, r.usage = none ∧ r.record = none) :
    l.Accounts (before ++ reads.map (PlacedRead.mk file)) where
  usage u := by
    have hempty : (reads.map (PlacedRead.mk file)).filter (fun e => l.resolves u e.read) = [] := by
      simp only [List.filter_eq_nil_iff, List.mem_map, forall_exists_index, and_imp,
        forall_apply_eq_imp_iff₂]
      intro r hr
      simp [resolves, (hnone r hr).1, (hnone r hr).2]
    rw [readersOf, List.filter_append, hempty, List.append_nil]
    exact h.usage u
  foreign f := by
    have hempty : (reads.map (PlacedRead.mk file)).filter
        (fun e => e.read.record == some f) = [] := by
      simp only [List.filter_eq_nil_iff, List.mem_map, forall_exists_index, and_imp,
        forall_apply_eq_imp_iff₂]
      intro r hr
      simp [(hnone r hr).2]
    rw [foreignReadersOf, List.filter_append, hempty, List.append_nil]
    exact h.foreign f
  single e he := by
    rcases List.mem_append.mp he with hold | hnew
    · exact h.single e hold
    · obtain ⟨r, hr, rfl⟩ := List.mem_map.mp hnew
      exact Or.inl (hnone r hr).1

def FilesUnder (l : Ledger) (root : ScopeId) (qualifier name : Text) (f : ForeignId) : Prop :=
  ∃ t < l.scopes.size, root ∈ l.chain t ∧ l.Files t qualifier name f

theorem FilesUnder.extends {root : ScopeId} {qualifier name : Text} {f : ForeignId}
    (h : l.FilesUnder root qualifier name f) (hl : l.WellFormed) (hl' : l'.WellFormed)
    (hext : l.Extends l') : l'.FilesUnder root qualifier name f := by
  obtain ⟨t, ht, hroot, hfiles⟩ := h
  refine ⟨t, ht.trans_le hext.scopes_le, ?_, hfiles.extends hl ht hext⟩
  rw [hext.chain_eq hl hl' ht]
  exact hroot

def defineAll (l : Ledger) (s : ScopeId) (ids : List Text) : Ledger :=
  ids.foldl (fun l id => (l.define s id).2) l

/-- A scope that was opened after `l₀` and holds exactly the bindings of some
identifiers. -/
structure Filled (l₀ l : Ledger) (s : ScopeId) (parent : Option ScopeId) (ids : List Text) :
    Prop where
  wellFormed : l.WellFormed
  extend : l₀.Extends l
  lt : s < l.scopes.size
  parent : (l.scope s).parent = parent
  accounts : ∀ before, l₀.Accounts before → l.Accounts before
  unlinked : l₀.Unlinked → l.Unlinked
  own : ∀ id ∈ ids, (l.own? s id).isSome
  frame : ∀ b ∈ l.frame s, b.1 ∈ ids

variable {l₀ : Ledger} {s t : ScopeId} {parent : Option ScopeId} {ids : List Text}

theorem filled_openRoot (hl : l.WellFormed) :
    Filled l l.openRoot.2 l.scopes.size none [] where
  wellFormed := hl.openRoot
  extend := extends_openRoot l
  lt := by simp [openRoot]
  parent := by rw [scope_openRoot, scope_of_size_le le_rfl]
  accounts before h := h.congr (fun _ => rfl) (fun _ => rfl) (fun _ => rfl)
  unlinked h := ⟨h.loose, h.read, h.defined⟩
  own := by simp
  frame := by
    rw [Ledger.frame, scope_openRoot, scope_of_size_le le_rfl]
    simp

theorem filled_openChild (hl : l.WellFormed) (hs : s < l.scopes.size) :
    Filled l (l.openChild s).2 l.scopes.size (some s) [] where
  wellFormed := hl.openChild hs
  extend := extends_openChild l s
  lt := by simp [openChild]
  parent := parent_openChild l s
  accounts before h := h.congr (fun _ => rfl) (fun _ => rfl) (fun _ => rfl)
  unlinked h := ⟨h.loose, h.read, h.defined⟩
  own := by simp
  frame := by
    rw [frame_openChild]
    simp

theorem parent_define (l : Ledger) (s t : ScopeId) (id : Text) :
    ((l.define s id).2.scope t).parent = (l.scope t).parent := by
  cases hown : l.own? s id with
  | some u => rw [define_of_own? hown]; rfl
  | none =>
      rw [define_of_own?_eq_none hown, markDefined, scope_modifyUsage, scope_withNew]
      split <;> rfl

theorem Filled.define (h : Filled l₀ l s parent ids) (hs : l₀.scopes.size ≤ s) (id : Text) :
    Filled l₀ (l.define s id).2 s parent (ids ++ [id]) where
  wellFormed := h.wellFormed.define s id
  extend := h.extend.define hs id
  lt := by
    rw [size_scopes_define]
    exact h.lt
  parent := by
    rw [parent_define]
    exact h.parent
  accounts before hbefore := (h.accounts before hbefore).define s id
  unlinked hl := (h.unlinked hl).define s id
  own other hother := by
    rcases List.mem_append.mp hother with hold | hnew
    · exact own?_define_isSome h.wellFormed h.lt id (h.own other hold)
    · rw [List.mem_singleton.mp hnew, own?_define h.wellFormed h.lt]
      rfl
  frame b hb := by
    rw [frame_define h.wellFormed h.lt] at hb
    rcases List.mem_append.mp hb with hold | hnew
    · exact List.mem_append_left _ (h.frame b hold)
    · split at hnew
      · cases hnew
      · rw [List.mem_singleton.mp hnew]
        simp

theorem Filled.defineAll (h : Filled l₀ l s parent ids) (hs : l₀.scopes.size ≤ s)
    (more : List Text) : Filled l₀ (l.defineAll s more) s parent (ids ++ more) := by
  induction more generalizing l ids with
  | nil => simpa [Ledger.defineAll] using h
  | cons id rest ih => simpa [Ledger.defineAll] using ih (h.define hs id)

/-- What is seen in a filled scope: its bindings and what its parent sees. -/
theorem Filled.visible_eq (h : Filled l₀ l s (some t) ids) (hl₀ : l₀.WellFormed)
    (ht : t < l₀.scopes.size) : l.visible s = l.frame s ++ l₀.visible t := by
  rw [h.wellFormed.visible_eq, h.parent, Option.elim_some,
    h.extend.visible_eq hl₀ h.wellFormed ht]

theorem Filled.mem_chain (h : Filled l₀ l s (some t) ids) (hl₀ : l₀.WellFormed)
    (ht : t < l₀.scopes.size) {root : ScopeId} (hroot : root ∈ l₀.chain t) :
    root ∈ l.chain s := by
  rw [h.wellFormed.chain_eq, h.parent, Option.elim_some,
    h.extend.chain_eq hl₀ h.wellFormed ht]
  exact List.mem_cons_of_mem s hroot

end Splice.Ledger

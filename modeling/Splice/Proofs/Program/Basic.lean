import Splice.Program.Basic
import Mathlib.Tactic

/-!
# How the tables of a program change

Look-ups in the namespaces, symbols, references and name groups of a program after
each kind of change.  Everything that is said of programs later rests on these
equations.
-/

namespace Splice

namespace Groups

variable {groups : Groups} {s : SymbolId} {name other : Text}

theorem members_cons (n : Text) (members : List SymbolId) (rest : Groups) :
    Groups.members ((n, members) :: rest) other =
      if n = other then members else Groups.members rest other := by
  by_cases h : n = other
  · simp [Groups.members, h]
  · simp [Groups.members, h]

theorem members_add (groups : Groups) (s : SymbolId) (name other : Text) :
    (groups.add s name).members other =
      groups.members other ++ if name = other then [s] else [] := by
  induction groups with
  | nil =>
      rw [add, members_cons]
      rfl
  | cons g rest ih =>
      obtain ⟨n, members⟩ := g
      rw [add]
      by_cases hn : n = name
      · rw [if_pos (by simpa using hn), members_cons, members_cons]
        by_cases ho : n = other
        · simp [← hn, ho]
        · simp [← hn, ho]
      · rw [if_neg (by simpa using hn), members_cons, members_cons, ih]
        by_cases ho : n = other
        · have hname : name ≠ other := fun h => hn (ho.trans h.symm)
          simp [ho, hname]
        · simp [ho]

theorem names_add (groups : Groups) (s : SymbolId) (name : Text) :
    (groups.add s name).map Prod.fst =
      groups.map Prod.fst ++ if name ∈ groups.map Prod.fst then [] else [name] := by
  induction groups with
  | nil => rfl
  | cons g rest ih =>
      obtain ⟨n, members⟩ := g
      rw [add]
      by_cases hn : n = name
      · simp [hn]
      · rw [if_neg (by simpa using hn), List.map_cons, ih]
        have hmem : name ∈ n :: List.map Prod.fst rest ↔ name ∈ List.map Prod.fst rest := by
          rw [List.mem_cons, or_iff_right (fun h => hn h.symm)]
        simp only [hmem, List.map_cons, List.cons_append]

theorem nodup_add (h : (groups.map Prod.fst).Nodup) (s : SymbolId) (name : Text) :
    ((groups.add s name).map Prod.fst).Nodup := by
  rw [names_add]
  split
  · simpa using h
  · next hname =>
      simp only [List.nodup_append, List.nodup_cons, List.not_mem_nil, not_false_eq_true,
        List.nodup_nil, and_self, List.mem_singleton, ne_eq, true_and]
      refine ⟨h, ?_⟩
      rintro a ha b rfl rfl
      exact hname ha

/-- A group is what its name leads to, as no name stands twice. -/
theorem members_of_mem (h : (groups.map Prod.fst).Nodup) {g : Text × List SymbolId}
    (hg : g ∈ groups) : groups.members g.1 = g.2 := by
  induction groups with
  | nil => simp at hg
  | cons first rest ih =>
      obtain ⟨n, members⟩ := first
      rw [members_cons]
      rw [List.map_cons, List.nodup_cons] at h
      rcases List.mem_cons.mp hg with rfl | hrest
      · simp
      · have hne : n ≠ g.1 := by
          intro hn
          have hmem : g.1 ∈ rest.map Prod.fst := List.mem_map_of_mem hrest
          exact h.1 (hn ▸ hmem)
        rw [if_neg hne]
        exact ih h.2 hrest

theorem exists_mem_of_members (hs : s ∈ groups.members name) :
    ∃ g ∈ groups, g.1 = name ∧ s ∈ g.2 := by
  induction groups with
  | nil => simp [members] at hs
  | cons first rest ih =>
      obtain ⟨n, ms⟩ := first
      rw [members_cons] at hs
      split at hs
      · next hn => exact ⟨(n, ms), List.mem_cons_self, hn, hs⟩
      · obtain ⟨g, hg, hname, hmem⟩ := ih hs
        exact ⟨g, List.mem_cons_of_mem _ hg, hname, hmem⟩

theorem mem_of_members (h : (groups.map Prod.fst).Nodup) (hs : s ∈ groups.members name) :
    (name, groups.members name) ∈ groups := by
  obtain ⟨g, hg, rfl, -⟩ := exists_mem_of_members hs
  rw [members_of_mem h hg]
  exact hg

end Groups

namespace Program

variable {p : Program} {n m : NamespaceId} {s t : SymbolId} {r q : ReferenceId}

theorem spaceAt_modifySpace (p : Program) (n m : NamespaceId) (f : Namespace → Namespace) :
    (p.modifySpace n f).spaceAt m =
      if n = m ∧ m < p.namespaces.size then f (p.spaceAt m) else p.spaceAt m := by
  simp only [spaceAt, modifySpace, Array.getD_eq_getD_getElem?, Array.getElem?_modify]
  by_cases hnm : n = m
  · by_cases hm : m < p.namespaces.size
    · simp [hnm, hm]
    · simp [hnm, hm]
  · simp [hnm]

/-- What a change keeps of a namespace it keeps of all of them. -/
theorem spaceAt_modifySpace_same {α : Type} (p : Program) (n m : NamespaceId)
    (f : Namespace → Namespace) (part : Namespace → α) (h : ∀ ns, part (f ns) = part ns) :
    part ((p.modifySpace n f).spaceAt m) = part (p.spaceAt m) := by
  rw [spaceAt_modifySpace]
  split
  · exact h _
  · rfl

theorem spaceAt_push (p : Program) (ns : Namespace) (m : NamespaceId) :
    spaceAt { p with namespaces := p.namespaces.push ns } m =
      if m = p.namespaces.size then ns else p.spaceAt m := by
  simp only [spaceAt, Array.getD_eq_getD_getElem?, Array.getElem?_push]
  split <;> simp

theorem spaceAt_of_size_le (h : p.namespaces.size ≤ n) :
    p.spaceAt n = { id := [], unit := ⟨[], []⟩, key := [] } := by
  simp [spaceAt, h]

@[simp] theorem size_modifySpace (f : Namespace → Namespace) :
    (p.modifySpace n f).namespaces.size = p.namespaces.size := by
  simp [modifySpace]

@[simp] theorem symbols_modifySpace (f : Namespace → Namespace) :
    (p.modifySpace n f).symbols = p.symbols := rfl

@[simp] theorem references_modifySpace (f : Namespace → Namespace) :
    (p.modifySpace n f).references = p.references := rfl

@[simp] theorem properties_modifySpace (f : Namespace → Namespace) :
    (p.modifySpace n f).properties = p.properties := rfl

@[simp] theorem ledger_modifySpace (f : Namespace → Namespace) :
    (p.modifySpace n f).ledger = p.ledger := rfl

theorem symbol_push (p : Program) (new : Symbol) (t : SymbolId) :
    symbol { p with symbols := p.symbols.push new } t =
      if t = p.symbols.size then new else p.symbol t := by
  simp only [symbol, Array.getD_eq_getD_getElem?, Array.getElem?_push]
  split <;> simp

theorem symbol_modifySymbol (p : Program) (s t : SymbolId) (f : Symbol → Symbol) :
    (p.modifySymbol s f).symbol t =
      if s = t ∧ t < p.symbols.size then f (p.symbol t) else p.symbol t := by
  simp only [symbol, modifySymbol, Array.getD_eq_getD_getElem?, Array.getElem?_modify]
  by_cases hst : s = t
  · by_cases ht : t < p.symbols.size
    · simp [hst, ht]
    · simp [hst, ht]
  · simp [hst]

@[simp] theorem size_modifySymbol (f : Symbol → Symbol) :
    (p.modifySymbol s f).symbols.size = p.symbols.size := by
  simp [modifySymbol]

/-- Changing symbols one after another leaves all else as it is. -/
theorem foldl_modifySymbol_eq (p : Program) (ss : List SymbolId) (f : Symbol → Symbol) :
    ss.foldl (fun p s => p.modifySymbol s f) p =
      { p with symbols := (ss.foldl (fun p s => p.modifySymbol s f) p).symbols } := by
  induction ss generalizing p with
  | nil => rfl
  | cons s rest ih => exact ih (p.modifySymbol s f)

theorem size_foldl_modifySymbol (p : Program) (ss : List SymbolId) (f : Symbol → Symbol) :
    (ss.foldl (fun p s => p.modifySymbol s f) p).symbols.size = p.symbols.size := by
  induction ss generalizing p with
  | nil => rfl
  | cons s rest ih => exact (ih (p.modifySymbol s f)).trans (size_modifySymbol f)

theorem symbol_foldl_modifySymbol (p : Program) (ss : List SymbolId) {f : Symbol → Symbol}
    (hf : ∀ x, f (f x) = f x) (t : SymbolId) :
    (ss.foldl (fun p s => p.modifySymbol s f) p).symbol t =
      if t ∈ ss ∧ t < p.symbols.size then f (p.symbol t) else p.symbol t := by
  induction ss generalizing p with
  | nil => simp
  | cons s rest ih =>
      rw [List.foldl_cons, ih, symbol_modifySymbol, size_modifySymbol]
      by_cases ht : t < p.symbols.size
      · by_cases hs : s = t
        · by_cases hrest : t ∈ rest
          · simp [ht, hs, hrest, hf]
          · simp [ht, hs, hrest]
        · simp [ht, hs, Ne.symm hs]
      · simp [ht]

theorem reference_push (p : Program) (new : Reference) (q : ReferenceId) :
    reference { p with references := p.references.push new } q =
      if q = p.references.size then new else p.reference q := by
  simp only [reference, Array.getD_eq_getD_getElem?, Array.getElem?_push]
  split <;> simp

theorem reference_modify (p : Program) (r q : ReferenceId) (f : Reference → Reference) :
    reference { p with references := p.references.modify r f } q =
      if r = q ∧ q < p.references.size then f (p.reference q) else p.reference q := by
  simp only [reference, Array.getD_eq_getD_getElem?, Array.getElem?_modify]
  by_cases hrq : r = q
  · by_cases hq : q < p.references.size
    · simp [hrq, hq]
    · simp [hrq, hq]
  · simp [hrq]

end Program

end Splice

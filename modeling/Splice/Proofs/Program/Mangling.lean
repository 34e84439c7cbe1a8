import Splice.Program.Enums
import Splice.Program.Mangle
import Splice.Proofs.Action
import Splice.Proofs.Program.Pool

/-!
# Values of enum entries and numbers of names

Assigning enum values concerns no name.  Mangling writes numbers into symbols and
does nothing else.  In a pristine program every symbol stands in one group, so the
groups that take numbers share no symbol: all symbols of a group are given its
number, and only they are.
-/

namespace Splice.Program

variable {p p' : Program} {n m : NamespaceId} {s t : SymbolId} {name : Text}

theorem map_name_assignEnums (taken : List Int64) (next : Int64) (enums : List Enumeration) :
    (assignEnums taken next enums).1.map Enumeration.name = enums.map Enumeration.name := by
  induction enums generalizing taken next with
  | nil => rfl
  | cons e rest ih => simp only [assignEnums, List.map_cons, ih]

theorem map_assignSpaces {α : Type} (part : Namespace → α)
    (h : ∀ ns taken next, part { ns with enums := (assignEnums taken next ns.enums).1 } = part ns)
    (taken : List Int64) (next : Int64) (spaces : List Namespace) :
    (assignSpaces taken next spaces).map part = spaces.map part := by
  induction spaces generalizing taken next with
  | nil => rfl
  | cons ns rest ih => simp only [assignSpaces, List.map_cons, h, ih]

theorem spaceAt_assignSpaces {α : Type} (part : Namespace → α)
    (h : ∀ ns taken next, part { ns with enums := (assignEnums taken next ns.enums).1 } = part ns)
    (taken : List Int64) (next : Int64) (n : NamespaceId) :
    part (spaceAt { p with
        namespaces := (assignSpaces taken next p.namespaces.toList).toArray
        enumsAssigned := true } n) = part (p.spaceAt n) := by
  have hlist := map_assignSpaces part h taken next p.namespaces.toList
  have hget : (assignSpaces taken next p.namespaces.toList)[n]?.map part =
      p.namespaces.toList[n]?.map part := by
    rw [← List.getElem?_map, hlist, List.getElem?_map]
  simp only [spaceAt, Array.getD_eq_getD_getElem?, List.getElem?_toArray]
  rw [Array.getElem?_toList] at hget
  cases hnew : (assignSpaces taken next p.namespaces.toList)[n]? with
  | none =>
      cases hold : p.namespaces[n]? with
      | none => rfl
      | some ns => simp [hnew, hold] at hget
  | some ns' =>
      cases hold : p.namespaces[n]? with
      | none => simp [hnew, hold] at hget
      | some ns => simpa [hnew, hold] using hget

theorem yields_assignEnumValues : Yields assignEnumValues p fun _ p' => SameNames p p' := by
  have hrefl : SameNames p p :=
    ⟨rfl, rfl, rfl, rfl, rfl, rfl, rfl, rfl, fun _ => rfl, fun _ => rfl, fun _ => rfl,
      fun _ => rfl, fun _ => rfl⟩
  simp only [assignEnumValues, yields_bind, yields_get]
  split
  · simpa only [yields_pure] using hrefl
  · split
    · simp
    · simp only [yields_set]
      set taken := (p.enumEntries.filter (·.entry.explicit)).map (·.entry.value)
      have hsize : (assignSpaces taken 1 p.namespaces.toList).length = p.namespaces.size := by
        have hmap := congrArg List.length
          (map_assignSpaces Namespace.id (fun _ _ _ => rfl) taken 1 p.namespaces.toList)
        simpa using hmap
      constructor
      · rfl
      · rfl
      · rfl
      · rfl
      · rfl
      · rfl
      · rfl
      · simpa using hsize
      · exact spaceAt_assignSpaces Namespace.id (fun _ _ _ => rfl) taken 1
      · exact spaceAt_assignSpaces Namespace.groups (fun _ _ _ => rfl) taken 1
      · exact spaceAt_assignSpaces Namespace.references (fun _ _ _ => rfl) taken 1
      · exact spaceAt_assignSpaces Namespace.imports (fun _ _ _ => rfl) taken 1
      · exact spaceAt_assignSpaces Namespace.root (fun _ _ _ => rfl) taken 1

/-- Whatever of a namespace does not depend on the values of its enums stays. -/
theorem yields_assignEnumValues_part {α : Type} (part : Namespace → α)
    (h : ∀ ns taken next,
      part { ns with enums := (assignEnums taken next ns.enums).1 } = part ns) :
    Yields assignEnumValues p fun _ p' => ∀ n, part (p'.spaceAt n) = part (p.spaceAt n) := by
  simp only [assignEnumValues, yields_bind, yields_get]
  split
  · simp
  · split
    · simp
    · simp only [yields_set]
      exact spaceAt_assignSpaces part h _ 1

/-- The enums keep their names. -/
theorem yields_assignEnumValues_names :
    Yields assignEnumValues p fun _ p' =>
      ∀ n, (p'.spaceAt n).enums.map Enumeration.name =
        (p.spaceAt n).enums.map Enumeration.name :=
  yields_assignEnumValues_part (fun ns => ns.enums.map Enumeration.name) fun ns taken next =>
    map_name_assignEnums taken next ns.enums

/-- A group is all symbols of a name in a namespace, or all symbols of a property. -/
def IsGroup (p : Program) (g : NameGroup) : Prop :=
  (∃ n < p.namespaces.size, g.space = (p.spaceAt n).id ∧ g.members = p.symbolsOf n g.name) ∨
    (g.space = [] ∧ g.members = p.properties.members g.name)

theorem mem_nameGroups {spaces : List NamespaceId} {g : NameGroup} :
    g ∈ p.nameGroups spaces ↔
      (∃ n ∈ spaces, g.space = (p.spaceAt n).id ∧ (g.name, g.members) ∈ (p.spaceAt n).groups) ∨
        g.space = [] ∧ (g.name, g.members) ∈ p.properties := by
  obtain ⟨space, name, members⟩ := g
  rw [nameGroups, List.mem_append, List.mem_flatMap]
  constructor
  · rintro (⟨n, hn, hg⟩ | hg)
    · obtain ⟨x, hx, heq⟩ := List.mem_map.mp hg
      cases heq
      exact Or.inl ⟨n, hn, rfl, hx⟩
    · obtain ⟨x, hx, heq⟩ := List.mem_map.mp hg
      cases heq
      exact Or.inr ⟨rfl, hx⟩
  · rintro (⟨n, hn, rfl, hg⟩ | ⟨rfl, hg⟩)
    · exact Or.inl ⟨n, hn, List.mem_map.mpr ⟨_, hg, rfl⟩⟩
    · exact Or.inr (List.mem_map.mpr ⟨_, hg, rfl⟩)

theorem Pristine.isGroup (hp : p.Pristine) {spaces : List NamespaceId}
    (hspaces : ∀ n ∈ spaces, n < p.namespaces.size) {g : NameGroup}
    (hg : g ∈ p.nameGroups spaces) : p.IsGroup g := by
  rcases mem_nameGroups.mp hg with ⟨n, hn, hspace, hgroup⟩ | ⟨hspace, hgroup⟩
  · exact Or.inl ⟨n, hspaces n hn, hspace,
      (Groups.members_of_mem (hp.groups_nodup n) hgroup).symm⟩
  · exact Or.inr ⟨hspace, (Groups.members_of_mem hp.properties_nodup hgroup).symm⟩

theorem Pristine.symbol_eq_namespaced (hp : p.Pristine) (hs : s ∈ p.symbolsOf n name) :
    p.symbol s = ⟨name, (p.spaceAt n).id, .namespaced, false, none⟩ := by
  have hid := hp.id_ne n (lt_of_mem_symbolsOf hs)
  rw [hp.symbol_eq n name s hs, Symbol.ofName, if_neg (by simpa using hid)]

/-- Symbols that stand in one group have one name and one owner. -/
theorem Pristine.members_eq (hp : p.Pristine) {g h : NameGroup} (hg : p.IsGroup g)
    (hh : p.IsGroup h) (hsg : s ∈ g.members) (hsh : s ∈ h.members) : g.members = h.members := by
  rcases hg with ⟨n, hn, -, hg⟩ | ⟨-, hg⟩
  · rw [hg] at hsg
    have hsymbol := hp.symbol_eq_namespaced hsg
    rcases hh with ⟨m, hm, -, hh⟩ | ⟨-, hh⟩
    · rw [hh] at hsh
      have howner := hp.symbol_owner n m _ _ s hsg hsh
      have hname : g.name = h.name := by
        have hsymbol' := hp.symbol_eq_namespaced hsh
        rw [hsymbol] at hsymbol'
        exact congrArg Symbol.name hsymbol'
      rw [hg, hh, howner, hname]
    · rw [hh] at hsh
      have hproperty := hp.property_eq _ s hsh
      rw [hsymbol] at hproperty
      cases congrArg Symbol.kind hproperty
  · rw [hg] at hsg
    have hsymbol := hp.property_eq _ s hsg
    rcases hh with ⟨m, hm, -, hh⟩ | ⟨-, hh⟩
    · rw [hh] at hsh
      have hnamespaced := hp.symbol_eq_namespaced hsh
      rw [hsymbol] at hnamespaced
      cases congrArg Symbol.kind hnamespaced
    · rw [hh] at hsh
      have hname : g.name = h.name := by
        have hsymbol' := hp.property_eq _ s hsh
        rw [hsymbol] at hsymbol'
        exact congrArg Symbol.name hsymbol'
      rw [hg, hh, hname]

theorem Pristine.member_lt (hp : p.Pristine) {g : NameGroup} (hg : p.IsGroup g)
    (hs : s ∈ g.members) : s < p.symbols.size := by
  rcases hg with ⟨n, -, -, hg⟩ | ⟨-, hg⟩
  · rw [hg] at hs
    exact hp.symbol_lt n _ s hs
  · rw [hg] at hs
    exact hp.property_lt _ s hs

theorem Pristine.mem_symbolsOf (hp : p.Pristine) {g : Text × List SymbolId}
    (hg : g ∈ (p.spaceAt n).groups) (hs : s ∈ g.2) : s ∈ p.symbolsOf n g.1 := by
  rw [symbolsOf, Groups.members_of_mem (hp.groups_nodup n) hg]
  exact hs

theorem Pristine.mem_properties (hp : p.Pristine) {g : Text × List SymbolId}
    (hg : g ∈ p.properties) (hs : s ∈ g.2) : s ∈ p.properties.members g.1 := by
  rw [Groups.members_of_mem hp.properties_nodup hg]
  exact hs

/-- No symbol belongs to a name of a namespace and to a property. -/
theorem Pristine.not_mem_symbolsOf_of_property {other : Text} (hp : p.Pristine)
    (hs : s ∈ p.properties.members name) : s ∉ p.symbolsOf n other := by
  intro hmem
  have hsymbol := hp.symbol_eq_namespaced hmem
  rw [hp.property_eq _ s hs] at hsymbol
  cases congrArg Symbol.kind hsymbol

theorem Pristine.pairwise_properties (hp : p.Pristine) :
    p.properties.Pairwise fun g h => g.2.Disjoint h.2 := by
  have hnames := hp.properties_nodup
  rw [List.Nodup, List.pairwise_map] at hnames
  refine hnames.imp_of_mem ?_
  intro g h hg hh hne s hs hs'
  have hsymbol := hp.property_eq _ s (hp.mem_properties hg hs)
  rw [hp.property_eq _ s (hp.mem_properties hh hs')] at hsymbol
  exact hne (congrArg Symbol.name hsymbol).symm

theorem Pristine.pairwise_nameGroups (hp : p.Pristine) {spaces : List NamespaceId}
    (hnodup : spaces.Nodup) :
    (p.nameGroups spaces).Pairwise fun g h => g.members.Disjoint h.members := by
  rw [nameGroups, List.pairwise_append]
  refine ⟨?_, ?_, ?_⟩
  · rw [List.pairwise_flatMap]
    refine ⟨?_, ?_⟩
    · intro n hn
      rw [List.pairwise_map]
      have hnames := hp.groups_nodup n
      rw [List.Nodup, List.pairwise_map] at hnames
      refine hnames.imp_of_mem ?_
      intro g h hg hh hne s hs hs'
      have hsymbol := hp.symbol_eq_namespaced (hp.mem_symbolsOf hg hs)
      rw [hp.symbol_eq_namespaced (hp.mem_symbolsOf hh hs')] at hsymbol
      exact hne (congrArg Symbol.name hsymbol).symm
    · refine hnodup.imp_of_mem ?_
      intro n m hn hm hne g hg h hh s hs hs'
      obtain ⟨g, hgroup, rfl⟩ := List.mem_map.mp hg
      obtain ⟨h, hgroup', rfl⟩ := List.mem_map.mp hh
      exact hne (hp.symbol_owner n m _ _ s (hp.mem_symbolsOf hgroup hs)
        (hp.mem_symbolsOf hgroup' hs'))
  · rw [List.pairwise_map]
    exact hp.pairwise_properties
  · intro g hg h hh s hs hs'
    obtain ⟨n, hn, hmem⟩ := List.mem_flatMap.mp hg
    obtain ⟨g, hgroup, rfl⟩ := List.mem_map.mp hmem
    obtain ⟨h, hgroup', rfl⟩ := List.mem_map.mp hh
    exact hp.not_mem_symbolsOf_of_property (hp.mem_properties hgroup' hs')
      (hp.mem_symbolsOf hgroup hs)

/-- A symbol of a property stands in one group, even if a namespace is given twice. -/
theorem Pristine.pairwise_of_property (hp : p.Pristine) (hs : s ∈ p.properties.members name)
    (spaces : List NamespaceId) :
    (p.nameGroups spaces).Pairwise fun g h => s ∈ g.members → s ∉ h.members := by
  have hnot : ∀ g ∈ spaces.flatMap fun n =>
      (p.spaceAt n).groups.map fun x => (⟨(p.spaceAt n).id, x.1, x.2⟩ : NameGroup),
      s ∉ g.members := by
    intro g hg hmem
    obtain ⟨n, -, hg⟩ := List.mem_flatMap.mp hg
    obtain ⟨x, hx, rfl⟩ := List.mem_map.mp hg
    exact hp.not_mem_symbolsOf_of_property hs (hp.mem_symbolsOf hx hmem)
  rw [nameGroups, List.pairwise_append]
  refine ⟨?_, ?_, ?_⟩
  · exact List.pairwise_of_forall_mem_list fun g hg _ _ hmem => absurd hmem (hnot g hg)
  · rw [List.pairwise_map]
    exact hp.pairwise_properties.imp fun hdisjoint hmem hmem' => hdisjoint hmem hmem'
  · exact fun g hg _ _ hmem => absurd hmem (hnot g hg)

theorem mem_manglePool {spaces : List NamespaceId} {g : NameGroup} :
    g ∈ p.manglePool spaces ↔ g ∈ p.nameGroups spaces ∧ p.isMangled g = true := by
  rw [manglePool, List.mem_filter, List.mem_mergeSort]

/-- Names that stand in the order of their weights need not be sorted. -/
theorem manglePool_eq {spaces : List NamespaceId} (h : (p.nameGroups spaces).Pairwise fun a b =>
    b.members.length ≤ a.members.length) :
    p.manglePool spaces = (p.nameGroups spaces).filter p.isMangled := by
  rw [manglePool, List.mergeSort_of_pairwise]
  exact h.imp fun hle => decide_eq_true hle

theorem exists_mem_zipIdx {α : Type} {l : List α} {x : α} (h : x ∈ l) :
    ∃ i, (x, i) ∈ l.zipIdx := by
  obtain ⟨i, hlt, hget⟩ := List.getElem_of_mem h
  exact ⟨i, List.mem_zipIdx_iff_getElem?.mpr (by rw [List.getElem?_eq_getElem hlt, hget])⟩

/-- Groups that are given numbers relate as all groups do. -/
theorem pairwise_manglePool_of {R : NameGroup → NameGroup → Prop} {spaces : List NamespaceId}
    (hsymm : ∀ {g h}, R g h → R h g) (h : (p.nameGroups spaces).Pairwise R) :
    (p.manglePool spaces).Pairwise R := by
  rw [manglePool]
  apply List.Pairwise.filter
  have hperm := List.mergeSort_perm (p.nameGroups spaces)
    fun a b => decide (b.members.length ≤ a.members.length)
  rw [hperm.pairwise_iff hsymm]
  exact h

theorem pairwise_zipIdx_manglePool {R : NameGroup → NameGroup → Prop} {spaces : List NamespaceId}
    (hsymm : ∀ {g h}, R g h → R h g) (h : (p.nameGroups spaces).Pairwise R) :
    (p.manglePool spaces).zipIdx.Pairwise fun g h => R g.1 h.1 := by
  have hpool := pairwise_manglePool_of hsymm h
  rwa [← List.zipIdx_map_fst 0 (p.manglePool spaces), List.pairwise_map] at hpool

/-! ## Writing the numbers -/

theorem mangle_idem (x : Symbol) (k : Int64) : (x.mangle k).mangle k = x.mangle k := by
  unfold Symbol.mangle
  split
  · next h =>
      rw [if_pos]
      exact h
  · rfl

theorem id_mangle (x : Symbol) (k : Int64) : (x.mangle k).id = x.id := by
  unfold Symbol.mangle
  split <;> rfl

def mangleGroups (p : Program) (pool : List (NameGroup × Nat)) : Program :=
  pool.foldl (fun p g => p.mangleGroup g.1 g.2) p

theorem mangle_fst (p : Program) (spaces : List NamespaceId) :
    (p.mangle spaces).1 = (p.manglePool spaces).zipIdx.map fun g => p.mangleEntry g.1 g.2 := rfl

theorem mangle_snd (p : Program) (spaces : List NamespaceId) :
    (p.mangle spaces).2 = p.mangleGroups (p.manglePool spaces).zipIdx := rfl

def withSymbols (p : Program) (symbols : Array Symbol) : Program := { p with symbols }

theorem exists_mangleGroup_eq (p : Program) (g : NameGroup) (code : Nat) :
    ∃ symbols, p.mangleGroup g code = p.withSymbols symbols :=
  ⟨_, foldl_modifySymbol_eq p g.members _⟩

theorem exists_mangleGroups_eq (p : Program) (pool : List (NameGroup × Nat)) :
    ∃ symbols, p.mangleGroups pool = p.withSymbols symbols := by
  induction pool generalizing p with
  | nil => exact ⟨p.symbols, rfl⟩
  | cons g rest ih =>
      obtain ⟨first, hfirst⟩ := exists_mangleGroup_eq p g.1 g.2
      obtain ⟨last, hlast⟩ := ih (p.mangleGroup g.1 g.2)
      refine ⟨last, ?_⟩
      change (p.mangleGroup g.1 g.2).mangleGroups rest = _
      rw [hlast, hfirst]
      rfl

theorem symbol_mangleGroup (p : Program) (g : NameGroup) (code : Nat) (s : SymbolId) :
    (p.mangleGroup g code).symbol s =
      if s ∈ g.members ∧ s < p.symbols.size then (p.symbol s).mangle (Int64.ofNat code)
      else p.symbol s :=
  symbol_foldl_modifySymbol p g.members (fun x => mangle_idem x _) s

theorem size_mangleGroup (p : Program) (g : NameGroup) (code : Nat) :
    (p.mangleGroup g code).symbols.size = p.symbols.size :=
  size_foldl_modifySymbol p g.members _

theorem id_symbol_mangleGroups (p : Program) (pool : List (NameGroup × Nat)) (s : SymbolId) :
    ((p.mangleGroups pool).symbol s).id = (p.symbol s).id := by
  induction pool generalizing p with
  | nil => rfl
  | cons g rest ih =>
      change (((p.mangleGroup g.1 g.2).mangleGroups rest).symbol s).id = _
      rw [ih, symbol_mangleGroup]
      split
      · exact id_mangle _ _
      · rfl

theorem symbol_mangleGroups_of_not_mem {pool : List (NameGroup × Nat)}
    (h : ∀ g ∈ pool, s ∉ g.1.members) : (p.mangleGroups pool).symbol s = p.symbol s := by
  induction pool generalizing p with
  | nil => rfl
  | cons g rest ih =>
      change ((p.mangleGroup g.1 g.2).mangleGroups rest).symbol s = _
      rw [ih fun h' hh' => h h' (List.mem_cons_of_mem _ hh'), symbol_mangleGroup, if_neg]
      exact fun hc => h g (List.mem_cons_self ..) hc.1

theorem symbol_mangleGroups_of_mem {pool : List (NameGroup × Nat)}
    (hpool : pool.Pairwise fun g h => s ∈ g.1.members → s ∉ h.1.members) {g : NameGroup × Nat}
    (hg : g ∈ pool) (hs : s ∈ g.1.members) (hlt : s < p.symbols.size) :
    (p.mangleGroups pool).symbol s = (p.symbol s).mangle (Int64.ofNat g.2) := by
  induction pool generalizing p with
  | nil => simp at hg
  | cons first rest ih =>
      rw [List.pairwise_cons] at hpool
      change ((p.mangleGroup first.1 first.2).mangleGroups rest).symbol s = _
      rcases List.mem_cons.mp hg with rfl | hg
      · rw [symbol_mangleGroups_of_not_mem (fun h hh => hpool.1 h hh hs), symbol_mangleGroup,
          if_pos ⟨hs, hlt⟩]
      · have hne : s ∉ first.1.members := fun hmem => hpool.1 g hg hmem hs
        rw [ih hpool.2 hg (by rw [size_mangleGroup]; exact hlt), symbol_mangleGroup,
          if_neg (fun hc => hne hc.1)]

theorem Pristine.symbol_mangle (hp : p.Pristine) {spaces : List NamespaceId}
    (hspaces : ∀ n ∈ spaces, n < p.namespaces.size) (hnodup : spaces.Nodup)
    {g : NameGroup} {code : Nat} (hg : (g, code) ∈ (p.manglePool spaces).zipIdx)
    (hs : s ∈ g.members) :
    (p.mangle spaces).2.symbol s = (p.symbol s).mangle (Int64.ofNat code) := by
  have hmem : g ∈ p.manglePool spaces := List.fst_mem_of_mem_zipIdx hg
  have hgroup := hp.isGroup hspaces (mem_manglePool.mp hmem).1
  rw [mangle_snd]
  refine symbol_mangleGroups_of_mem ?_ hg hs (hp.member_lt hgroup hs)
  refine (pairwise_zipIdx_manglePool (fun hdisjoint => hdisjoint.symm)
    (hp.pairwise_nameGroups hnodup)).imp ?_
  exact fun hdisjoint hmem hmem' => hdisjoint hmem hmem'

/-- Symbols of one group are written the same way, with or without numbers. -/
theorem Pristine.symbol_mangle_eq (hp : p.Pristine) {spaces : List NamespaceId}
    (hspaces : ∀ n ∈ spaces, n < p.namespaces.size) (hnodup : spaces.Nodup)
    (hs : s ∈ p.symbolsOf n name) (ht : t ∈ p.symbolsOf n name) :
    (p.mangle spaces).2.symbol s = (p.mangle spaces).2.symbol t := by
  have hsame : p.symbol s = p.symbol t := by
    rw [hp.symbol_eq n name s hs, hp.symbol_eq n name t ht]
  have hgroup : p.IsGroup ⟨(p.spaceAt n).id, name, p.symbolsOf n name⟩ :=
    Or.inl ⟨n, lt_of_mem_symbolsOf hs, rfl, rfl⟩
  have hmembers : ∀ g ∈ p.manglePool spaces, s ∈ g.members ∨ t ∈ g.members →
      g.members = p.symbolsOf n name := by
    intro g hg hor
    have hg' := hp.isGroup hspaces (mem_manglePool.mp hg).1
    rcases hor with hmem | hmem
    · exact hp.members_eq hg' hgroup hmem hs
    · exact hp.members_eq hg' hgroup hmem ht
  by_cases hpool : ∃ g ∈ (p.manglePool spaces).zipIdx, s ∈ g.1.members
  · obtain ⟨⟨g, code⟩, hg, hmem⟩ := hpool
    have hgmem : g ∈ p.manglePool spaces := List.fst_mem_of_mem_zipIdx hg
    have ht' : t ∈ g.members := by
      rw [hmembers g hgmem (Or.inl hmem)]
      exact ht
    rw [hp.symbol_mangle hspaces hnodup hg hmem, hp.symbol_mangle hspaces hnodup hg ht', hsame]
  · have hs' : ∀ g ∈ (p.manglePool spaces).zipIdx, s ∉ g.1.members :=
      fun g hg hmem => hpool ⟨g, hg, hmem⟩
    have ht' : ∀ g ∈ (p.manglePool spaces).zipIdx, t ∉ g.1.members := by
      rintro ⟨g, code⟩ hg hmem
      have hgmem : g ∈ p.manglePool spaces := List.fst_mem_of_mem_zipIdx hg
      apply hs' (g, code) hg
      rw [show (g, code).1.members = _ from hmembers g hgmem (Or.inr hmem)]
      exact hs
    rw [mangle_snd, symbol_mangleGroups_of_not_mem hs', symbol_mangleGroups_of_not_mem ht', hsame]

end Splice.Program

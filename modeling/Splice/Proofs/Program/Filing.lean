import Splice.Proofs.Program.Identifiers
import Splice.Proofs.Program.Mangling

/-!
# Where symbols are filed

A program keeps its symbols in tables by name, one for each namespace and one for the
properties.  However a program came about, the tables hold exactly the symbols that were
made for their names, in the order in which they were made, and the names stand in the order
of their first use.  Numbers have no part in this.  So it is proved of the program without
them, its bare form: every step on a program is the same step on the bare program, or none
at all (`Program.Develops.filed`).
-/

namespace Splice

namespace Symbol

variable {x : Symbol}

def plain (x : Symbol) : Symbol := { x with number := none }

@[simp] theorem plain_ofName (space name : Text) : (ofName space name).plain = ofName space name := by
  unfold ofName
  split <;> rfl

theorem plain_retain (x : Symbol) : x.retain.plain = x.plain.retain := by
  simp [plain, retain]

@[simp] theorem plain_mangle (x : Symbol) (k : Int64) : (x.mangle k).plain = x.plain := by
  unfold mangle
  split <;> rfl

end Symbol

def Namespace.bare (ns : Namespace) : Namespace :=
  { id := ns.id, unit := ns.unit, key := ns.key, groups := ns.groups }

namespace Program

variable {p p' q : Program} {n m : NamespaceId} {s t : SymbolId} {space name : Text}

/-- A program with nothing but its names, none of which has a number. -/
def bare (p : Program) : Program where
  workingDir := p.workingDir
  retainGlobs := p.retainGlobs
  symbols := p.symbols.map Symbol.plain
  namespaces := p.namespaces.map Namespace.bare
  properties := p.properties
  retainedNames := p.retainedNames

@[simp] theorem size_symbols_bare (p : Program) : p.bare.symbols.size = p.symbols.size := by
  simp [bare]

@[simp] theorem size_bare (p : Program) : p.bare.namespaces.size = p.namespaces.size := by
  simp [bare]

theorem symbol_bare (p : Program) (s : SymbolId) : p.bare.symbol s = (p.symbol s).plain := by
  simp only [symbol, bare, Array.getD_eq_getD_getElem?, Array.getElem?_map]
  cases p.symbols[s]? <;> rfl

theorem spaceAt_bare (p : Program) (n : NamespaceId) : p.bare.spaceAt n = (p.spaceAt n).bare := by
  simp only [spaceAt, bare, Array.getD_eq_getD_getElem?, Array.getElem?_map]
  cases p.namespaces[n]? <;> rfl

theorem isRetainedName_bare (p : Program) (name : Text) :
    p.bare.isRetainedName name = p.isRetainedName name := rfl

/-- Changing an entry before or after a change of all entries. -/
theorem map_modify {α β : Type} {f : α → α} {g : β → β} {e : α → β} (a : Array α) (i : Nat)
    (h : ∀ x, e (f x) = g (e x)) : (a.modify i f).map e = (a.map e).modify i g := by
  ext j hj hj'
  · simp
  · simp only [Array.getElem_map, Array.getElem_modify]
    split
    · exact h _
    · rfl

theorem modify_id {α : Type} (a : Array α) (i : Nat) : a.modify i id = a := by
  ext j hj hj'
  · simp
  · simp [Array.getElem_modify]

theorem bare_modifySpace {f g : Namespace → Namespace} (p : Program) (n : NamespaceId)
    (h : ∀ ns, (f ns).bare = g ns.bare) : (p.modifySpace n f).bare = p.bare.modifySpace n g := by
  simp only [modifySpace, bare, map_modify p.namespaces n h]

theorem bare_addSymbol (p : Program) (n : NamespaceId) (name : Text) :
    (p.addSymbol n name).2.bare = (p.bare.addSymbol n name).2 := by
  rw [addSymbol, addSymbol]
  dsimp only
  rw [bare_modifySpace _ n
    (g := fun ns => { ns with groups := ns.groups.add p.symbols.size name }) fun _ => rfl]
  simp only [bare, Array.map_push, Symbol.plain_ofName, Array.size_map]
  rw [← bare, spaceAt_bare]
  rfl

theorem bare_addProperty (p : Program) (name : Text) :
    (p.addProperty name).2.bare = (p.bare.addProperty name).2 := by
  simp only [addProperty, bare, Array.map_push, Array.size_map]
  rfl

theorem bare_modifySymbol {f g : Symbol → Symbol} (p : Program) (s : SymbolId)
    (h : ∀ x, (f x).plain = g x.plain) :
    (p.modifySymbol s f).bare = p.bare.modifySymbol s g := by
  simp only [modifySymbol, bare, map_modify p.symbols s h]

theorem bare_foldl_modifySymbol {f g : Symbol → Symbol} (p : Program) (ss : List SymbolId)
    (h : ∀ x, (f x).plain = g x.plain) :
    (ss.foldl (fun p s => p.modifySymbol s f) p).bare =
      ss.foldl (fun p s => p.modifySymbol s g) p.bare := by
  induction ss generalizing p with
  | nil => rfl
  | cons s rest ih => rw [List.foldl_cons, List.foldl_cons, ih, bare_modifySymbol p s h]

theorem bare_retainProperty (p : Program) (name : Text) :
    (p.retainProperty name).bare = p.bare.retainProperty name :=
  bare_foldl_modifySymbol _ _ Symbol.plain_retain

theorem bare_register (p : Program) (unit : SourceUnit) :
    (p.register unit).2.bare = (p.bare.register unit).2 := by
  have hused : p.bare.isUsedId = p.isUsedId := by
    funext id
    simp only [isUsedId, bare, Array.any_map]
    rfl
  have hid : p.bare.uniqueId unit.shortName = p.uniqueId unit.shortName := by
    simp only [uniqueId, hused, size_bare]
  have hkey : p.bare.normalLocation unit.location = p.normalLocation unit.location :=
    normalLocation_congr rfl _
  simp only [register, hid, hkey]
  simp only [bare, Array.map_push]
  rfl

/-- A change of numbers does not show. -/
theorem bare_modifySymbol_same {f : Symbol → Symbol} (p : Program) (s : SymbolId)
    (h : ∀ x, (f x).plain = x.plain) : (p.modifySymbol s f).bare = p.bare := by
  rw [bare_modifySymbol p s (g := id) h, modifySymbol, modify_id]

theorem bare_mangleGroup (p : Program) (g : NameGroup) (code : Nat) :
    (p.mangleGroup g code).bare = p.bare := by
  unfold mangleGroup
  induction g.members generalizing p with
  | nil => rfl
  | cons s rest ih =>
      rw [List.foldl_cons, ih]
      exact bare_modifySymbol_same p s fun x => x.plain_mangle _

theorem bare_mangle (p : Program) (spaces : List NamespaceId) :
    (p.mangle spaces).2.bare = p.bare := by
  rw [mangle_snd]
  induction (p.manglePool spaces).zipIdx generalizing p with
  | nil => rfl
  | cons g rest ih =>
      change ((p.mangleGroup g.1 g.2).mangleGroups rest).bare = p.bare
      rw [ih, bare_mangleGroup]

theorem isMangled_bare (p : Program) (g : NameGroup) : p.bare.isMangled g = p.isMangled g := by
  unfold isMangled
  cases g.members with
  | nil => rfl
  | cons leading rest =>
      dsimp only
      rw [symbol_bare]
      rfl

theorem nameGroups_bare (p : Program) (spaces : List NamespaceId) :
    p.bare.nameGroups spaces = p.nameGroups spaces := by
  simp only [nameGroups, spaceAt_bare]
  rfl

theorem manglePool_bare (p : Program) (spaces : List NamespaceId) :
    p.bare.manglePool spaces = p.manglePool spaces := by
  rw [manglePool, manglePool, nameGroups_bare]
  exact List.filter_congr fun g _ => isMangled_bare p g

/-- The symbols that were made for a name of a namespace, or of the properties if there is
none, in the order in which they were made. -/
def identities (p : Program) (space name : Text) : List SymbolId :=
  (List.range p.symbols.size).filter fun s =>
    (p.symbol s).space == space && (p.symbol s).name == name

theorem mem_identities :
    s ∈ p.identities space name ↔
      s < p.symbols.size ∧ (p.symbol s).space = space ∧ (p.symbol s).name = name := by
  simp [identities]

theorem identities_congr (hsize : p'.symbols.size = p.symbols.size)
    (hspace : ∀ s, (p'.symbol s).space = (p.symbol s).space)
    (hname : ∀ s, (p'.symbol s).name = (p.symbol s).name) (space name : Text) :
    p'.identities space name = p.identities space name := by
  simp only [identities, hsize, hspace, hname]

theorem identities_bare (p : Program) (space name : Text) :
    p.bare.identities space name = p.identities space name :=
  identities_congr (size_symbols_bare p) (fun s => by rw [symbol_bare]; rfl)
    (fun s => by rw [symbol_bare]; rfl) space name

theorem identities_of_push {new : Symbol} (hsymbols : p'.symbols = p.symbols.push new)
    (space name : Text) :
    p'.identities space name = p.identities space name ++
      if new.space = space ∧ new.name = name then [p.symbols.size] else [] := by
  have hsymbol : ∀ s, p'.symbol s = if s = p.symbols.size then new else p.symbol s := by
    intro s
    rw [← symbol_push, symbol, hsymbols]
    rfl
  have hold : (List.range p.symbols.size).filter (fun s =>
      (p'.symbol s).space == space && (p'.symbol s).name == name) = p.identities space name := by
    refine List.filter_congr fun s hs => ?_
    rw [hsymbol, if_neg (List.mem_range.mp hs).ne]
  rw [identities, hsymbols, Array.size_push, List.range_succ, List.filter_append, hold]
  simp [hsymbol, List.filter_cons]

theorem identities_addSymbol (h : (p.spaceAt n).id ≠ []) (name space other : Text) :
    (p.addSymbol n name).2.identities space other = p.identities space other ++
      if (p.spaceAt n).id = space ∧ name = other then [p.symbols.size] else [] := by
  have hnew : Symbol.ofName (p.spaceAt n).id name =
      ⟨name, (p.spaceAt n).id, .namespaced, false, none⟩ := by
    rw [Symbol.ofName, if_neg (by simpa using h)]
  rw [identities_of_push (p := p) rfl, hnew]

theorem identities_addProperty (p : Program) (name space other : Text) :
    (p.addProperty name).2.identities space other = p.identities space other ++
      if [] = space ∧ name = other then [p.symbols.size] else [] := by
  rw [identities_of_push (p := p) rfl]
  rfl

theorem identities_retainProperty (p : Program) (name space other : Text) :
    (p.retainProperty name).identities space other = p.identities space other := by
  refine identities_congr (size_retainProperty p name) (fun s => ?_) (fun s => ?_) space other
  · rw [symbol_retainProperty]
    split <;> rfl
  · rw [symbol_retainProperty]
    split <;> rfl

end Program

/-- Every name has symbols, and its first one was made before all of the names after it. -/
structure Groups.ByFirstUse (groups : Groups) : Prop where
  ne_nil : ∀ g ∈ groups, g.2 ≠ []
  first : groups.Pairwise fun g h => ∃ s ∈ g.2, ∀ t ∈ h.2, s < t

theorem Groups.mem_add {groups : Groups} {s : SymbolId} {name : Text} {g : Text × List SymbolId}
    (h : g ∈ groups.add s name) :
    g ∈ groups ∨ ∃ members, (members = [] ∨ (name, members) ∈ groups) ∧
      g = (name, members ++ [s]) := by
  induction groups with
  | nil => exact Or.inr ⟨[], Or.inl rfl, List.mem_singleton.mp h⟩
  | cons first rest ih =>
      obtain ⟨n, members⟩ := first
      rw [add] at h
      split at h
      · next hn =>
          rw [beq_iff_eq] at hn
          subst hn
          rcases List.mem_cons.mp h with rfl | hrest
          · exact Or.inr ⟨members, Or.inr List.mem_cons_self, rfl⟩
          · exact Or.inl (List.mem_cons_of_mem _ hrest)
      · rcases List.mem_cons.mp h with rfl | hrest
        · exact Or.inl List.mem_cons_self
        · rcases ih hrest with hold | ⟨members, hmembers, rfl⟩
          · exact Or.inl (List.mem_cons_of_mem _ hold)
          · exact Or.inr ⟨members, hmembers.imp_right (List.mem_cons_of_mem _), rfl⟩

/-- A symbol that is made after all others keeps the order. -/
theorem Groups.ByFirstUse.add {groups : Groups} {s : SymbolId} (h : groups.ByFirstUse)
    (hs : ∀ g ∈ groups, ∀ t ∈ g.2, t < s) (name : Text) : (groups.add s name).ByFirstUse where
  ne_nil := by
    intro g hg
    rcases Groups.mem_add hg with hold | ⟨members, -, rfl⟩
    · exact h.ne_nil g hold
    · simp
  first := by
    obtain ⟨hne, hfirst⟩ := h
    induction groups with
    | nil => exact List.pairwise_singleton _ _
    | cons g rest ih =>
        obtain ⟨n, members⟩ := g
        rw [List.pairwise_cons] at hfirst
        rw [Groups.add]
        split
        · refine List.pairwise_cons.mpr ⟨fun h hh => ?_, hfirst.2⟩
          obtain ⟨t, ht, hbefore⟩ := hfirst.1 h hh
          exact ⟨t, List.mem_append_left _ ht, hbefore⟩
        · have hrest := ih (fun g hg => hs g (List.mem_cons_of_mem _ hg))
            (fun g hg => hne g (List.mem_cons_of_mem _ hg)) hfirst.2
          refine List.pairwise_cons.mpr ⟨fun h hh => ?_, hrest⟩
          rcases Groups.mem_add hh with hold | ⟨others, hothers, rfl⟩
          · exact hfirst.1 h hold
          · obtain ⟨t, ht, hbefore⟩ : ∃ t ∈ members, ∀ u ∈ others, t < u := by
              rcases hothers with rfl | hothers
              · obtain ⟨t, ht⟩ := List.exists_mem_of_ne_nil _ (hne _ List.mem_cons_self)
                exact ⟨t, ht, by simp⟩
              · exact hfirst.1 _ hothers
            refine ⟨t, ht, fun u hu => ?_⟩
            rcases List.mem_append.mp hu with hu | hu
            · exact hbefore u hu
            · rw [List.mem_singleton.mp hu]
              exact hs _ List.mem_cons_self t ht

namespace Program

variable {p p' q : Program} {n m : NamespaceId} {s t : SymbolId} {space name : Text}

/-! ## Filed programs -/

/-- The tables hold what was made for their names, and the namespaces of all symbols are
there. -/
structure Filed (p : Program) : Prop where
  pristine : p.Pristine
  identified : p.Identified
  owned : ∀ s, (p.symbol s).space = [] ∨
    ∃ n < p.namespaces.size, (p.symbol s).space = (p.spaceAt n).id
  names : ∀ n < p.namespaces.size, ∀ name,
    p.symbolsOf n name = p.identities (p.spaceAt n).id name
  properties : ∀ name, p.properties.members name = p.identities [] name
  namesByUse : ∀ n, (p.spaceAt n).groups.ByFirstUse
  propertiesByUse : p.properties.ByFirstUse

namespace Filed

theorem lt_of_mem_groups (h : p.Filed) {g : Text × List SymbolId} (hg : g ∈ (p.spaceAt n).groups)
    (hs : s ∈ g.2) : s < p.symbols.size :=
  h.pristine.symbol_lt n g.1 s (h.pristine.mem_symbolsOf hg hs)

theorem lt_of_mem_properties (h : p.Filed) {g : Text × List SymbolId} (hg : g ∈ p.properties)
    (hs : s ∈ g.2) : s < p.symbols.size :=
  h.pristine.property_lt g.1 s (h.pristine.mem_properties hg hs)

theorem addSymbol (h : p.Filed) (hn : n < p.namespaces.size) (name : Text) :
    (p.addSymbol n name).2.Filed := by
  have hne := h.pristine.id_ne n hn
  have hid : ∀ m, ((p.addSymbol n name).2.spaceAt m).id = (p.spaceAt m).id := fun m =>
    spaceAt_addSymbol_same p n m name Namespace.id fun _ _ => rfl
  have hsize : (p.addSymbol n name).2.namespaces.size = p.namespaces.size := size_modifySpace _
  constructor
  · exact h.pristine.addSymbol n name
  · constructor
    · intro m hm k hk hmk
      rw [hid, hid] at hmk
      exact h.identified.distinct m (by omega) k (by omega) hmk
    · intro m hm
      rw [hid]
      exact h.identified.word m (by omega)
  · intro s
    rw [symbol_addSymbol, hsize]
    split
    · exact Or.inr ⟨n, hn, by rw [hid, Symbol.ofName, if_neg (by simpa using hne)]⟩
    · simp only [hid]
      exact h.owned s
  · intro m hm other
    rw [hsize] at hm
    have hiff : (n = m ∧ m < p.namespaces.size ∧ name = other) ↔
        ((p.spaceAt n).id = (p.spaceAt m).id ∧ name = other) :=
      ⟨fun hc => ⟨by rw [hc.1], hc.2.2⟩,
        fun hc => ⟨h.identified.distinct n hn m hm hc.1, hm, hc.2⟩⟩
    rw [symbolsOf_addSymbol, hid, identities_addSymbol hne, h.names m hm]
    simp only [hiff]
  · intro other
    rw [identities_addSymbol hne, if_neg (fun hc => hne hc.1), List.append_nil]
    exact h.properties other
  · intro m
    rw [groups_addSymbol]
    split
    · exact (h.namesByUse m).add (fun g hg t ht => h.lt_of_mem_groups hg ht) name
    · exact h.namesByUse m
  · exact h.propertiesByUse

theorem addProperty (h : p.Filed) (name : Text) : (p.addProperty name).2.Filed := by
  constructor
  · exact h.pristine.addProperty name
  · exact ⟨h.identified.distinct, h.identified.word⟩
  · intro s
    rw [symbol_addProperty]
    split
    · exact Or.inl rfl
    · exact h.owned s
  · intro n hn other
    rw [identities_addProperty, if_neg (fun hc => h.pristine.id_ne n hn hc.1.symm),
      List.append_nil]
    exact h.names n hn other
  · intro other
    rw [members_addProperty, identities_addProperty, h.properties]
    simp only [true_and]
  · exact h.namesByUse
  · exact h.propertiesByUse.add (fun g hg t ht => h.lt_of_mem_properties hg ht) name

theorem retainProperty (h : p.Filed) (name : Text) : (p.retainProperty name).Filed := by
  have hspaceAt : ∀ n, (p.retainProperty name).spaceAt n = p.spaceAt n := by
    rw [retainProperty_eq]
    exact fun _ => rfl
  have hsize : (p.retainProperty name).namespaces.size = p.namespaces.size := by
    rw [retainProperty_eq]
  have hproperties : (p.retainProperty name).properties = p.properties := by
    rw [retainProperty_eq]
  have hspace : ∀ s, ((p.retainProperty name).symbol s).space = (p.symbol s).space := by
    intro s
    rw [symbol_retainProperty]
    split <;> rfl
  constructor
  · exact h.pristine.retainProperty name
  · constructor
    · simpa only [hspaceAt, hsize] using h.identified.distinct
    · simpa only [hspaceAt, hsize] using h.identified.word
  · simpa only [hspace, hspaceAt, hsize] using h.owned
  · simpa only [symbolsOf, hspaceAt, hsize, identities_retainProperty] using h.names
  · simpa only [hproperties, identities_retainProperty] using h.properties
  · simpa only [hspaceAt] using h.namesByUse
  · simpa only [hproperties] using h.propertiesByUse

theorem register (h : p.Filed) (unit : SourceUnit) : (p.register unit).2.Filed := by
  have hold : ∀ n < p.namespaces.size, (p.register unit).2.spaceAt n = p.spaceAt n := by
    intro n hn
    rw [spaceAt_register, if_neg hn.ne]
  have hsize := size_register p unit
  constructor
  · exact (works_register (n := 0) h.pristine unit).pristine
  · exact h.identified.register unit
  · intro s
    refine (h.owned s).imp_right ?_
    rintro ⟨n, hn, hspace⟩
    exact ⟨n, by omega, by rw [hold n hn]; exact hspace⟩
  · intro n hn name
    rw [hsize] at hn
    rcases Nat.lt_succ_iff_lt_or_eq.mp hn with hlt | rfl
    · rw [symbolsOf, hold n hlt]
      exact h.names n hlt name
    · -- The identifier is new, so that no symbol was made for it.
      rw [symbolsOf, spaceAt_register, if_pos rfl]
      refine (List.filter_eq_nil_iff.mpr fun s _ hs => ?_).symm
      have hspace : (p.symbol s).space = p.uniqueId unit.shortName :=
        beq_iff_eq.mp (Bool.and_eq_true_iff.mp hs).1
      rcases h.owned s with hnil | ⟨m, hm, hid⟩
      · exact uniqueId_ne (shortName_ne unit) (hspace.symm.trans hnil)
      · have hused := isUsedId_iff.mpr ⟨m, hm, hid.symm.trans hspace⟩
        rw [isUsedId_uniqueId] at hused
        cases hused
  · exact h.properties
  · intro n
    rw [spaceAt_register]
    split
    · exact ⟨by simp, List.Pairwise.nil⟩
    · exact h.namesByUse n
  · exact h.propertiesByUse

theorem create {workingDir : Text} {patterns : List Text} {readPattern : PatternReader}
    (h : Program.create workingDir patterns readPattern = .ok p) : p.bare.Filed := by
  obtain ⟨globs, rfl⟩ := exists_create_eq h
  have hbare : bare { workingDir, retainGlobs := globs } =
      { workingDir, retainGlobs := globs } := by
    simp [bare]
  rw [hbare]
  refine ⟨pristine_empty workingDir globs, ⟨?_, ?_⟩, ?_, ?_, ?_, ?_, ?_⟩
  · exact fun _ hn => absurd hn (Nat.not_lt_zero _)
  · exact fun _ hn => absurd hn (Nat.not_lt_zero _)
  · exact fun _ => Or.inl rfl
  · exact fun _ hn => absurd hn (Nat.not_lt_zero _)
  · exact fun _ => rfl
  · exact fun _ => ⟨by simp [spaceAt], by simp [spaceAt]⟩
  · exact ⟨by simp, List.Pairwise.nil⟩

end Filed

/-- What is asked of the properties of a program: a place that mentions a name gets a symbol,
and a name is retained. -/
inductive PropertyCall where
  | mention (name : Text)
  | retain (name : Text)
deriving DecidableEq, Repr

def PropertyCall.perform : PropertyCall → Program → Program
  | mention name, p => (p.addProperty name).2
  | retain name, p => p.retainProperty name

def PropertyCall.ofDeclaration? : Declaration → Option PropertyCall
  | .property name => some (.mention name)
  | .retain name => some (.retain name)
  | _ => none

/-- Work that concerns neither names nor the places of namespaces. -/
structure SameTables (p p' : Program) : Prop where
  symbols : p'.symbols = p.symbols
  bare : p'.bare = p.bare

/-- A later state of a program, with what was asked of its properties in between.  Besides,
namespaces are registered and get names, numbers are given, and work is done that concerns
no name, in any order. -/
inductive Develops (p : Program) : List PropertyCall → Program → Prop
  | refl : Develops p [] p
  | call {calls : List PropertyCall} {q : Program} (c : PropertyCall) :
      Develops p calls q → Develops p (calls ++ [c]) (c.perform q)
  | register {calls : List PropertyCall} {q : Program} (unit : SourceUnit) :
      Develops p calls q → Develops p calls (q.register unit).2
  | name {calls : List PropertyCall} {q : Program} {n : NamespaceId} (name : Text) :
      Develops p calls q → n < q.namespaces.size → Develops p calls (q.addSymbol n name).2
  | mangle {calls : List PropertyCall} {q : Program} (spaces : List NamespaceId) :
      Develops p calls q → Develops p calls (q.mangle spaces).2
  | work {calls : List PropertyCall} {q q' : Program} :
      Develops p calls q → q.SameTables q' → Develops p calls q'

namespace Develops

variable {p₀ : Program} {calls : List PropertyCall}

theorem openAt (h : Develops p₀ calls p) {loader : Loader} {location : Text}
    {opened : NamespaceId × Bool} (hopen : Program.openAt (some loader) location p = .ok opened q) :
    Develops p₀ calls q := by
  obtain ⟨-, -, rfl⟩ | ⟨-, text, -, -, rfl⟩ := openAt_cases hopen
  · exact h
  · exact h.register _

theorem openUnit (h : Develops p₀ calls p) (unit : SourceUnit) :
    Develops p₀ calls (p.openUnit unit).2 := by
  unfold Program.openUnit
  split
  · exact h
  · exact h.register unit

theorem modifySpace (h : Develops p₀ calls p) (n : NamespaceId) {f : Namespace → Namespace}
    (hf : ∀ ns, (f ns).bare = ns.bare) : Develops p₀ calls (p.modifySpace n f) := by
  refine h.work ⟨rfl, ?_⟩
  rw [bare_modifySpace p n (g := id) hf, Program.modifySpace, modify_id]

theorem enactOne (h : Develops p₀ calls p) (hn : n < p.namespaces.size) (d : Declaration) :
    Develops p₀ (calls ++ (PropertyCall.ofDeclaration? d).toList) (Program.enactOne n p d) := by
  have hquiet : ∀ {q}, Develops p₀ calls q → Develops p₀ (calls ++ []) q := fun h => by
    rwa [List.append_nil]
  cases d with
  | symbol name => exact hquiet (h.name name hn)
  | property name => exact h.call (.mention name)
  | reference qualifier name member offset =>
      have hpushed : Develops p₀ calls { p with
          references := p.references.push { qualifier, name, member, offset } } :=
        h.work ⟨rfl, rfl⟩
      exact hquiet (hpushed.modifySpace n fun _ => rfl)
  | import_ qualifier path offset => exact hquiet (h.modifySpace n fun _ => rfl)
  | generatedAlias => exact hquiet (h.work ⟨rfl, rfl⟩)
  | enum name offset => exact hquiet (h.modifySpace n fun _ => rfl)
  | entry enum entry => exact hquiet (h.modifySpace n fun _ => rfl)
  | retain name => exact h.call (.retain name)

theorem size_enactOne (p : Program) (n : NamespaceId) (d : Declaration) :
    (Program.enactOne n p d).namespaces.size = p.namespaces.size := by
  cases d with
  | retain name => rw [Program.enactOne, retainProperty_eq]
  | _ => simp [Program.enactOne, addSymbol, addProperty, addReference, addPending, addEnum, addEntry]

/-- The source of a namespace asks of the properties what its declarations do, in order. -/
theorem enact (h : Develops p₀ calls p) (hn : n < p.namespaces.size) (ds : List Declaration) :
    Develops p₀ (calls ++ ds.filterMap PropertyCall.ofDeclaration?) (p.enact n ds) := by
  induction ds generalizing p calls with
  | nil =>
      rw [List.filterMap_nil, List.append_nil]
      exact h
  | cons d rest ih =>
      have hcalls : (d :: rest).filterMap PropertyCall.ofDeclaration? =
          (PropertyCall.ofDeclaration? d).toList ++
            rest.filterMap PropertyCall.ofDeclaration? := by
        rw [List.filterMap_cons]
        cases PropertyCall.ofDeclaration? d <;> rfl
      rw [hcalls, ← List.append_assoc]
      exact ih (h.enactOne hn d) (by rwa [size_enactOne])

/-- The tables of a program hold what was made for their names, whatever numbers were
given. -/
theorem filed (h : Develops p₀ calls p) (hp : p₀.bare.Filed) : p.bare.Filed := by
  induction h with
  | refl => exact hp
  | call c _ ih =>
      cases c with
      | mention name =>
          rw [PropertyCall.perform, bare_addProperty]
          exact ih.addProperty name
      | retain name =>
          rw [PropertyCall.perform, bare_retainProperty]
          exact ih.retainProperty name
  | register unit _ ih =>
      rw [bare_register]
      exact ih.register unit
  | name name _ hn ih =>
      rw [bare_addSymbol]
      exact ih.addSymbol (by rw [size_bare]; exact hn) name
  | mangle spaces _ ih =>
      rw [bare_mangle]
      exact ih
  | work _ hsame ih =>
      rw [hsame.bare]
      exact ih

theorem id_ne (h : Develops p₀ calls p) (hp : p₀.bare.Filed) (hn : n < p.namespaces.size) :
    (p.spaceAt n).id ≠ [] := by
  have hbare := (h.filed hp).pristine.id_ne n (by rwa [size_bare])
  rwa [spaceAt_bare] at hbare

end Develops

end Program

end Splice

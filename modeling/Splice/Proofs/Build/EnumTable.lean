import Splice.Proofs.Build.EntryReads
import Splice.Proofs.Build.Registration

/-!
# The table of enum entries

A build registers the entries of its enums ahead of the code: all of them, or, where dead
code is removed, those that are read by what is left.  Which entries these are is noted
while code is generated.  The notes of a namespace tell an entry by the names of its enum
and of itself, the table by its full name, and since identifiers have no colon the two
ways to tell an entry agree.
-/

namespace Splice

/-- The entries of a namespace under their full names, in the order of their
declaration. -/
def Namespace.entryRows (ns : Namespace) : List (Text × Int64) :=
  ns.enums.flatMap fun e =>
    e.entries.map fun entry => (ns.entryName e.name entry.name, entry.value)

theorem EntryUse.name_eq (u : EntryUse) : u.name = u.space ++ 58 :: u.key := by
  have hcolon : (":" : Text) = [58] := by decide
  rw [name, key, hcolon]
  simp

theorem Namespace.entryName_eq_key (ns : Namespace) (enum entry : Text) :
    ns.entryName enum entry = ns.id ++ 58 :: (enum ++ ("." : Text) ++ entry) :=
  EntryUse.name_eq ⟨ns.id, enum, entry, 0⟩

namespace Program

variable {p p' : Program} {trees : List Tree} {u : EntryUse} {o : BuildOptions}
  {readPattern : PatternReader}

def entryTable (p : Program) (trees : List Tree) : List (Text × Int64) :=
  trees.flatMap fun t => (p.spaceAt t.owner).entryRows

def namedEntries (p : Program) (trees : List Tree) : List EntryUse :=
  trees.flatMap fun t => t.exprs.filterMap (p.namedEntry? t.owner)

/-- The enum table of a build, and how it fits the code for the trees that are left. -/
structure Tables (o : BuildOptions) (trees : List Tree) (p : Program) (r : BuildResult) :
    Prop where
  namespaces : r.namespaces = trees.map p.namespaceCode
  /-- The registrations of the table come first, then the code of the trees. -/
  code : r.Emits (trees.map p.codeOf)
  all : o.removeDeadCode = false → r.enumTable = p.entryTable trees
  /-- With dead code removed the entries are left that what is left names. -/
  live : o.removeDeadCode = true → r.enumTable =
    (p.entryTable trees).filter fun row => (p.namedEntries trees).any fun u => u.name == row.1
  /-- An expression that names an entry is coded as the integer of the entry. -/
  reads : ∀ t ∈ trees, ∀ x ∈ t.exprs, ∀ u, p.namedEntry? t.owner x = some u →
    x.instr p.coding = .number u.value ∧ (u.name, u.value) ∈ r.enumTable
  distinct : (r.enumTable.map Prod.fst).Nodup

theorem generateTree_notes {t : Tree} (hp : p.Identified) (hlt : t.owner < p.namespaces.size)
    (hapt : ∀ x ∈ t.exprs, x.Apt (p.checkContext t.owner)) :
    NotesUses t.owner t.exprs (generateTree t) p := by
  simp only [NotesUses, generateTree, yields_bind]
  refine (generateStmts_notes t.statements hp hlt hapt).mono ?_
  intro is p₁ hnotes
  simp only [advance, yields_bind, yields_get]
  split
  · simp
  · simp only [yields_set, yields_pure]
    have hsame := sameCoding_modifySpace p₁ t.owner
      (fun ns => { ns with stage := Stage.emitted }) (fun _ => rfl) (fun _ => rfl) fun _ => rfl
    have hlast := hsame.notes fun m =>
      spaceAt_modifySpace_same p₁ t.owner m _ Namespace.usedEntries fun _ => rfl
    have hwhole := hnotes.trans hlast
    rw [List.append_nil] at hwhole
    exact hwhole

theorem emitAll_notes (trees : List Tree) (hp : p.Identified)
    (hlt : ∀ t ∈ trees, t.owner < p.namespaces.size)
    (hapt : ∀ t ∈ trees, ∀ x ∈ t.exprs, x.Apt (p.checkContext t.owner)) :
    Yields (emitAll trees) p fun _ p' =>
      Notes (trees.flatMap fun t => Expr.entryUses p.coding (p.spaceAt t.owner).id t.exprs)
        p p' := by
  induction trees generalizing p with
  | nil =>
      simp only [emitAll, yields_pure]
      exact Notes.refl p
  | cons t rest ih =>
      simp only [emitAll, yields_bind, yields_get, yields_pure]
      refine (yields_mapFailure (generateTree_notes hp (hlt t List.mem_cons_self)
        (hapt t List.mem_cons_self))).mono ?_
      intro is p₁ hfirst
      have hsame := hfirst.toSameCoding
      refine (ih (hp.of_ids hsame.size hsame.id) ?_ ?_).mono ?_
      · intro u hu
        rw [hsame.size]
        exact hlt u (List.mem_cons_of_mem _ hu)
      · intro u hu x hx
        exact (hapt u (List.mem_cons_of_mem _ hu) x hx).of_enums (hsame.enums u.owner)
      · intro codes p₂ hrest
        simp only [hsame.coding, hsame.id] at hrest
        rw [List.flatMap_cons]
        exact hfirst.trans hrest

theorem KnowsEntries.emitAll_notes (h : KnowsEntries p trees) :
    Yields (emitAll trees) p fun _ p' => Notes (p.namedEntries trees) p p' := by
  refine (Program.emitAll_notes trees h.identified h.lt h.apt).mono ?_
  intro codes p' hnotes
  have huses : (trees.flatMap fun t => Expr.entryUses p.coding (p.spaceAt t.owner).id t.exprs) =
      p.namedEntries trees := by
    refine List.flatMap_congr fun t ht => ?_
    exact List.filterMap_congr fun x hx => (h.named t ht x hx).symm
  rw [← huses]
  exact hnotes

/-- What an expression of the trees names is declared in the namespace of one of them. -/
theorem KnowsEntries.exists_declares (h : KnowsEntries p trees) (hu : u ∈ p.namedEntries trees) :
    ∃ t ∈ trees, p.Declares t.owner u := by
  obtain ⟨t, ht, hmem⟩ := List.mem_flatMap.mp hu
  obtain ⟨x, -, hx⟩ := List.mem_filterMap.mp hmem
  obtain ⟨m, hm, hdeclares⟩ := exists_declares_of_namedEntry? hx
  rcases hm with rfl | ⟨qualifier, htarget⟩
  · exact ⟨t, ht, hdeclares⟩
  · obtain ⟨t', ht', rfl⟩ := List.mem_map.mp (h.targets t ht qualifier m htarget)
    exact ⟨t', ht', hdeclares⟩

theorem Declares.mem_entryRows {m : NamespaceId} (h : p.Declares m u) :
    (u.name, u.value) ∈ (p.spaceAt m).entryRows := by
  obtain ⟨e, he, entry, hentry, rfl⟩ := h
  exact List.mem_flatMap.mpr ⟨e, he, List.mem_map_of_mem hentry⟩

/-- An entry is noted as used exactly if its full name is that of an entry that is
named. -/
theorem KnowsEntries.isEntryUsed_eq (h : KnowsEntries p trees)
    (hnotes : Notes (p.namedEntries trees) p p') {t : Tree} (ht : t ∈ trees)
    (enum entry : Text) :
    (p'.spaceAt t.owner).isEntryUsed enum entry =
      (p.namedEntries trees).any fun u =>
        u.name == (p.spaceAt t.owner).entryName enum entry := by
  have hlt := h.lt t ht
  rw [Bool.eq_iff_iff, Namespace.isEntryUsed, List.contains_iff_mem, hnotes.used _ hlt,
    h.unused, List.any_eq_true]
  simp only [List.not_mem_nil, false_or, beq_iff_eq, Namespace.entryName_eq_key,
    EntryUse.name_eq]
  constructor
  · rintro ⟨u, hu, hspace, hkey⟩
    exact ⟨u, hu, by rw [hspace, hkey]⟩
  · rintro ⟨u, hu, heq⟩
    obtain ⟨t', ht', e, -, x, -, hdeclared⟩ := h.exists_declares hu
    have hword : Text.IsWord u.space := by
      rw [hdeclared]
      exact h.identified.word _ (h.lt t' ht')
    obtain ⟨hspace, hkey⟩ := Text.append_cons_inj hword.colon_not_mem
      (h.identified.word _ hlt).colon_not_mem heq
    exact ⟨u, hu, hspace, hkey⟩

theorem map_enumRows (p : Program) (trees : List Tree) :
    (p.enumRows trees).map (fun row => (row.name, row.value)) = p.entryTable trees := by
  simp only [enumRows, entryTable, Namespace.entryRows, List.map_flatMap, List.map_map]
  rfl

theorem SameCoding.entryTable (h : SameCoding p p') (trees : List Tree) :
    p'.entryTable trees = p.entryTable trees := by
  simp only [Program.entryTable, Namespace.entryRows, Namespace.entryName, h.id, h.enums]

/-- The flags of the rows tell the entries that are named. -/
theorem KnowsEntries.used_enumRows (h : KnowsEntries p trees)
    (hnotes : Notes (p.namedEntries trees) p p') :
    ∀ row ∈ p'.enumRows trees,
      row.used = (p.namedEntries trees).any fun u => u.name == row.name := by
  intro row hrow
  obtain ⟨t, ht, hrow⟩ := List.mem_flatMap.mp hrow
  obtain ⟨e, -, hrow⟩ := List.mem_flatMap.mp hrow
  obtain ⟨entry, -, rfl⟩ := List.mem_map.mp hrow
  dsimp only
  rw [h.isEntryUsed_eq hnotes ht]
  simp only [Namespace.entryName, hnotes.id]

theorem KnowsEntries.filter_enumRows (h : KnowsEntries p trees)
    (hnotes : Notes (p.namedEntries trees) p p') :
    ((p'.enumRows trees).filter (isRegistered o)).map (fun row => (row.name, row.value)) =
      (p.entryTable trees).filter fun row =>
        !o.removeDeadCode || (p.namedEntries trees).any fun u => u.name == row.1 := by
  rw [← hnotes.toSameCoding.entryTable, ← map_enumRows, List.filter_map]
  congr 1
  refine List.filter_congr fun row hrow => ?_
  simp only [isRegistered, Function.comp_apply, h.used_enumRows hnotes row hrow]

theorem yields_emitPhases_tables (h : KnowsEntries p trees) (symbols : List MangleEntry)
    (hlookup : o.includeEnumLookup = true) :
    Yields (emitPhases o symbols trees) p fun r _ =>
      r.namespaces = (pruned o trees p).1.1.map (pruned o trees p).2.namespaceCode ∧
        r.enumTable = ((pruned o trees p).2.entryTable (pruned o trees p).1.1).filter fun row =>
          !o.removeDeadCode ||
            ((pruned o trees p).2.namedEntries (pruned o trees p).1.1).any fun u =>
              u.name == row.1 := by
  simp only [emitPhases, yields_bind]
  refine (yields_pruneIfAsked o trees).mono ?_
  intro left p₁ hleft
  have hknows := h.pruned o
  rw [← hleft] at hknows ⊢
  simp only [yields_get, hlookup, if_true, yields_pure]
  refine (yields_mapFailure ((yields_emitAll left.1).and hknows.emitAll_notes)).mono ?_
  rintro codes p₂ ⟨⟨hcodes, -⟩, hnotes⟩
  exact ⟨hcodes, hknows.filter_enumRows hnotes⟩

/-- The enum table of a build is exact.  Entries stand in the order of the namespaces and
of their declaration; without dead code removal there are all of them, with it those that
some expression of the trees that are left names.  Every such expression is coded as the
integer that the table has for its entry, and the code starts with the registrations of
the table. -/
theorem enum_table_exact {loader : Loader} {workingDir : Text} {cancelled : Bool}
    {entry : Text} {r : BuildResult}
    (h : build loader workingDir cancelled o entry readPattern = .ok r)
    (hlookup : o.includeEnumLookup = true) :
    ∃ p₀ symbols trees p, create workingDir o.retain readPattern = .ok p₀ ∧
      linkPhases loader cancelled o entry p₀ = .ok (symbols, trees) p ∧
      Tables o (pruned o trees p).1.1 (pruned o trees p).2 r := by
  obtain ⟨p₀, symbols, trees, p, p', hcreate, hlink, hemit⟩ := exists_run_of_build h
  have hknows := knowsEntries_of_linkPhases hcreate hlink
  obtain ⟨hnamespaces, htable⟩ := yields_emitPhases_tables hknows symbols hlookup r p' hemit
  obtain ⟨hemits, -⟩ := yields_emitPhases o symbols trees r p' hemit
  have hleft := hknows.pruned o
  refine ⟨p₀, symbols, trees, p, hcreate, hlink, hnamespaces, hemits, ?_, ?_, ?_,
    nodup_enumTable_of_build h⟩
  · intro hkeep
    simp only [htable, hkeep, Bool.not_false, Bool.true_or, List.filter_true]
  · intro hremove
    simp only [htable, hremove, Bool.not_true, Bool.false_or]
  · intro t ht x hx u hu
    have hmem : u ∈ (pruned o trees p).2.namedEntries (pruned o trees p).1.1 :=
      List.mem_flatMap.mpr ⟨t, ht, List.mem_filterMap.mpr ⟨x, hx, hu⟩⟩
    obtain ⟨t', ht', hdeclares⟩ := hleft.exists_declares hmem
    constructor
    · rw [hleft.named t ht x hx] at hu
      exact Expr.instr_of_entryUse? hu
    · rw [htable]
      refine List.mem_filter.mpr ⟨List.mem_flatMap.mpr ⟨t', ht', hdeclares.mem_entryRows⟩, ?_⟩
      rw [Bool.or_eq_true, List.any_eq_true]
      exact Or.inr ⟨u, hmem, beq_self_eq_true _⟩

def entrySources : List (Text × Text) :=
  [("/s.wv", "enum S { P, Q }\n"), ("/l.wv", "enum F { A = 7, B }\n"),
    ("/m.wv", "import l from \"l.wv\"\nenum E { X, Y, Z = 5 }\nlet unread = E.X\n" ++
      "$print(S.Q, l.F.B, E.Z)\n")]

def entryOptions : BuildOptions :=
  { removeDeadCode := true, includeEnumLookup := true, stdPath := "/s.wv" }

def liveEntries : List (Text × Int64) := [("s:S.Q", 2), ("l:F.B", 8), ("m:E.Z", 5)]

set_option maxRecDepth 100000 in
theorem enum_table_exact_sample :
    ∃ r p₀ symbols trees p,
      build (.ofSources entrySources) "/" false entryOptions "/m.wv" = .ok r ∧
      r.enumTable = liveEntries ∧ create "/" [] = .ok p₀ ∧
      linkPhases (.ofSources entrySources) false entryOptions "/m.wv" p₀ =
        .ok (symbols, trees) p ∧
      Tables entryOptions (pruned entryOptions trees p).1.1 (pruned entryOptions trees p).2 r := by
  have hruns : (match build (.ofSources entrySources) "/" false entryOptions "/m.wv" with
    | .ok r => some r.enumTable
    | .error _ => none) = some liveEntries := by
    decide +kernel
  cases hbuild : build (.ofSources entrySources) "/" false entryOptions "/m.wv" with
  | error e =>
      rw [hbuild] at hruns
      cases hruns
  | ok r =>
      rw [hbuild] at hruns
      obtain ⟨p₀, symbols, trees, p, hcreate, hlink, htables⟩ := enum_table_exact hbuild rfl
      exact ⟨r, p₀, symbols, trees, p, rfl, Option.some.inj hruns, hcreate, hlink, htables⟩

end Program

end Splice

import Splice.Proofs.Build.Emission
import Splice.Proofs.Tree.Emission

/-!
# Linked programs are closed

In a program that is in order every read that is left keeps its binding live, and a
live binding is declared: in a scope around the read, or, if another namespace owns
the name, at the top level of the tree of that namespace.  Hence the symbol of every
load of the linked code is defined in a block around it or at the top level of a
namespace, or is a parameter of a function around it, whatever has been removed.
-/

namespace Splice

namespace Program

variable {p p' : Program} {t : Tree} {trees : List Tree} {root : ScopeId} {u : UsageId}
  {readPattern : PatternReader}

theorem mem_reads_of_mention {m : Mention} {r : Read}
    (hm : m ∈ Stmt.mentionsOfAll t.statements) (hr : m.read? = some r) : r ∈ t.reads := by
  rw [Tree.reads_eq_mentions]
  exact List.mem_filterMap.mpr ⟨m, hm, hr⟩

theorem InOrder.isRead {live : UsageId → Prop} (h : InOrder p live trees) (ht : t ∈ trees)
    {r : Read} (hr : r ∈ t.reads) (hresolves : p.ledger.resolves u r = true) : p.IsRead u := by
  have hplaced : (⟨t.owner, r⟩ : PlacedRead) ∈ placedReads trees :=
    List.mem_flatMap.mpr ⟨t, ht, List.mem_map_of_mem hr⟩
  have hreader := h.accounts.mem_readers hplaced hresolves
  unfold IsRead Usage.isRead
  cases hreaders : (p.ledger.usage u).readers with
  | nil =>
      rw [hreaders] at hreader
      cases hreader
  | cons first rest => rfl

def globals (p : Program) (trees : List Tree) : List Instr :=
  trees.flatMap fun t => Instr.definedIn (p.codeOf t)

/-- A live binding of the outermost scope of a tree is defined at its top level. -/
theorem Sound.defined (h : Sound p p.IsRead root t) (hp : p.Uniform) {name : Text}
    {s : SymbolId} (hfind : p.ledger.find? root (Symbol.idOf (p.spaceAt t.owner).id name) = some u)
    (hread : p.IsRead u) (hs : s ∈ p.symbolsOf t.owner name) :
    p.operand s ∈ Instr.definedIn (p.codeOf t) := by
  rw [Ledger.find?_eq_lookup] at hfind
  rcases h.supported name u hfind hread with hparam | hdeclared
  · obtain ⟨q, hq, -⟩ := hparam
    cases hq
  · obtain ⟨stmt, hstmt, hdeclares⟩ := hdeclared
    obtain ⟨symbol, hmention, hdefined⟩ :=
      Emission.exists_definedIn p.coding hstmt hdeclares
    rw [hp t.owner name s hs symbol (h.valid _ hmention)]
    exact hdefined

/-- What a foreign name loads is defined in the namespace that owns the name. -/
theorem InOrder.foreign_defined (h : InOrder p p.IsRead trees) (hp : p.Uniform) (ht : t ∈ trees)
    (hroot : (p.spaceAt t.owner).root = some root) {r : ReferenceId} {f : ForeignId}
    {offset : Nat} {s : SymbolId} (hr : r ∈ (p.spaceAt t.owner).references)
    (hfiles : (p.naming t.owner root).foreign r f)
    (hread : (⟨offset, none, some f⟩ : Read) ∈ t.reads)
    (hvalue : (p.reference r).resolution = .value s) : p.operand s ∈ p.globals trees := by
  obtain ⟨scope, hscope, hchain, hfile⟩ := hfiles
  obtain ⟨m, root', hleads, hdenoted⟩ := h.denotes t ht r hr
  rw [hvalue] at hdenoted
  obtain ⟨m', root'', hleads', hsettled⟩ := h.tied t ht root hroot scope hscope hchain f hfile.mem
  rw [hfile.qualifier] at hleads'
  rw [hfile.name] at hsettled
  have hm : m' = m := Option.some.inj (hleads'.target.symm.trans hleads.target)
  subst hm
  rcases hsettled with ⟨-, henum⟩ | ⟨u, hresolved, hfind⟩
  · -- An enum is no value.
    rw [hdenoted.1] at henum
    cases henum
  · have hlive : p.IsRead u := by
      apply h.isRead ht hread
      simp [Ledger.resolves, hresolved]
    obtain ⟨t', ht', rfl, hsound⟩ := h.sound_root hleads'.rooted
    exact List.mem_flatMap.mpr ⟨t', ht', hsound.defined hp hfind hlive hdenoted.2⟩

def emission (hp : p.Uniform) (t : Tree) (root : ScopeId) (outer : List Instr) : Emission where
  coding := p.coding
  naming := p.naming t.owner root
  named := p.symbolsOf t.owner
  uniform := hp t.owner
  live := p.IsRead
  outer := outer

theorem InOrder.sited (h : InOrder p p.IsRead trees) (hp : p.Uniform) (ht : t ∈ trees)
    (hsound : Sound p p.IsRead root t) {target : Opcode} {outer : List Instr}
    (houter : target = .load → p.globals trees ⊆ outer) {m : Mention}
    (hm : m ∈ Stmt.mentionsOfAll t.statements) : m.Sited (emission hp t root outer) target := by
  have hvalid := hsound.valid m hm
  cases m with
  | name o n read =>
      cases read with
      | own s usage =>
          refine ⟨hvalid, ?_⟩
          intro u husage
          apply h.isRead ht (mem_reads_of_mention hm rfl)
          simp [Ledger.resolves, husage]
      | std r record =>
          intro hload f s hrecord hfiles hvalue
          subst hrecord
          exact houter hload (h.foreign_defined hp ht hsound.rooted hvalid.1 hfiles
            (mem_reads_of_mention hm rfl) hvalue)
      | unbound => trivial
  | imported o r record =>
      intro hload f s hrecord hfiles hvalue
      subst hrecord
      exact houter hload (h.foreign_defined hp ht hsound.rooted hvalid.1 hfiles
        (mem_reads_of_mention hm rfl) hvalue)
  | property s => trivial
  | binding n s => exact hvalid

/-- Loads and stores of a tree are in scope, if the symbols of its top level are, for
loads those of all top levels, and for stores what is assigned is live. -/
theorem InOrder.scopedAll (h : InOrder p p.IsRead trees) (hp : p.Uniform) (ht : t ∈ trees)
    {target : Opcode} (htarget : target.looksUp = true) {outer : List Instr}
    (hown : Instr.definedIn (p.codeOf t) ⊆ outer)
    (hload : target = .load → p.globals trees ⊆ outer)
    (hstore : target = .store → ∀ u ∈ Stmt.assignedOfAll t.statements, p.IsRead u) :
    Instr.ScopedAll target outer (p.codeOf t) := by
  obtain ⟨root, hsound⟩ := h.sound t ht
  have hsited : ∀ m ∈ Stmt.mentionsOfAll t.statements,
      m.Sited (emission hp t root outer) target := fun m hm => h.sited hp ht hsound hload hm
  have hcovers : (emission hp t root outer).Covers (p.ledger.visible root) outer := by
    have hextended := Emission.covers_nil.extend (x := emission hp t root outer)
      hsound.supported (List.forall_mem_nil _) hsited
    rw [List.append_nil] at hextended
    apply hextended.mono
    simpa [emission, codeOf] using hown
  exact Stmt.scopedAll_instrs t.statements htarget hsound.bound hcovers hsited hstore

theorem InOrder.scopedAll_load (h : InOrder p p.IsRead trees) (hp : p.Uniform) (ht : t ∈ trees) :
    Instr.ScopedAll .load (p.globals trees) (p.codeOf t) := by
  apply h.scopedAll hp ht rfl
  · intro i hi
    exact List.mem_flatMap.mpr ⟨t, ht, hi⟩
  · intro _
    exact List.Subset.refl _
  · intro hstore
    cases hstore

/-- Every load of the code of a build is in the scope of a definition that is left. -/
theorem loads_in_scope (loader : Loader) (workingDir : Text) (cancelled : Bool)
    (o : BuildOptions) (entry : Text) {r : BuildResult}
    (hbuild : build loader workingDir cancelled o entry readPattern = .ok r) :
    ∃ spaces, r.Emits spaces ∧
      ∀ space ∈ spaces, Instr.ScopedAll .load (spaces.flatMap Instr.definedIn) space := by
  obtain ⟨_, _, trees, p, -, -, horder, huniform, hemits, -⟩ := exists_inOrder_of_build hbuild
  have hpruned := horder.pruned o
  have huniform' := (settles_pruned horder.wellFormed o trees).toKeeps.uniform huniform
  refine ⟨_, hemits, ?_⟩
  intro space hspace
  obtain ⟨t, ht, rfl⟩ := List.mem_map.mp hspace
  have hglobals : ((pruned o trees p).1.1.map (pruned o trees p).2.codeOf).flatMap
      Instr.definedIn = (pruned o trees p).2.globals (pruned o trees p).1.1 := by
    rw [globals, List.flatMap_map]
  rw [hglobals]
  exact hpruned.scopedAll_load huniform' ht

def linkedSources : List (Text × Text) :=
  [("/s.wv", "let a = 1\n"), ("/k.wv", "let b = 2\nlet c = b\n"),
    ("/m.wv", "import k from \"k.wv\"\nfn f(q) \x7b\n  return q + a + k.b\n\x7d\n" ++
      "let y = 3\n$print(f(4))\n")]

set_option maxRecDepth 100000 in
theorem loads_in_scope_sample :
    ∃ r spaces, build (.ofSources linkedSources) "/" false
        { removeDeadCode := true, stdPath := "/s.wv" } "/m.wv" = .ok r ∧ r.Emits spaces ∧
      ∀ space ∈ spaces, Instr.ScopedAll .load (spaces.flatMap Instr.definedIn) space := by
  have hruns : (build (.ofSources linkedSources) "/" false
      { removeDeadCode := true, stdPath := "/s.wv" } "/m.wv").isOk = true := by decide +kernel
  obtain ⟨r, hbuild⟩ := exists_of_isOk hruns
  obtain ⟨spaces, hspaces⟩ := loads_in_scope (.ofSources linkedSources) "/" false
    { removeDeadCode := true, stdPath := "/s.wv" } "/m.wv" hbuild
  exact ⟨r, spaces, hbuild, hspaces⟩

end Program

end Splice

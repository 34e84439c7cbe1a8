import Splice.Proofs.Build.Accounting
import Splice.Proofs.Code.RoundTrip
import Splice.Proofs.Tree.Generation

/-!
# What a build emits

After linking a build removes dead code, if it is asked to, and writes down the
instructions of the trees that are left.  The program they are taken from is still in
order, and reading the code gives the instructions back.
-/

namespace Splice

/-- The instructions of a build, namespace by namespace.  They are what its code says. -/
structure BuildResult.Emits (r : BuildResult) (spaces : List (List Instr)) : Prop where
  namespaces : r.namespaces.map NamespaceCode.code = spaces.map Instr.encodeAll
  code : r.code = Instr.encodeAll (r.enumTable.map (fun e => .enum e.1 e.2) ++ spaces.flatten)
  decoded : r.code.length ≤ Instr.maxCount →
    r.code.instrs = .ok (r.enumTable.map (fun e => .enum e.1 e.2) ++ spaces.flatten) ∧
      r.namespaces.map (fun n => n.code.instrs) = spaces.map .ok

namespace Program

variable {p p' : Program} {t : Tree} {trees : List Tree} {readPattern : PatternReader}

def codeOf (p : Program) (t : Tree) : List Instr := Stmt.instrs p.coding t.statements

def namespaceCode (p : Program) (t : Tree) : NamespaceCode where
  id := (p.spaceAt t.owner).id
  location := (p.spaceAt t.owner).unit.location
  code := Instr.encodeAll (p.codeOf t)

theorem SameCoding.namespaceCode (h : SameCoding p p') (t : Tree) :
    p'.namespaceCode t = p.namespaceCode t := by
  simp only [Program.namespaceCode, codeOf, h.id, h.unit, h.coding]

theorem yields_emitAll (trees : List Tree) :
    Yields (emitAll trees) p fun codes p' =>
      codes = trees.map p.namespaceCode ∧ SameCoding p p' := by
  induction trees generalizing p with
  | nil =>
      simp only [emitAll, yields_pure]
      exact ⟨rfl, SameCoding.refl p⟩
  | cons t rest ih =>
      simp only [emitAll, yields_bind, yields_get]
      refine (yields_mapFailure (yields_generateTree t)).mono ?_
      intro is p₁ hfirst
      obtain ⟨his, hsame⟩ := hfirst
      refine ih.mono ?_
      intro codes p₂ hrest
      obtain ⟨hcodes, hsame'⟩ := hrest
      simp only [yields_pure]
      refine ⟨?_, hsame.trans hsame'⟩
      rw [hcodes, his, List.map_cons]
      congr 1
      apply List.map_congr_left
      intro t _
      exact hsame.namespaceCode t

theorem encodeAll_enums (table : List (Text × Int64)) :
    Instr.encodeAll (table.map fun e => .enum e.1 e.2) =
      table.flatMap fun e => Code.enum e.1 e.2 := by
  induction table with
  | nil => rfl
  | cons row rest ih =>
      rw [List.map_cons, Instr.encodeAll, ih, List.flatMap_cons]
      rfl

theorem areWellShaped_enums (table : List (Text × Int64)) :
    Instr.areWellShaped (table.map fun e => .enum e.1 e.2) = true := by
  induction table with
  | nil => rfl
  | cons row rest ih => simpa [Instr.areWellShaped, Instr.isWellShaped] using ih

theorem encodeAll_flatten (spaces : List (List Instr)) :
    Instr.encodeAll spaces.flatten = (spaces.map Instr.encodeAll).flatten := by
  induction spaces with
  | nil => rfl
  | cons first rest ih =>
      rw [List.flatten_cons, Instr.encodeAll_append, ih, List.map_cons, List.flatten_cons]

theorem areWellShaped_flatten {spaces : List (List Instr)}
    (h : ∀ space ∈ spaces, Instr.areWellShaped space = true) :
    Instr.areWellShaped spaces.flatten = true := by
  induction spaces with
  | nil => rfl
  | cons first rest ih =>
      rw [List.flatten_cons, Instr.areWellShaped_append, h first (List.mem_cons_self ..),
        ih fun space hspace => h space (List.mem_cons_of_mem _ hspace)]
      rfl

/-- Code that is put together from well-shaped instructions is read back as them. -/
theorem emits_of_encodeAll {r : BuildResult} {spaces : List (List Instr)}
    (hnamespaces : r.namespaces.map NamespaceCode.code = spaces.map Instr.encodeAll)
    (hcode : r.code = (r.enumTable.flatMap fun e => Code.enum e.1 e.2) ++
      r.namespaces.flatMap NamespaceCode.code)
    (hshape : ∀ space ∈ spaces, Instr.areWellShaped space = true) : r.Emits spaces := by
  have hwhole : r.code =
      Instr.encodeAll (r.enumTable.map (fun e => .enum e.1 e.2) ++ spaces.flatten) := by
    rw [hcode, Instr.encodeAll_append, encodeAll_enums, encodeAll_flatten, ← hnamespaces]
    rfl
  refine ⟨hnamespaces, hwhole, ?_⟩
  intro hlength
  constructor
  · rw [hwhole] at hlength ⊢
    apply Code.instrs_encodeAll _ hlength
    rw [Instr.areWellShaped_append, areWellShaped_enums, areWellShaped_flatten hshape]
    rfl
  · have hpart : ∀ space ∈ spaces, (Instr.encodeAll space).length ≤ Instr.maxCount := by
      intro space hspace
      have hsub : (Instr.encodeAll space).length ≤ r.code.length := by
        rw [hwhole, Instr.encodeAll_append, encodeAll_flatten, List.length_append]
        have hmem : Instr.encodeAll space ∈ spaces.map Instr.encodeAll :=
          List.mem_map_of_mem hspace
        have hle := (List.sublist_flatten_of_mem hmem).length_le
        exact hle.trans (Nat.le_add_left ..)
      exact hsub.trans hlength
    calc
      r.namespaces.map (fun n => n.code.instrs) =
          (r.namespaces.map NamespaceCode.code).map Code.instrs := by rw [List.map_map]; rfl
      _ = spaces.map (fun space => (Instr.encodeAll space).instrs) := by
          rw [hnamespaces, List.map_map]; rfl
      _ = spaces.map .ok := by
          apply List.map_congr_left
          intro space hspace
          exact Code.instrs_encodeAll (hshape space hspace) (hpart space hspace)

/-- The trees that are left, the number of passes and the program after dead code
removal. -/
def pruned (o : BuildOptions) (trees : List Tree) (p : Program) :
    (List Tree × Nat) × Program :=
  if o.removeDeadCode then prunePasses o.passLimit trees p else ((trees, 0), p)

theorem pruneIfAsked_eq (o : BuildOptions) (trees : List Tree) :
    pruneIfAsked o trees p = .ok (pruned o trees p).1 (pruned o trees p).2 := by
  unfold pruneIfAsked pruned
  split
  · rw [get_bind_eq]
    rfl
  · rfl

theorem yields_pruneIfAsked (o : BuildOptions) (trees : List Tree) :
    Yields (pruneIfAsked o trees) p fun x p' => (x, p') = pruned o trees p := by
  intro x p' hrun
  rw [pruneIfAsked_eq] at hrun
  cases hrun
  rfl

theorem exists_passes (o : BuildOptions) (trees : List Tree) (p : Program) :
    ∃ passes, ((pruned o trees p).1.1, (pruned o trees p).2) = afterPasses passes (trees, p) := by
  unfold pruned
  split
  · exact ⟨_, prunePasses_eq o.passLimit trees p⟩
  · exact ⟨0, rfl⟩

theorem settles_pruneAll (h : p.ledger.WellFormed) (trees : List Tree) :
    p.Settles (pruneAll trees p).2 := by
  induction trees generalizing p with
  | nil => exact Settles.refl h
  | cons t rest ih =>
      rw [pruneAll_cons]
      have hfirst := settles_prune h t
      exact hfirst.trans (ih hfirst.wellFormed)

theorem settles_afterPasses (h : p.ledger.WellFormed) (k : Nat) (trees : List Tree) :
    p.Settles (afterPasses k (trees, p)).2 := by
  induction k generalizing p trees with
  | zero => exact Settles.refl h
  | succ k ih =>
      have hfirst := settles_pruneAll h trees
      exact hfirst.trans (ih hfirst.wellFormed _)

theorem InOrder.pruned (h : InOrder p Check.always trees) (o : BuildOptions) :
    InOrder (pruned o trees p).2 (pruned o trees p).2.IsRead (pruned o trees p).1.1 := by
  obtain ⟨passes, hpasses⟩ := exists_passes o trees p
  have hread : InOrder p p.IsRead trees := h.mono fun _ _ => trivial
  have hafter := hread.afterPasses passes
  rw [← hpasses] at hafter
  exact hafter

theorem settles_pruned (h : p.ledger.WellFormed) (o : BuildOptions) (trees : List Tree) :
    p.Settles (pruned o trees p).2 := by
  obtain ⟨passes, hpasses⟩ := exists_passes o trees p
  have hsettles := settles_afterPasses h passes trees
  rw [← hpasses] at hsettles
  exact hsettles

theorem yields_emitPhases (o : BuildOptions) (symbols : List MangleEntry) (trees : List Tree) :
    Yields (emitPhases o symbols trees) p fun r _ =>
      r.Emits ((pruned o trees p).1.1.map (pruned o trees p).2.codeOf) ∧
        r.prunePasses = (pruned o trees p).1.2 ∧ r.symbols = symbols := by
  simp only [emitPhases, yields_bind]
  refine (yields_pruneIfAsked o trees).mono ?_
  intro x p₁ hx
  rw [← hx]
  simp only [yields_get]
  refine (yields_mapFailure (yields_emitAll x.1)).mono ?_
  intro codes p₂ hemitted
  obtain ⟨hcodes, -⟩ := hemitted
  simp only [yields_pure, and_true]
  apply emits_of_encodeAll
  · rw [hcodes, List.map_map, List.map_map]
    rfl
  · rfl
  · intro space hspace
    obtain ⟨t, -, ht⟩ := List.mem_map.mp hspace
    rw [← ht]
    exact Stmt.areWellShaped_instrs _ _

theorem exists_of_isOk {α ε : Type} {x : Except ε α} (h : x.isOk = true) : ∃ a, x = .ok a := by
  cases x with
  | ok a => exact ⟨a, rfl⟩
  | error e => cases h

/-- A build that succeeds has passed the link phase. -/
theorem exists_run_of_build {loader : Loader} {workingDir : Text} {cancelled : Bool}
    {o : BuildOptions} {entry : Text} {r : BuildResult}
    (h : build loader workingDir cancelled o entry readPattern = .ok r) :
    ∃ p₀ symbols trees p p', create workingDir o.retain readPattern = .ok p₀ ∧
      linkPhases loader cancelled o entry p₀ = .ok (symbols, trees) p ∧
      emitPhases o symbols trees p = .ok r p' := by
  unfold build at h
  cases hcreate : create workingDir o.retain readPattern with
  | error e =>
      rw [hcreate] at h
      cases h
  | ok p₀ =>
      rw [hcreate] at h
      simp only [bind, Except.bind] at h
      cases hphases : buildPhases loader cancelled o entry p₀ with
      | error e p' =>
          rw [hphases] at h
          cases h
      | ok r' p' =>
          rw [hphases] at h
          cases h
          rw [buildPhases_eq] at hphases
          obtain ⟨x, p, hlink, hemit⟩ := exists_of_bind_eq_ok hphases
          exact ⟨p₀, x.1, x.2, p, p', rfl, hlink, hemit⟩

/-- What a build emits comes from a program in order. -/
theorem exists_inOrder_of_build {loader : Loader} {workingDir : Text} {cancelled : Bool}
    {o : BuildOptions} {entry : Text} {r : BuildResult}
    (h : build loader workingDir cancelled o entry readPattern = .ok r) :
    ∃ p₀ symbols trees p, create workingDir o.retain readPattern = .ok p₀ ∧
      linkPhases loader cancelled o entry p₀ = .ok (symbols, trees) p ∧
      InOrder p Check.always trees ∧ p.Uniform ∧
      r.Emits ((pruned o trees p).1.1.map (pruned o trees p).2.codeOf) ∧
      r.prunePasses = (pruned o trees p).1.2 := by
  obtain ⟨p₀, symbols, trees, p, p', hcreate, hlink, hemit⟩ := exists_run_of_build h
  obtain ⟨hpristine, huntargeted⟩ := pristine_create hcreate
  obtain ⟨horder, huniform⟩ :=
    yields_linkPhases loader cancelled o entry hpristine huntargeted _ _ hlink
  obtain ⟨hemits, hpasses, -⟩ := yields_emitPhases o symbols trees r p' hemit
  exact ⟨p₀, symbols, trees, p, hcreate, hlink, horder, huniform, hemits, hpasses⟩

end Program

end Splice

import Splice.Proofs.Build.Analysis
import Splice.Proofs.Tree.Listing
import Splice.Proofs.Tree.Numbering

/-!
# The life of a tree

A tree is read from a source and bound, it is analysed, and dead code is removed from it,
once or again and again (`Tree.Made`).  Whatever has been done to it, its machine calls are
still those of the source, so they are named by words.  When code is generated for it, the
listing of the code has a line for each statement that is not silent, in their order.
-/

namespace Splice

namespace Program

variable {p p' : Program} {n : NamespaceId} {t t' : Tree}

/-- Parsing comes out with the nodes of the source; binding fills in what the names of them
read. -/
theorem parse_annotates (n : NamespaceId) (p : Program) :
    Yields (parse n) p fun t _ =>
      ∃ xs, (∀ x ∈ xs, x.Plain True) ∧ Expr.AnnotateAll Expr.noEntry xs t.exprs := by
  simp only [parse_eq, yields_bind, yields_get, yields_set, yields_pure]
  refine (parseStatements_plain n p).mono ?_
  intro ss p₁ hplain
  have hbound := bindStmts_annotates (n := n) (Stmt.declaredNames ss) ss p₁
  exact .of_forall fun _ _ => ⟨Stmt.exprsOfAll ss, hplain, hbound⟩

/-- Analysis finds out which accesses to members are entries of enums. -/
theorem check_annotates (t : Tree) (p : Program) :
    Expr.AnnotateAll (Check.ReadsEntry (p.checkContext t.owner)) t.exprs (check t p).1.1.exprs := by
  cases hroot : t.root with
  | some root =>
      rw [check_eq_self hroot]
      exact Expr.annotateAll_refl _
  | none =>
      have hstatements : (check t p).1.1.statements = (p.analysis t).1 := by
        rw [check_eq hroot]
        split
        · rfl
        · dsimp only
          split <;> rfl
      rw [Tree.exprs, Tree.exprs, hstatements]
      exact Check.checkStmts_annotates t.statements _

theorem prune_exprs_subset (t : Tree) (p : Program) : (prune t p).1.1.exprs ⊆ t.exprs :=
  (Pruning.pruneStmts_pass t.statements _).exprs_subset

end Program

/-- How a tree comes about.  It is read from a source; after that it is analysed, and dead
code is removed from it, in whatever state the program is by then.  Linking fills in what
references denote and leaves the trees alone. -/
inductive Tree.Made : Tree → Prop
  | parsed {n : NamespaceId} {t : Tree} {p p' : Program} (h : Program.parse n p = .ok t p') : Made t
  | checked {t : Tree} (h : Made t) (p : Program) : Made (Program.check t p).1.1
  | pruned {t : Tree} (h : Made t) (p : Program) : Made (Program.prune t p).1.1

theorem Expr.callInLine_of_plain {xs : List Expr} (h : ∀ x ∈ xs, x.Plain True) :
    CallInLine xs :=
  fun _ _ _ hmem => Text.IsWord.isLine (h _ hmem trivial)

theorem Expr.CallInLine.annotated {stands : Expr → Text → EntryRead → Prop} {xs ys : List Expr}
    (h : CallInLine xs) (hxs : AnnotateAll stands xs ys) : CallInLine ys := by
  intro o text args hmem
  obtain ⟨x, hx, hnode⟩ := hxs.exists_of_mem hmem
  cases hnode
  exact h _ _ _ hx

theorem Tree.Made.callInLine {t : Tree} (h : t.Made) : Expr.CallInLine t.exprs := by
  induction h with
  | @parsed n t p p' h =>
      obtain ⟨xs, hplain, hbound⟩ := Program.parse_annotates n p t p' h
      exact (Expr.callInLine_of_plain hplain).annotated hbound
  | @checked t _ p ih => exact ih.annotated (Program.check_annotates t p)
  | @pruned t _ p ih => exact ih.mono (Program.prune_exprs_subset t p)

namespace Program

/-- The listing of generated code has a line for each statement of the tree that is not
silent, in their order, and the line is what the statement is listed as. -/
theorem code_mirrors_tree {t : Tree} {p p' : Program} {is : List Instr} (hmade : t.Made)
    (hrun : generateTree t p = .ok is p') (hfits : Instr.fitAll is = true) :
    let lines := (t.statements.filter fun s => !s.isSilent).map (Stmt.listed p)
    Code.disassemble (Instr.encodeAll is) = .ok (Text.join [Text.newline] lines) ∧
      ∀ line ∈ lines, Text.IsLine line := by
  intro lines
  have hlines : lines = Stmt.listedAll p t.statements := (Stmt.listedAll_eq p t.statements).symm
  obtain ⟨hcode, -⟩ := yields_generateTree t is p' hrun
  have hread : Code.instrs (Instr.encodeAll is) = .ok is := by
    have hshape := Stmt.areWellShaped_instrs p.coding t.statements
    rw [← hcode] at hshape
    exact Code.instrs_eq_ok_iff.mpr (Instr.writtenAll_encodeAll is hshape hfits)
  constructor
  · rw [Code.disassemble, hread, Except.map, hlines, ← Stmt.renderAll_instrs, ← hcode]
  · rw [hlines]
    exact Stmt.isLine_listedAll t.statements hmade.callInLine

def worked? (p : Program) : Option (Tree × Program) :=
  match parse 0 p with
  | .ok t p =>
      let checked := check t p
      let pruned := prune checked.1.1 checked.2
      some (pruned.1.1, pruned.2)
  | .error _ _ => none

def isListedAs (lines : List Text) (t : Tree) (p : Program) : Bool :=
  match generateTree t p with
  | .ok is _ =>
      Instr.fitAll is && (t.statements.filter fun s => !s.isSilent).map (Stmt.listed p) == lines
  | .error _ _ => false

theorem made_of_worked? {t : Tree} {p p' : Program} (h : worked? p = some (t, p')) : t.Made := by
  unfold worked? at h
  split at h
  · next hparse =>
      cases h
      exact .pruned (.checked (.parsed hparse) _) _
  · cases h

def lineSample : Program :=
  { namespaces := #[{
      id := "m"
      unit := ⟨"enum E \x7b A = 7 \x7d let box = \x7b n: E.A \x7d fn f(x) \x7b " ++
        "if x.n < 2 \x7b return \x7d return f(-x) \x7d " ++
        "if true \x7b f(box) \x7d else \x7b $print(\"no\") \x7d", "/m.wv"⟩
      key := "/m.wv" }] }

def sampleLines : List Text :=
  ["(define \"m:box\" (object \"n\" 7))",
    "(define \"m:f\" (fn (\"m:x\") (block (if (lt (get (load \"m:x\") \"n\") 2) " ++
      "(block (return nil)) (block)) (return (call (load \"m:f\") (neg (load \"m:x\")))))))",
    "(block (pop (call (load \"m:f\") (load \"m:box\"))))"]

theorem code_mirrors_tree_sample :
    ∃ t p is p', Tree.Made t ∧ generateTree t p = .ok is p' ∧ Instr.fitAll is = true ∧
      Code.disassemble (Instr.encodeAll is) = .ok (Text.join [Text.newline] sampleLines) := by
  have hsample : (worked? lineSample).any (fun w => isListedAs sampleLines w.1 w.2) = true := by
    decide +kernel
  cases hwork : worked? lineSample with
  | none =>
      rw [hwork] at hsample
      cases hsample
  | some work =>
      obtain ⟨t, p⟩ := work
      rw [hwork, Option.any_some, isListedAs] at hsample
      split at hsample
      · next is p' hrun =>
          simp only [Bool.and_eq_true, beq_iff_eq] at hsample
          have hmade := made_of_worked? hwork
          refine ⟨t, p, is, p', hmade, hrun, hsample.1, ?_⟩
          rw [← hsample.2]
          exact (code_mirrors_tree hmade hrun hsample.1).1
      · cases hsample

end Program

end Splice

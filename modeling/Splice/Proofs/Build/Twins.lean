import Splice.Proofs.Build.Emission
import Splice.Proofs.Program.Twins

/-!
# Builds that differ in the symbols

None of the phases after the numbering of names depends on what symbols are written
as.  Analysis, linking and dead code removal give the same trees, and generating code
succeeds or fails in the same way and marks the same enum entries as used.
-/

namespace Splice.Program

variable {symbols : Array Symbol}

theorem check_withSymbols (t : Tree) (p : Program) :
    check t (p.withSymbols symbols) =
      ((check t p).1, (check t p).2.withSymbols symbols) := by
  by_cases hroot : t.root = none
  · have hanalysis : (p.withSymbols symbols).analysis t = p.analysis t := rfl
    have hledger : (p.withSymbols symbols).ledger = p.ledger := rfl
    rw [check_eq hroot, check_eq hroot, hanalysis, hledger]
    cases (p.analysis t).2.mistake with
    | some d => rfl
    | none =>
        dsimp only
        generalize hrooted : p.withRoot t.owner p.ledger.scopes.size (p.analysis t).2.ledger = q
        have hwith : (p.withSymbols symbols).withRoot t.owner p.ledger.scopes.size
            (p.analysis t).2.ledger = q.withSymbols symbols := by
          rw [← hrooted]
          rfl
        have hadvance : Agree symbols Eq (advance t.owner .analyzed q)
            (advance t.owner .analyzed (q.withSymbols symbols)) := blind_advance t.owner _ q
        rw [hwith]
        revert hadvance
        cases advance t.owner .analyzed q with
        | ok a q₁ =>
            cases advance t.owner .analyzed (q.withSymbols symbols) with
            | ok b q₂ =>
                intro hadvance
                rw [hadvance.2]
            | error e q₂ => nofun
        | error e q₁ =>
            cases advance t.owner .analyzed (q.withSymbols symbols) with
            | ok b q₂ => nofun
            | error e' q₂ =>
                intro hadvance
                rw [hadvance.1, hadvance.2]
  · have hsome : t.root.isSome = true := by simpa [Option.isSome_iff_ne_none] using hroot
    simp only [check, bind, StateT.bind, get, getThe, MonadStateOf.get, StateT.get, pure, hsome,
      if_true]
    rfl

theorem blind_checkAll (trees : List Tree) : Blind symbols (checkAll trees) := by
  induction trees with
  | nil => exact Twin.pure rfl
  | cons t rest ih =>
      unfold checkAll
      apply Twin.get_bind
      intro p
      rw [check_withSymbols]
      obtain ⟨⟨t', failure⟩, q⟩ := check t p
      apply Twin.bind (Twin.set rfl)
      intro _ _ _
      cases failure with
      | some e => exact Twin.throw e
      | none => exact Blind.bind ih fun _ => Twin.pure rfl

theorem blind_linkAll (trees : List Tree) : Blind symbols (linkAll trees) := by
  induction trees with
  | nil => exact Twin.pure rfl
  | cons t rest ih =>
      rw [linkAll_cons]
      exact Blind.bind (blind_link t.owner) fun _ => ih

theorem prune_withSymbols (t : Tree) (p : Program) :
    prune t (p.withSymbols symbols) =
      ((prune t p).1, (prune t p).2.withSymbols symbols) := rfl

theorem pruneAll_withSymbols (trees : List Tree) (p : Program) :
    pruneAll trees (p.withSymbols symbols) =
      ((pruneAll trees p).1, (pruneAll trees p).2.withSymbols symbols) := by
  induction trees generalizing p with
  | nil => rfl
  | cons t rest ih => rw [pruneAll_cons, pruneAll_cons, prune_withSymbols, ih]

theorem prunePasses_withSymbols (limit : Nat) (trees : List Tree) (p : Program) :
    prunePasses limit trees (p.withSymbols symbols) =
      ((prunePasses limit trees p).1, (prunePasses limit trees p).2.withSymbols symbols) := by
  induction limit generalizing trees p with
  | zero => rfl
  | succ limit ih =>
      rw [prunePasses_succ, prunePasses_succ, pruneAll_withSymbols]
      dsimp only
      rw [ih]
      split <;> rfl

theorem pruned_withSymbols (o : BuildOptions) (trees : List Tree) (p : Program) :
    pruned o trees (p.withSymbols symbols) =
      ((pruned o trees p).1, (pruned o trees p).2.withSymbols symbols) := by
  unfold pruned
  split
  · exact prunePasses_withSymbols o.passLimit trees p
  · rfl

theorem blind_pruneIfAsked (o : BuildOptions) (trees : List Tree) :
    Blind symbols (pruneIfAsked o trees) := by
  unfold pruneIfAsked
  apply Twin.ite
  · apply Twin.get_bind
    intro p
    rw [prunePasses_withSymbols]
    exact Twin.bind (Twin.set rfl) fun _ _ _ => Twin.pure rfl
  · exact Twin.pure rfl

/-! ## Generating code -/

section

variable (n : NamespaceId)

theorem alike_entryValue (space enum entry : Text) (value : Int64) :
    Alike symbols (entryValue space enum entry value) := by
  unfold entryValue
  apply Twin.get_bind
  intro p
  simp only [byId?_withSymbols]
  cases p.byId? space with
  | some m => exact Twin.bind (Twin.set rfl) fun _ _ _ => Twin.pure trivial
  | none => exact Twin.pure trivial

theorem alike_referenceValue (r : ReferenceId) : Alike symbols (referenceValue n r) := by
  unfold referenceValue
  apply Twin.get_bind
  intro p
  simp only [reference_withSymbols, spaceAt_withSymbols]
  cases (p.reference r).resolution with
  | value s => exact Twin.pure trivial
  | unresolved => exact Twin.throw _
  | entry space enum name value => exact Twin.throw _

theorem alike_nameValue (read : NameRead) : Alike symbols (nameValue n read) := by
  have hfails : Alike symbols (nameValue n .unbound) := by
    unfold nameValue
    apply Twin.get_bind
    intro p
    simp only [spaceAt_withSymbols]
    exact Twin.throw _
  cases read with
  | unbound => exact hfails
  | own s usage =>
      cases usage with
      | none => exact hfails
      | some u =>
          unfold nameValue
          apply Twin.get_bind
          intro p
          exact Twin.pure trivial
  | std r record => exact alike_referenceValue n r

mutual

theorem alike_generateExpr (e : Expr) : Alike symbols (generateExpr n e) := by
  cases e with
  | number o v => exact Twin.pure trivial
  | string o v => exact Twin.pure trivial
  | bool o v => exact Twin.pure trivial
  | nil o => exact Twin.pure trivial
  | name o text read =>
      rw [generateExpr]
      exact alike_nameValue n read
  | imported o r m record =>
      have hvalue : Alike symbols (do
          let value ← referenceValue n r
          match m with
          | some s => return .node .get [value, (← get).operand s]
          | none => return value) := by
        apply Alike.bind (alike_referenceValue n r)
        intro value value'
        cases m with
        | none => exact Twin.pure trivial
        | some s =>
            apply Twin.get_bind
            intro p
            exact Twin.pure trivial
      rw [generateExpr]
      apply Twin.get_bind
      intro p
      simp only [reference_withSymbols]
      cases (p.reference r).resolution with
      | entry space enum text value => exact alike_entryValue space enum text value
      | unresolved => exact hvalue
      | value s => exact hvalue
  | member o x text s entry =>
      cases entry with
      | some e =>
          rw [generateExpr]
          exact Twin.bind (Twin.modify fun _ => rfl) fun _ _ _ => Twin.pure trivial
      | none =>
          rw [generateExpr]
          apply Twin.get_bind
          intro p
          have hread : (p.withSymbols symbols).stdRead? x = p.stdRead? x := rfl
          rw [hread]
          cases p.stdRead? x with
          | some entry => exact alike_entryValue _ _ _ _
          | none =>
              apply Alike.bind (alike_generateExpr x)
              intro _ _
              apply Twin.get_bind
              intro q
              exact Twin.pure trivial
  | call o callee args =>
      rw [generateExpr]
      apply Alike.bind (alike_generateExpr callee)
      intro _ _
      exact Alike.bind (alike_generateExprs args) fun _ _ => Twin.pure trivial
  | syscall o text args =>
      rw [generateExpr]
      exact Alike.bind (alike_generateExprs args) fun _ _ => Twin.pure trivial
  | object o keys values =>
      rw [generateExpr]
      apply Alike.bind (alike_generateExprs values)
      intro _ _
      apply Twin.get_bind
      intro p
      exact Twin.pure trivial
  | binary o op left right =>
      rw [generateExpr]
      apply Alike.bind (alike_generateExpr left)
      intro _ _
      exact Alike.bind (alike_generateExpr right) fun _ _ => Twin.pure trivial
  | unary o op x =>
      rw [generateExpr]
      exact Alike.bind (alike_generateExpr x) fun _ _ => Twin.pure trivial

theorem alike_generateExprs (es : List Expr) : Alike symbols (generateExprs n es) := by
  cases es with
  | nil => exact Twin.pure trivial
  | cons e rest =>
      rw [generateExprs]
      apply Alike.bind (alike_generateExpr e)
      intro _ _
      exact Alike.bind (alike_generateExprs rest) fun _ _ => Twin.pure trivial

end

mutual

theorem alike_generateStmt (s : Stmt) : Alike symbols (generateStmt n s) := by
  cases s with
  | import_ o q path => exact Twin.pure trivial
  | enum o text es => exact Twin.pure trivial
  | retain o texts => exact Twin.pure trivial
  | let_ o text s value usage =>
      rw [generateStmt]
      apply Alike.bind (alike_generateExpr n value)
      intro _ _
      exact Twin.get_bind fun _ => Twin.pure trivial
  | fn o text s params bo body usage =>
      rw [generateStmt]
      apply Alike.bind (alike_generateStmts body)
      intro _ _
      exact Twin.get_bind fun _ => Twin.pure trivial
  | assign o text s value usage =>
      rw [generateStmt]
      apply Alike.bind (alike_generateExpr n value)
      intro _ _
      exact Twin.get_bind fun _ => Twin.pure trivial
  | setMember o target s value =>
      rw [generateStmt]
      apply Alike.bind (alike_generateExpr n target)
      intro _ _
      apply Alike.bind (alike_generateExpr n value)
      intro _ _
      exact Twin.get_bind fun _ => Twin.pure trivial
  | return_ o value =>
      rw [generateStmt]
      cases value with
      | none => exact Twin.pure trivial
      | some x =>
          have hvalue : Alike symbols (generateReturn n (some x)) :=
            Alike.bind (alike_generateExpr n x) fun _ _ => Twin.pure trivial
          exact Alike.bind hvalue fun _ _ => Twin.pure trivial
  | if_ o condition b then_ else_ =>
      rw [generateStmt]
      apply Alike.bind (alike_generateExpr n condition)
      intro _ _
      apply Alike.bind (alike_generateStmts then_)
      intro _ _
      exact Alike.bind (alike_generateElse else_) fun _ _ => Twin.pure trivial
  | block o body =>
      rw [generateStmt]
      exact Alike.bind (alike_generateStmts body) fun _ _ => Twin.pure trivial
  | expr x =>
      rw [generateStmt]
      exact Alike.bind (alike_generateExpr n x) fun _ _ => Twin.pure trivial

theorem alike_generateStmts (ss : List Stmt) : Alike symbols (generateStmts n ss) := by
  cases ss with
  | nil => exact Twin.pure trivial
  | cons s rest =>
      rw [generateStmts]
      apply Alike.bind (alike_generateStmt s)
      intro _ _
      exact Alike.bind (alike_generateStmts rest) fun _ _ => Twin.pure trivial

theorem alike_generateElse (e : Option Stmt) : Alike symbols (generateElse n e) := by
  cases e with
  | none => exact Twin.pure trivial
  | some s =>
      rw [generateElse]
      exact Alike.bind (alike_generateStmt s) fun _ _ => Twin.pure trivial

end

end

theorem alike_generateTree (t : Tree) : Alike symbols (generateTree t) := by
  unfold generateTree
  apply Alike.bind (alike_generateStmts t.owner t.statements)
  intro _ _
  exact Blind.bind (blind_advance t.owner _) fun _ => Twin.pure trivial

def place (n : NamespaceCode) : Text × Text := (n.id, n.location)

theorem twin_emitAll (trees : List Tree) :
    Twin symbols (fun codes codes' => codes'.map place = codes.map place) (emitAll trees)
      (emitAll trees) := by
  induction trees with
  | nil => exact Twin.pure rfl
  | cons t rest ih =>
      unfold emitAll
      apply Twin.get_bind
      intro p
      simp only [spaceAt_withSymbols]
      apply Alike.bind ((alike_generateTree t).mapFailure _)
      intro _ _
      apply Twin.bind ih
      intro codes codes' hcodes
      apply Twin.pure
      rw [List.map_cons, List.map_cons, hcodes]
      rfl

/-- What two results have in common that differ in the symbols. -/
structure SameButCode (r r' : BuildResult) : Prop where
  enumTable : r'.enumTable = r.enumTable
  prunePasses : r'.prunePasses = r.prunePasses
  places : r'.namespaces.map place = r.namespaces.map place

theorem twin_emitPhases (o : BuildOptions) (entries entries' : List MangleEntry)
    (trees : List Tree) :
    Twin symbols SameButCode (emitPhases o entries trees) (emitPhases o entries' trees) := by
  unfold emitPhases
  apply Blind.bind (blind_pruneIfAsked o trees)
  intro x
  apply Twin.get_bind
  intro p
  apply Twin.bind ((twin_emitAll x.1).mapFailure _)
  intro codes codes' hcodes
  apply Twin.get_bind
  intro q
  apply Twin.pure
  exact ⟨rfl, rfl, hcodes⟩

theorem blind_analysePhases (d : Discovery) : Blind symbols (analysePhases d) := by
  unfold analysePhases
  apply Blind.bind ((blind_checkAll d.orderedTrees).mapFailure _)
  intro trees
  exact Blind.bind ((blind_linkAll trees).mapFailure _) fun _ => Twin.pure rfl

end Splice.Program

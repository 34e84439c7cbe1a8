import Splice.Proofs.Tree.Pruning

/-!
# A pass as a relation

`Pruning.Pass` says once what a pass of dead code removal may do to a list of
statements, with the state it finds and the state it leaves at each of them.  The
passes that are run are passes in this sense (`Pruning.pruneStmts_pass`), so a law of
dead code removal is one induction over the relation, with a case for each kind of
rewrite.  A single statement, a branch and the body of a function are all lists here,
and the step from one statement to the next is a case of its own.
-/

namespace Splice

namespace Stmt

def isSimple : Stmt → Bool
  | fn _ _ _ _ _ _ _ => false
  | if_ _ _ _ _ _ => false
  | block _ _ => false
  | _ => true

/-- A statement that a pass removes or replaces if it comes to it with a ledger. -/
def isRemovable (l : Ledger) : Stmt → Bool
  | let_ _ _ _ value usage => Pruning.isDead l usage && value.isPure
  | assign _ _ _ _ usage => Pruning.isDead l usage
  | fn _ _ _ _ _ _ usage => Pruning.isDead l usage
  | if_ _ condition _ _ _ => (condition.constant? l).isSome
  | _ => false

@[simp] theorem nodesOfAll_nil : nodesOfAll [] = [] := rfl

@[simp] theorem nodesOfAll_cons (s : Stmt) (rest : List Stmt) :
    nodesOfAll (s :: rest) = s.nodes ++ nodesOfAll rest := rfl

@[simp] theorem nodesOfAll_append (a b : List Stmt) :
    nodesOfAll (a ++ b) = nodesOfAll a ++ nodesOfAll b := by
  induction a with
  | nil => rfl
  | cons s rest ih => simp only [List.cons_append, nodesOfAll_cons, ih, List.append_assoc]

theorem nodesOfElse_eq (e : Option Stmt) : nodesOfElse e = nodesOfAll e.toList := by
  cases e with
  | none => rfl
  | some s => simp [nodesOfElse]

theorem nodes_fn (o n s ps bo body u) :
    nodes (fn o n s ps bo body u) =
      .stmt (fn o n s ps bo body u) :: .stmt (block bo body) :: nodesOfAll body := rfl

theorem nodes_block (o body) : nodes (block o body) = .stmt (block o body) :: nodesOfAll body :=
  rfl

end Stmt

namespace Pruning

/-- A pass over statements: what is left of them, and the state before and after. -/
inductive Pass (file : NamespaceId) : List Stmt → Pruning → List Stmt → Pruning → Prop
  | nil {k} : Pass file [] k [] k
  | cons {s rest kept rest' k k₁ k₂} (head : Pass file [s] k kept k₁)
      (tail : Pass file rest k₁ rest' k₂) : Pass file (s :: rest) k (kept ++ rest') k₂
  | keep {s k} (simple : s.isSimple = true) (stays : s.isRemovable k.ledger = false) :
      Pass file [s] k [s] k
  | dropLet {o n s v u k} (dead : isDead k.ledger u = true) (pure : v.isPure = true) :
      Pass file [.let_ o n s v u] k [] ⟨k.ledger.releaseAll file (exprNodes v), true⟩
  | dropAssign {o n s v u k} (dead : isDead k.ledger u = true) (pure : v.isPure = true) :
      Pass file [.assign o n s v u] k [] ⟨k.ledger.releaseAll file (exprNodes v), true⟩
  | reduceAssign {o n s v u k} (dead : isDead k.ledger u = true) (effect : v.isPure = false) :
      Pass file [.assign o n s v u] k [.expr v] ⟨k.ledger, true⟩
  | dropFn {o n s ps bo body u k} (dead : isDead k.ledger u = true) :
      Pass file [.fn o n s ps bo body u] k []
        ⟨k.ledger.releaseAll file (Stmt.nodesOfAll body), true⟩
  | fn {o n s ps bo body body' u k k'} (live : isDead k.ledger u = false)
      (inner : Pass file body k body' k') :
      Pass file [.fn o n s ps bo body u] k [.fn o n s ps bo body' u] k'
  | block {o body body' k k'} (inner : Pass file body k body' k') :
      Pass file [.block o body] k [.block o body'] k'
  | ifTrue {o c b t e t' k k'} (constant : c.constant? k.ledger = some true)
      (inner : Pass file t
        ⟨k.ledger.releaseAll file (exprNodes c ++ Stmt.nodesOfElse e), true⟩ t' k') :
      Pass file [.if_ o c b t e] k [.block b t'] k'
  | ifFalse {o c b t e e' k k'} (constant : c.constant? k.ledger = some false)
      (inner : Pass file e.toList
        ⟨k.ledger.releaseAll file (exprNodes c ++ Stmt.nodesOfAll t), true⟩ e' k') :
      Pass file [.if_ o c b t e] k e' k'
  | ifKeep {o c b t e t' k k₁ k₂} {e' : Option Stmt} (open_ : c.constant? k.ledger = none)
      (first : Pass file t k t' k₁) (second : Pass file e.toList k₁ e'.toList k₂) :
      Pass file [.if_ o c b t e] k [.if_ o c b t' e'] k₂

variable {file : NamespaceId} {ss ss' : List Stmt} {k k' : Pruning}

mutual

theorem pruneStmt_pass (s : Stmt) (k : Pruning) :
    Pass file [s] k (pruneStmt file s k).1.toList (pruneStmt file s k).2 := by
  cases s with
  | let_ o n s v u =>
      rw [pruneStmt_let]
      split
      · next hdead =>
          obtain ⟨hdead, hpure⟩ := Bool.and_eq_true_iff.mp hdead
          exact .dropLet hdead hpure
      · next hstays => exact .keep rfl (by simpa [Stmt.isRemovable] using hstays)
  | assign o n s v u =>
      rw [pruneStmt_assign]
      split
      · next hdead =>
          split
          · next hpure => exact .dropAssign hdead hpure
          · next heffect => exact .reduceAssign hdead (by simpa using heffect)
      · next hstays => exact .keep rfl (by simpa [Stmt.isRemovable] using hstays)
  | fn o n s ps bo body u =>
      rw [pruneStmt_fn]
      split
      · next hdead => exact .dropFn hdead
      · next hlive => exact .fn (by simpa using hlive) (pruneStmts_pass body k)
  | block o body =>
      rw [pruneStmt_block]
      exact .block (pruneStmts_pass body k)
  | if_ o c b t e =>
      cases hc : c.constant? k.ledger with
      | none =>
          rw [pruneStmt_if_none _ _ _ _ _ _ _ hc]
          exact .ifKeep hc (pruneStmts_pass t k) (pruneElse_pass e _)
      | some value =>
          cases value with
          | true =>
              rw [pruneStmt_if_true _ _ _ _ _ _ _ hc]
              exact .ifTrue hc (pruneStmts_pass t _)
          | false =>
              rw [pruneStmt_if_false _ _ _ _ _ _ _ hc]
              exact .ifFalse hc (pruneElse_pass e _)
  | import_ o q p => rw [pruneStmt_of_isInert file k rfl]; exact .keep rfl rfl
  | enum o n es => rw [pruneStmt_of_isInert file k rfl]; exact .keep rfl rfl
  | retain o ns => rw [pruneStmt_of_isInert file k rfl]; exact .keep rfl rfl
  | return_ o v => rw [pruneStmt_of_isInert file k rfl]; exact .keep rfl rfl
  | setMember o t p v => rw [pruneStmt_of_isInert file k rfl]; exact .keep rfl rfl
  | expr x => rw [pruneStmt_of_isInert file k rfl]; exact .keep rfl rfl

theorem pruneStmts_pass (ss : List Stmt) (k : Pruning) :
    Pass file ss k (pruneStmts file ss k).1 (pruneStmts file ss k).2 := by
  cases ss with
  | nil =>
      rw [pruneStmts]
      exact .nil
  | cons s rest =>
      rw [pruneStmts_cons]
      exact .cons (pruneStmt_pass s k) (pruneStmts_pass rest _)

theorem pruneElse_pass (e : Option Stmt) (k : Pruning) :
    Pass file e.toList k (pruneElse file e k).1.toList (pruneElse file e k).2 := by
  cases e with
  | none =>
      rw [pruneElse_none]
      exact .nil
  | some s =>
      rw [pruneElse_some]
      exact pruneStmt_pass s k

end

/-- A ledger from which some reads of a namespace may have been taken off. -/
def Released (file : NamespaceId) (l l' : Ledger) : Prop :=
  ∃ dropped : List Read, l' = dropped.foldl (Ledger.release file) l

theorem Released.trans {l l' l'' : Ledger} (h : Released file l l') (h' : Released file l' l'') :
    Released file l l'' := by
  obtain ⟨dropped, rfl⟩ := h
  obtain ⟨dropped', rfl⟩ := h'
  exact ⟨dropped ++ dropped', by rw [List.foldl_append]⟩

theorem released_releaseAll (l : Ledger) (nodes : List Node) :
    Released file l (l.releaseAll file nodes) := ⟨_, rfl⟩

theorem Pass.released (h : Pass file ss k ss' k') : Released file k.ledger k'.ledger := by
  induction h with
  | nil => exact ⟨[], rfl⟩
  | cons _ _ ihead itail => exact ihead.trans itail
  | keep => exact ⟨[], rfl⟩
  | dropLet => exact released_releaseAll _ _
  | dropAssign => exact released_releaseAll _ _
  | reduceAssign => exact ⟨[], rfl⟩
  | dropFn => exact released_releaseAll _ _
  | fn _ _ ih => exact ih
  | block _ ih => exact ih
  | ifTrue _ _ ih => exact (released_releaseAll _ _).trans ih
  | ifFalse _ _ ih => exact (released_releaseAll _ _).trans ih
  | ifKeep _ _ _ ifirst isecond => exact ifirst.trans isecond

/-- What a pass has removed stays removed. -/
theorem Pass.changed (h : Pass file ss k ss' k') (hk : k.changed = true) : k'.changed = true := by
  induction h with
  | nil => exact hk
  | cons _ _ ihead itail => exact itail (ihead hk)
  | keep => exact hk
  | dropLet => rfl
  | dropAssign => rfl
  | reduceAssign => rfl
  | dropFn => rfl
  | fn _ _ ih => exact ih hk
  | block _ ih => exact ih hk
  | ifTrue _ _ ih => exact ih rfl
  | ifFalse _ _ ih => exact ih rfl
  | ifKeep _ _ _ ifirst isecond => exact isecond (ifirst hk)

theorem Pass.unchanged_before (h : Pass file ss k ss' k') (hk : k'.changed = false) :
    k.changed = false := by
  by_contra hchanged
  rw [h.changed (by simpa using hchanged)] at hk
  cases hk

end Pruning

end Splice

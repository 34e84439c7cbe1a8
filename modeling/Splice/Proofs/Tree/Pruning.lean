import Splice.Proofs.Ledger.Accounting
import Splice.Proofs.Tree.Mention
import Splice.Tree.Prune

/-!
# What a pruning pass does

The first section gives the outcome of a pass on each kind of statement.  From it
follows the law that all statements about dead code removal rest on: a pass takes
off the ledger exactly the reads that it removes from the tree
(`Pruning.pruneStmts_releases`).  So readers only ever disappear, and a binding that
is read after a pass was read at every moment of it.
-/

namespace Splice

namespace Pruning

section

variable (file : NamespaceId) (k : Pruning)

-- The equations are made once, for all the lemmas below.
attribute [local simp] pruneStmt pruneStmts pruneElse

theorem releaseAll_append (l : Ledger) (a b : List Node) :
    l.releaseAll file (a ++ b) = (l.releaseAll file a).releaseAll file b := by
  simp [Ledger.releaseAll]

theorem pruneStmt_let (o n s v u) :
    pruneStmt file (.let_ o n s v u) k =
      if isDead k.ledger u && v.isPure then
        (none, ⟨k.ledger.releaseAll file (exprNodes v), true⟩)
      else (some (.let_ o n s v u), k) := by
  rw [pruneStmt]
  change (ite _ _ _ : StateM Pruning (Option Stmt)) k = _
  split <;> rfl

theorem pruneStmt_assign (o n s v u) :
    pruneStmt file (.assign o n s v u) k =
      if isDead k.ledger u then
        if v.isPure then (none, ⟨k.ledger.releaseAll file (exprNodes v), true⟩)
        else (some (.expr v), ⟨k.ledger, true⟩)
      else (some (.assign o n s v u), k) := by
  rw [pruneStmt]
  change (ite _ _ _ : StateM Pruning (Option Stmt)) k = _
  split
  · split <;> rfl
  · rfl

theorem pruneStmt_fn (o n s ps bo body u) :
    pruneStmt file (.fn o n s ps bo body u) k =
      if isDead k.ledger u then
        (none, ⟨k.ledger.releaseAll file (Stmt.nodesOfAll body), true⟩)
      else
        (some (.fn o n s ps bo (pruneStmts file body k).1 u), (pruneStmts file body k).2) := by
  rw [pruneStmt]
  change (ite _ _ _ : StateM Pruning (Option Stmt)) k = _
  split <;> rfl

theorem pruneStmt_block (o body) :
    pruneStmt file (.block o body) k =
      (some (.block o (pruneStmts file body k).1), (pruneStmts file body k).2) := by
  rw [pruneStmt]
  rfl

theorem pruneStmt_if_true (o c b t e) (hc : c.constant? k.ledger = some true) :
    pruneStmt file (.if_ o c b t e) k =
      let r := pruneStmts file t
        ⟨k.ledger.releaseAll file (exprNodes c ++ Stmt.nodesOfElse e), true⟩
      (some (.block b r.1), r.2) := by
  rw [pruneStmt, releaseAll_append]
  simp only [bind, StateT.bind, get, getThe, MonadStateOf.get, StateT.get, pure, hc]
  rfl

theorem pruneStmt_if_false (o c b t e) (hc : c.constant? k.ledger = some false) :
    pruneStmt file (.if_ o c b t e) k =
      pruneElse file e
        ⟨k.ledger.releaseAll file (exprNodes c ++ Stmt.nodesOfAll t), true⟩ := by
  rw [pruneStmt, releaseAll_append]
  simp only [bind, StateT.bind, get, getThe, MonadStateOf.get, StateT.get, pure, hc]
  rfl

theorem pruneStmt_if_none (o c b t e) (hc : c.constant? k.ledger = none) :
    pruneStmt file (.if_ o c b t e) k =
      let r := pruneStmts file t k
      (some (.if_ o c b r.1 (pruneElse file e r.2).1), (pruneElse file e r.2).2) := by
  rw [pruneStmt]
  simp only [bind, StateT.bind, get, getThe, MonadStateOf.get, StateT.get, pure, hc]
  rfl

theorem pruneStmts_cons (s rest) :
    pruneStmts file (s :: rest) k =
      let r := pruneStmt file s k
      (r.1.toList ++ (pruneStmts file rest r.2).1, (pruneStmts file rest r.2).2) := by
  rw [pruneStmts]
  rfl

theorem pruneElse_some (s) : pruneElse file (some s) k = pruneStmt file s k := by
  rw [pruneElse]

theorem pruneElse_none : pruneElse file none k = (none, k) := by
  rw [pruneElse]
  rfl

/-- Statements that a pass never touches. -/
def isInert : Stmt → Bool
  | .import_ _ _ _ => true
  | .enum _ _ _ => true
  | .retain _ _ => true
  | .return_ _ _ => true
  | .setMember _ _ _ _ => true
  | .expr _ => true
  | _ => false

theorem pruneStmt_of_isInert {s : Stmt} (h : isInert s = true) :
    pruneStmt file s k = (some s, k) := by
  cases s <;> cases h <;> (rw [pruneStmt]; rfl)

end

/-! ## Reads that are given up -/

/-- The reads of `before` are those of `after` and those that were released on the
way from one ledger to another. -/
def Releases (file : NamespaceId) (before after : List Read) (l l' : Ledger) : Prop :=
  ∃ dropped, before.Perm (after ++ dropped) ∧ l' = dropped.foldl (Ledger.release file) l

variable {file : NamespaceId} {l l' l'' : Ledger} {a b c d : List Read}

theorem Releases.refl (a : List Read) (l : Ledger) : Releases file a a l l :=
  ⟨[], by simp, rfl⟩

/-- Reads that all go. -/
theorem releases_releaseAll (file : NamespaceId) (l : Ledger) (nodes : List Node) :
    Releases file (nodes.filterMap Node.read?) [] l (l.releaseAll file nodes) :=
  ⟨nodes.filterMap Node.read?, by simp, rfl⟩

theorem Releases.append (h : Releases file a b l l') (h' : Releases file c d l' l'') :
    Releases file (a ++ c) (b ++ d) l l'' := by
  obtain ⟨dropped, hperm, rfl⟩ := h
  obtain ⟨dropped', hperm', rfl⟩ := h'
  refine ⟨dropped ++ dropped', (hperm.append hperm').trans ?_, by simp⟩
  simp only [List.append_assoc]
  apply List.Perm.append_left
  rw [← List.append_assoc, ← List.append_assoc]
  exact List.perm_append_comm.append_right _

theorem Releases.perm_left (h : Releases file a b l l') (hperm : c.Perm a) :
    Releases file c b l l' := by
  obtain ⟨dropped, hdropped, hl⟩ := h
  exact ⟨dropped, hperm.trans hdropped, hl⟩

private theorem reads_exprNodes (x : Expr) :
    (exprNodes x).filterMap Node.read? = x.nodes.filterMap Expr.read? := by
  rw [exprNodes, List.filterMap_map]
  rfl

mutual

theorem pruneStmt_releases (s : Stmt) (k : Pruning) :
    Releases file s.reads (Stmt.readsOfElse (pruneStmt file s k).1) k.ledger
      (pruneStmt file s k).2.ledger := by
  cases s with
  | let_ o n s v u =>
      rw [pruneStmt_let]
      split
      · simpa [reads_exprNodes] using releases_releaseAll file k.ledger (exprNodes v)
      · exact Releases.refl _ _
  | assign o n s v u =>
      rw [pruneStmt_assign]
      split
      · split
        · simpa [reads_exprNodes] using releases_releaseAll file k.ledger (exprNodes v)
        · simpa using Releases.refl (v.nodes.filterMap Expr.read?) k.ledger
      · exact Releases.refl _ _
  | fn o n s ps bo body u =>
      rw [pruneStmt_fn]
      split
      · simpa [Stmt.readsOfAll] using
          releases_releaseAll file k.ledger (Stmt.nodesOfAll body)
      · simpa using pruneStmts_releases body k
  | block o body =>
      rw [pruneStmt_block]
      simpa using pruneStmts_releases body k
  | if_ o c b t e =>
      cases hc : c.constant? k.ledger with
      | none =>
          rw [pruneStmt_if_none _ _ _ _ _ _ _ hc]
          have hthen := pruneStmts_releases t k
          have helse := pruneElse_releases e (pruneStmts file t k).2
          simpa using
            (Releases.refl (c.nodes.filterMap Expr.read?) k.ledger).append
              (hthen.append helse)
      | some value =>
          cases value with
          | true =>
              rw [pruneStmt_if_true _ _ _ _ _ _ _ hc]
              have hgone := releases_releaseAll file k.ledger
                (exprNodes c ++ Stmt.nodesOfElse e)
              have hthen := pruneStmts_releases t
                ⟨k.ledger.releaseAll file (exprNodes c ++ Stmt.nodesOfElse e), true⟩
              have hall := hgone.append hthen
              simp only [List.filterMap_append, reads_exprNodes, List.nil_append] at hall
              refine Releases.perm_left (by simpa using hall) ?_
              simp only [Stmt.reads_if, Stmt.readsOfElse, List.append_assoc]
              exact List.perm_append_comm.append_left _
          | false =>
              rw [pruneStmt_if_false _ _ _ _ _ _ _ hc]
              have hgone := releases_releaseAll file k.ledger
                (exprNodes c ++ Stmt.nodesOfAll t)
              have helse := pruneElse_releases e
                ⟨k.ledger.releaseAll file (exprNodes c ++ Stmt.nodesOfAll t), true⟩
              have hall := hgone.append helse
              simp only [List.filterMap_append, reads_exprNodes, List.nil_append] at hall
              simpa [Stmt.readsOfAll] using hall
  | import_ o q p => exact pruneStmt_of_isInert file k (s := .import_ o q p) rfl ▸ Releases.refl _ _
  | enum o n es => exact pruneStmt_of_isInert file k (s := .enum o n es) rfl ▸ Releases.refl _ _
  | retain o ns => exact pruneStmt_of_isInert file k (s := .retain o ns) rfl ▸ Releases.refl _ _
  | return_ o v => exact pruneStmt_of_isInert file k (s := .return_ o v) rfl ▸ Releases.refl _ _
  | setMember o t p v =>
      exact pruneStmt_of_isInert file k (s := .setMember o t p v) rfl ▸ Releases.refl _ _
  | expr x => exact pruneStmt_of_isInert file k (s := .expr x) rfl ▸ Releases.refl _ _

/-- A pass over statements takes off the ledger exactly the reads that it removes. -/
theorem pruneStmts_releases (ss : List Stmt) (k : Pruning) :
    Releases file (Stmt.readsOfAll ss) (Stmt.readsOfAll (pruneStmts file ss k).1) k.ledger
      (pruneStmts file ss k).2.ledger := by
  cases ss with
  | nil =>
      rw [pruneStmts]
      exact Releases.refl _ _
  | cons s rest =>
      rw [pruneStmts_cons]
      have hfirst := pruneStmt_releases s k
      have hrest := pruneStmts_releases rest (pruneStmt file s k).2
      simpa [Stmt.readsOfAll_toList_append] using hfirst.append hrest

theorem pruneElse_releases (e : Option Stmt) (k : Pruning) :
    Releases file (Stmt.readsOfElse e) (Stmt.readsOfElse (pruneElse file e k).1) k.ledger
      (pruneElse file e k).2.ledger := by
  cases e with
  | none =>
      rw [pruneElse_none]
      exact Releases.refl _ _
  | some s =>
      rw [pruneElse_some]
      exact pruneStmt_releases s k

end

/-- A pass over some statements keeps a ledger accounting for the reads of these
statements and of everything else. -/
theorem Releases.accounts {others : List PlacedRead} (h : Releases file a b l l')
    (hl : l.Accounts (a.map (PlacedRead.mk file) ++ others))
    (hnodup : ((a.map (PlacedRead.mk file) ++ others).map PlacedRead.reader).Nodup) :
    l'.Accounts (b.map (PlacedRead.mk file) ++ others) ∧
      ((b.map (PlacedRead.mk file) ++ others).map PlacedRead.reader).Nodup := by
  obtain ⟨dropped, hperm, rfl⟩ := h
  have hsplit : (a.map (PlacedRead.mk file) ++ others).Perm
      (dropped.map (PlacedRead.mk file) ++ (b.map (PlacedRead.mk file) ++ others)) := by
    rw [← List.append_assoc, ← List.map_append]
    exact ((hperm.trans List.perm_append_comm).map _).append_right _
  have hnodup' := (hsplit.map PlacedRead.reader).nodup_iff.mp hnodup
  refine ⟨(hl.perm hsplit).foldl_release dropped hnodup', ?_⟩
  rw [List.map_append] at hnodup'
  exact (List.nodup_append.mp hnodup').2.1

mutual

theorem mentions_pruneStmt (s : Stmt) (k : Pruning) :
    Stmt.mentionsOfElse (pruneStmt file s k).1 ⊆ s.mentions := by
  cases s with
  | let_ o n s v u =>
      rw [pruneStmt_let]
      split
      · exact List.nil_subset _
      · exact List.Subset.refl _
  | assign o n s v u =>
      rw [pruneStmt_assign]
      split
      · split
        · exact List.nil_subset _
        · exact List.subset_append_left _ _
      · exact List.Subset.refl _
  | fn o n s ps bo body u =>
      rw [pruneStmt_fn]
      split
      · exact List.nil_subset _
      · have hbody := mentions_pruneStmts body k
        simp only [Stmt.mentionsOfElse, Stmt.mentions]
        exact List.append_subset.mpr ⟨List.subset_append_left _ _,
          List.Subset.trans hbody (List.subset_append_right _ _)⟩
  | block o body =>
      rw [pruneStmt_block]
      exact mentions_pruneStmts body k
  | if_ o c b t e =>
      cases hc : c.constant? k.ledger with
      | none =>
          rw [pruneStmt_if_none _ _ _ _ _ _ _ hc]
          have hthen := mentions_pruneStmts t k
          have helse := mentions_pruneElse e (pruneStmts file t k).2
          intro m hm
          simp only [Stmt.mentionsOfElse, Stmt.mentions, List.mem_append] at hm ⊢
          rcases hm with (hm | hm) | hm
          · exact Or.inl (Or.inl hm)
          · exact Or.inl (Or.inr (hthen hm))
          · exact Or.inr (helse hm)
      | some value =>
          cases value with
          | true =>
              rw [pruneStmt_if_true _ _ _ _ _ _ _ hc]
              intro m hm
              simp only [Stmt.mentions, List.mem_append]
              exact Or.inl (Or.inr (mentions_pruneStmts t _ hm))
          | false =>
              rw [pruneStmt_if_false _ _ _ _ _ _ _ hc]
              intro m hm
              simp only [Stmt.mentions, List.mem_append]
              exact Or.inr (mentions_pruneElse e _ hm)
  | import_ o q p => rw [pruneStmt_of_isInert file k rfl]; exact List.Subset.refl _
  | enum o n es => rw [pruneStmt_of_isInert file k rfl]; exact List.Subset.refl _
  | retain o ns => rw [pruneStmt_of_isInert file k rfl]; exact List.Subset.refl _
  | return_ o v => rw [pruneStmt_of_isInert file k rfl]; exact List.Subset.refl _
  | setMember o t p v => rw [pruneStmt_of_isInert file k rfl]; exact List.Subset.refl _
  | expr x => rw [pruneStmt_of_isInert file k rfl]; exact List.Subset.refl _

theorem mentions_pruneStmts (ss : List Stmt) (k : Pruning) :
    Stmt.mentionsOfAll (pruneStmts file ss k).1 ⊆ Stmt.mentionsOfAll ss := by
  cases ss with
  | nil =>
      rw [pruneStmts]
      exact List.Subset.refl _
  | cons s rest =>
      rw [pruneStmts_cons]
      have hfirst := mentions_pruneStmt s k
      have hrest := mentions_pruneStmts rest (pruneStmt file s k).2
      rw [Stmt.mentionsOfAll_toList_append]
      intro m hm
      simp only [Stmt.mentionsOfAll, List.mem_append] at hm ⊢
      rcases hm with hm | hm
      · exact Or.inl (hfirst hm)
      · exact Or.inr (hrest hm)

theorem mentions_pruneElse (e : Option Stmt) (k : Pruning) :
    Stmt.mentionsOfElse (pruneElse file e k).1 ⊆ Stmt.mentionsOfElse e := by
  cases e with
  | none =>
      rw [pruneElse_none]
      exact List.Subset.refl _
  | some s =>
      rw [pruneElse_some]
      exact mentions_pruneStmt s k

end

end Pruning

end Splice

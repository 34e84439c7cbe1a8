import Splice.Proofs.Tree.Tracking

/-!
# Passes that remove nothing

A pass that removes nothing leaves the statements and its state as they are, and has
found nothing to remove at any depth (`Pruning.Pass.unchanged`).  A pass that removes
something leaves fewer candidates for removal than there were: a `let`, an assignment
or a function goes, or an `if` gives way to a branch.  The second fact is one
inequality, in which the mark that something has changed counts as one candidate
(`Pruning.Pass.candidates_le`).

A binding without a record is never removed.  Analysis gives every binding a record
and passes make no new bindings, so what a pass leaves alone is live
(`Pruning.Settled.isLive`).
-/

namespace Splice

/-- The kinds of statements that a pass may remove or replace. -/
def Stmt.isCandidate : Stmt → Bool
  | .let_ _ _ _ _ _ => true
  | .assign _ _ _ _ _ => true
  | .fn _ _ _ _ _ _ _ => true
  | .if_ _ _ _ _ _ => true
  | _ => false

def Node.isCandidate : Node → Bool
  | .expr _ => false
  | .stmt s => s.isCandidate

/-- How many nodes of some statements are candidates for removal. -/
def Stmt.candidates (ss : List Stmt) : Nat := (nodesOfAll ss).countP Node.isCandidate

namespace Stmt

section

attribute [local simp] Node.isCandidate isCandidate

@[simp] theorem countP_exprNodes (x : Expr) :
    (x.nodes.map Node.expr).countP Node.isCandidate = 0 := by
  rw [List.countP_eq_zero]
  intro node hnode
  obtain ⟨y, -, rfl⟩ := List.mem_map.mp hnode
  simp

@[simp] theorem candidates_nil : candidates [] = 0 := rfl

@[simp] theorem candidates_append (a b : List Stmt) :
    candidates (a ++ b) = candidates a + candidates b := by
  simp [candidates]

theorem candidates_cons (s : Stmt) (rest : List Stmt) :
    candidates (s :: rest) = candidates [s] + candidates rest := by
  simp [candidates]

@[simp] theorem candidates_let (o n s v u) : candidates [let_ o n s v u] = 1 := by
  simp [candidates, nodes_let, List.countP_cons]

@[simp] theorem candidates_assign (o n s v u) : candidates [assign o n s v u] = 1 := by
  simp [candidates, nodes_assign, List.countP_cons]

@[simp] theorem candidates_expr (x) : candidates [expr x] = 0 := by
  simp [candidates, nodes_expr]

@[simp] theorem candidates_fn (o n s ps bo body u) :
    candidates [fn o n s ps bo body u] = candidates body + 1 := by
  simp [candidates, nodes_fn, List.countP_cons]

@[simp] theorem candidates_block (o body) : candidates [block o body] = candidates body := by
  simp [candidates, nodes_block]

@[simp] theorem candidates_if (o c b t e) :
    candidates [if_ o c b t e] = candidates t + candidates e.toList + 1 := by
  simp [candidates, nodes_if, nodesOfElse_eq, List.countP_cons]

end

/-- Every `let`, assignment and function has a record. -/
def Recorded (ss : List Stmt) : Prop := ∀ e ∈ stores ss, ∃ u, e.1 = some u

/-- A `let` whose binding is read or whose value has an effect, an assignment or a
function whose binding is read, an `if` whose condition is open. -/
def IsLive (l : Ledger) : Stmt → Prop
  | let_ _ _ _ value usage =>
      ∃ u, usage = some u ∧ ((l.usage u).isRead = true ∨ value.isPure = false)
  | assign _ _ _ _ usage => ∃ u, usage = some u ∧ (l.usage u).isRead = true
  | fn _ _ _ _ _ _ usage => ∃ u, usage = some u ∧ (l.usage u).isRead = true
  | if_ _ condition _ _ _ => condition.constant? l = none
  | _ => True

end Stmt

namespace Pruning

variable {file : NamespaceId} {ss ss' : List Stmt} {k k' : Pruning}

/-- Every change is paid for by a candidate. -/
theorem Pass.candidates_le (h : Pass file ss k ss' k') :
    Stmt.candidates ss' + k'.changed.toNat ≤ Stmt.candidates ss + k.changed.toNat := by
  induction h with
  | nil => exact le_rfl
  | cons _ _ ihead itail =>
      rw [Stmt.candidates_append, Stmt.candidates_cons]
      omega
  | keep => exact le_rfl
  | dropLet => simp
  | dropAssign => simp
  | reduceAssign => simp
  | dropFn =>
      rw [Stmt.candidates_fn, Stmt.candidates_nil, Bool.toNat_true]
      omega
  | fn _ _ ih =>
      rw [Stmt.candidates_fn, Stmt.candidates_fn]
      omega
  | block _ ih =>
      rw [Stmt.candidates_block, Stmt.candidates_block]
      exact ih
  | ifTrue _ _ ih =>
      simp only [Bool.toNat_true] at ih
      rw [Stmt.candidates_block, Stmt.candidates_if]
      omega
  | ifFalse _ _ ih =>
      simp only [Bool.toNat_true] at ih
      rw [Stmt.candidates_if]
      omega
  | ifKeep _ _ _ ifirst isecond =>
      rw [Stmt.candidates_if, Stmt.candidates_if]
      omega

/-- Nothing among some statements is to be removed. -/
def Settled (l : Ledger) (ss : List Stmt) : Prop :=
  ∀ s, .stmt s ∈ Stmt.nodesOfAll ss → s.isRemovable l = false

theorem not_mem_exprNodes (s : Stmt) (x : Expr) : .stmt s ∉ x.nodes.map Node.expr := by
  simp

theorem Settled.append {l : Ledger} {a b : List Stmt} (ha : Settled l a) (hb : Settled l b) :
    Settled l (a ++ b) := by
  intro s hs
  rw [Stmt.nodesOfAll_append, List.mem_append] at hs
  rcases hs with hs | hs
  · exact ha s hs
  · exact hb s hs

theorem settled_of_isSimple {l : Ledger} {s : Stmt} (hsimple : s.isSimple = true)
    (hstays : s.isRemovable l = false) : Settled l [s] := by
  intro s' hs'
  have heq : s' = s := by
    cases s with
    | return_ o v =>
        cases v with
        | none => simpa [Stmt.nodes] using hs'
        | some x => simpa [Stmt.nodes_return] using hs'
    | fn o n sym ps bo body u => cases hsimple
    | if_ o c b t e => cases hsimple
    | block o body => cases hsimple
    | let_ o n sym v u => simpa [Stmt.nodes_let] using hs'
    | assign o n sym v u => simpa [Stmt.nodes_assign] using hs'
    | setMember o t p v => simpa [Stmt.nodes_setMember] using hs'
    | expr x => simpa [Stmt.nodes_expr] using hs'
    | import_ o q p => simpa [Stmt.nodes] using hs'
    | enum o n es => simpa [Stmt.nodes] using hs'
    | retain o ns => simpa [Stmt.nodes] using hs'
  rw [heq]
  exact hstays

theorem settled_fn {l : Ledger} {o n s ps bo body u} (hlive : isDead l u = false)
    (hbody : Settled l body) : Settled l [.fn o n s ps bo body u] := by
  intro s' hs'
  simp only [Stmt.nodesOfAll_cons, Stmt.nodes_fn, Stmt.nodesOfAll_nil, List.append_nil,
    List.mem_cons, Node.stmt.injEq] at hs'
  rcases hs' with rfl | rfl | hs'
  · exact hlive
  · rfl
  · exact hbody s' hs'

theorem settled_block {l : Ledger} {o body} (hbody : Settled l body) :
    Settled l [.block o body] := by
  intro s' hs'
  simp only [Stmt.nodesOfAll_cons, Stmt.nodes_block, Stmt.nodesOfAll_nil, List.append_nil,
    List.mem_cons, Node.stmt.injEq] at hs'
  rcases hs' with rfl | hs'
  · rfl
  · exact hbody s' hs'

theorem settled_if {l : Ledger} {o c b t e} (hopen : c.constant? l = none) (ht : Settled l t)
    (he : Settled l e.toList) : Settled l [.if_ o c b t e] := by
  intro s' hs'
  simp only [Stmt.nodesOfAll_cons, Stmt.nodes_if, Stmt.nodesOfElse_eq, Stmt.nodesOfAll_nil,
    List.append_nil, List.mem_cons, List.mem_append, Node.stmt.injEq] at hs'
  rcases hs' with rfl | (hs' | rfl | hs') | hs'
  · simp [Stmt.isRemovable, hopen]
  · exact absurd hs' (not_mem_exprNodes s' c)
  · rfl
  · exact ht s' hs'
  · exact he s' hs'

theorem toList_injective {e e' : Option Stmt} (h : e.toList = e'.toList) : e = e' := by
  cases e <;> cases e' <;> simp_all

/-- A pass that removes nothing leaves everything as it is, and there was nothing to
remove. -/
theorem Pass.unchanged (h : Pass file ss k ss' k') (hk : k'.changed = false) :
    ss' = ss ∧ k' = k ∧ Settled k.ledger ss := by
  induction h with
  | nil => exact ⟨rfl, rfl, nofun⟩
  | cons _ tail ihead itail =>
      obtain ⟨hhead, rfl, hsettled⟩ := ihead (tail.unchanged_before hk)
      obtain ⟨htail, rfl, hsettled'⟩ := itail hk
      refine ⟨?_, rfl, ?_⟩
      · rw [hhead, htail, List.singleton_append]
      · exact hsettled.append hsettled'
  | keep simple stays => exact ⟨rfl, rfl, settled_of_isSimple simple stays⟩
  | dropLet => cases hk
  | dropAssign => cases hk
  | reduceAssign => cases hk
  | dropFn => cases hk
  | fn live _ ih =>
      obtain ⟨hbody, rfl, hsettled⟩ := ih hk
      rw [hbody]
      exact ⟨rfl, rfl, settled_fn live hsettled⟩
  | block _ ih =>
      obtain ⟨hbody, rfl, hsettled⟩ := ih hk
      rw [hbody]
      exact ⟨rfl, rfl, settled_block hsettled⟩
  | ifTrue _ inner => rw [inner.changed rfl] at hk; cases hk
  | ifFalse _ inner => rw [inner.changed rfl] at hk; cases hk
  | ifKeep open_ _ second ifirst isecond =>
      obtain ⟨hthen, rfl, hsettled⟩ := ifirst (second.unchanged_before hk)
      obtain ⟨helse, rfl, hsettled'⟩ := isecond hk
      rw [hthen, toList_injective helse]
      exact ⟨rfl, rfl, settled_if open_ hsettled hsettled'⟩

/-- A pass stores nothing that was not stored before. -/
theorem Pass.stores (h : Pass file ss k ss' k') :
    (Stmt.stores ss').Sublist (Stmt.stores ss) := by
  induction h with
  | nil => exact List.Sublist.refl _
  | cons _ _ ihead itail =>
      rw [Stmt.stores_append, Stmt.stores_cons]
      exact ihead.append itail
  | keep => exact List.Sublist.refl _
  | dropLet => exact List.nil_sublist _
  | dropAssign => exact List.nil_sublist _
  | reduceAssign =>
      rw [Stmt.stores_expr]
      exact List.nil_sublist _
  | dropFn => exact List.nil_sublist _
  | fn _ _ ih =>
      rw [Stmt.stores_fn, Stmt.stores_fn]
      exact ih.cons_cons _
  | block _ ih =>
      rw [Stmt.stores_block, Stmt.stores_block]
      exact ih
  | ifTrue _ _ ih =>
      rw [Stmt.stores_block, Stmt.stores_if]
      exact ih.trans (List.sublist_append_left _ _)
  | ifFalse _ _ ih =>
      rw [Stmt.stores_if]
      exact ih.trans (List.sublist_append_right _ _)
  | ifKeep _ _ _ ifirst isecond =>
      rw [Stmt.stores_if, Stmt.stores_if]
      exact ifirst.append isecond

theorem Pass.recorded (h : Pass file ss k ss' k') (hss : Stmt.Recorded ss) :
    Stmt.Recorded ss' :=
  fun e he => hss e (h.stores.subset he)

theorem isRead_of_isDead_eq_false {l : Ledger} {u : UsageId} (h : isDead l (some u) = false) :
    (l.usage u).isRead = true := by
  simpa [isDead] using h

theorem Settled.isLive {l : Ledger} (h : Settled l ss) (hss : Stmt.Recorded ss) {s : Stmt}
    (hs : .stmt s ∈ Stmt.nodesOfAll ss) : s.IsLive l := by
  have hstays := h s hs
  cases s with
  | let_ o n sym v usage =>
      obtain ⟨u, rfl : usage = some u⟩ := hss (usage, v.truth) (Stmt.mem_stores hs rfl)
      refine ⟨u, rfl, ?_⟩
      rcases Bool.and_eq_false_iff.mp hstays with hread | heffect
      · exact Or.inl (isRead_of_isDead_eq_false hread)
      · exact Or.inr heffect
  | assign o n sym v usage =>
      obtain ⟨u, rfl : usage = some u⟩ := hss (usage, v.truth) (Stmt.mem_stores hs rfl)
      exact ⟨u, rfl, isRead_of_isDead_eq_false hstays⟩
  | fn o n sym ps bo body usage =>
      obtain ⟨u, rfl : usage = some u⟩ := hss (usage, .truthy) (Stmt.mem_stores hs rfl)
      exact ⟨u, rfl, isRead_of_isDead_eq_false hstays⟩
  | if_ o c b t e => simpa [Stmt.isRemovable, Stmt.IsLive] using hstays
  | _ => trivial

end Pruning

end Splice

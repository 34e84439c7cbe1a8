import Splice.Proofs.Tree.Scoping
import Splice.Proofs.Tree.Settling

/-!
# What removal leaves in the end

A pass decides what is dead by a ledger that changes under its hands.  The residue of
some statements under a ledger is what is left of them if that one ledger decides
everything, and what they shed are the reads that go.  Statements in which nothing is
to be removed are their own residue (`Pruning.residueOfAll_of_settled`).

Let a ledger be given, say the one that a complete removal ends with.  As long as all
bindings that it lists as read are read, a pass removes only what the ledger condemns as
well, so the residue stays the same (`Pruning.Pass.residue`).  And they do stay read: a
pass gives up only reads that are shed, so a binding with a reader in the residue keeps
that reader (`Pruning.Pass.guards`).  Together the two facts say that no order of work
can remove more than any other.
-/

namespace Splice

theorem Usage.isRead_iff {usage : Usage} : usage.isRead = true ↔ ∃ x, x ∈ usage.readers := by
  rw [isRead, Bool.not_eq_true', List.isEmpty_eq_false_iff_exists_mem]

namespace Pruning

variable {l : Ledger} {file : NamespaceId} {ss ss' : List Stmt} {k k' : Pruning}

mutual

/-- What is left of a statement if a ledger decides everything. -/
def residue (l : Ledger) : Stmt → Option Stmt
  | .let_ o n s value usage =>
      if isDead l usage && value.isPure then none else some (.let_ o n s value usage)
  | .assign o n s value usage =>
      if isDead l usage then if value.isPure then none else some (.expr value)
      else some (.assign o n s value usage)
  | .fn o n s params bo body usage =>
      if isDead l usage then none
      else some (.fn o n s params bo (residueOfAll l body) usage)
  | .block o body => some (.block o (residueOfAll l body))
  | .if_ o condition b then_ else_ =>
      match condition.constant? l with
      | some true => some (.block b (residueOfAll l then_))
      | some false => residueOfElse l else_
      | none => some (.if_ o condition b (residueOfAll l then_) (residueOfElse l else_))
  | s => some s

def residueOfAll (l : Ledger) : List Stmt → List Stmt
  | [] => []
  | s :: rest => (residue l s).toList ++ residueOfAll l rest

def residueOfElse (l : Ledger) : Option Stmt → Option Stmt
  | none => none
  | some s => residue l s

end

mutual

/-- The reads of a statement that its residue lacks. -/
def shed (l : Ledger) : Stmt → List Read
  | .let_ _ _ _ value usage =>
      if isDead l usage && value.isPure then value.nodes.filterMap Expr.read? else []
  | .assign _ _ _ value usage =>
      if isDead l usage && value.isPure then value.nodes.filterMap Expr.read? else []
  | .fn _ _ _ _ _ body usage =>
      if isDead l usage then Stmt.readsOfAll body else shedOfAll l body
  | .block _ body => shedOfAll l body
  | .if_ _ condition _ then_ else_ =>
      match condition.constant? l with
      | some true =>
          condition.nodes.filterMap Expr.read? ++ Stmt.readsOfElse else_ ++ shedOfAll l then_
      | some false =>
          condition.nodes.filterMap Expr.read? ++ Stmt.readsOfAll then_ ++ shedOfElse l else_
      | none => shedOfAll l then_ ++ shedOfElse l else_
  | _ => []

def shedOfAll (l : Ledger) : List Stmt → List Read
  | [] => []
  | s :: rest => shed l s ++ shedOfAll l rest

def shedOfElse (l : Ledger) : Option Stmt → List Read
  | none => []
  | some s => shed l s

end

@[simp] theorem residueOfAll_nil : residueOfAll l [] = [] := rfl

theorem residueOfAll_cons (s : Stmt) (rest : List Stmt) :
    residueOfAll l (s :: rest) = (residue l s).toList ++ residueOfAll l rest := rfl

@[simp] theorem residueOfAll_singleton (s : Stmt) :
    residueOfAll l [s] = (residue l s).toList := by
  rw [residueOfAll_cons, residueOfAll_nil, List.append_nil]

theorem residueOfAll_append (a b : List Stmt) :
    residueOfAll l (a ++ b) = residueOfAll l a ++ residueOfAll l b := by
  induction a with
  | nil => rfl
  | cons s rest ih => rw [List.cons_append, residueOfAll_cons, residueOfAll_cons, ih,
      List.append_assoc]

theorem toList_residueOfElse (e : Option Stmt) :
    (residueOfElse l e).toList = residueOfAll l e.toList := by
  cases e with
  | none => rfl
  | some s => rw [Option.toList_some, residueOfAll_singleton, residueOfElse]

theorem residueOfElse_congr {e e' : Option Stmt}
    (h : residueOfAll l e'.toList = residueOfAll l e.toList) :
    residueOfElse l e' = residueOfElse l e := by
  apply toList_injective
  rw [toList_residueOfElse, toList_residueOfElse, h]

@[simp] theorem shedOfAll_nil : shedOfAll l [] = [] := rfl

theorem shedOfAll_cons (s : Stmt) (rest : List Stmt) :
    shedOfAll l (s :: rest) = shed l s ++ shedOfAll l rest := rfl

@[simp] theorem shedOfAll_singleton (s : Stmt) : shedOfAll l [s] = shed l s := by
  rw [shedOfAll_cons, shedOfAll_nil, List.append_nil]

theorem shedOfElse_eq (e : Option Stmt) : shedOfElse l e = shedOfAll l e.toList := by
  cases e with
  | none => rfl
  | some s => rw [Option.toList_some, shedOfAll_singleton, shedOfElse]

mutual

/-- The reads of a statement are those of its residue and those that are shed. -/
theorem reads_perm (s : Stmt) :
    s.reads.Perm (Stmt.readsOfElse (residue l s) ++ shed l s) := by
  cases s with
  | let_ o n sym v u =>
      rw [residue, shed]
      split
      · simp
      · simp
  | assign o n sym v u =>
      rw [residue, shed]
      by_cases hdead : isDead l u = true
      · by_cases hpure : v.isPure = true
        · simp [hdead, hpure]
        · simp [hdead, hpure]
      · simp [hdead]
  | fn o n sym ps bo body u =>
      rw [residue, shed]
      split
      · simp
      · simpa using readsOfAll_perm body
  | block o body => simpa [residue, shed] using readsOfAll_perm body
  | if_ o c b t e =>
      have hthen := readsOfAll_perm t
      have helse := readsOfElse_perm e
      rw [List.perm_iff_count] at hthen helse ⊢
      intro r
      have hthen := hthen r
      have helse := helse r
      rw [residue, shed]
      cases c.constant? l with
      | none =>
          simp only [Stmt.reads_if, Stmt.readsOfElse_some, List.count_append] at hthen helse ⊢
          omega
      | some value =>
          cases value with
          | true =>
              simp only [Stmt.reads_if, Stmt.readsOfElse_some, Stmt.reads_block,
                List.count_append] at hthen ⊢
              omega
          | false =>
              simp only [Stmt.reads_if, List.count_append] at helse ⊢
              omega
  | _ => simp [residue, shed]

theorem readsOfAll_perm (ss : List Stmt) :
    (Stmt.readsOfAll ss).Perm (Stmt.readsOfAll (residueOfAll l ss) ++ shedOfAll l ss) := by
  cases ss with
  | nil => exact List.Perm.refl _
  | cons s rest =>
      have hfirst := reads_perm s
      have hrest := readsOfAll_perm rest
      rw [List.perm_iff_count] at hfirst hrest ⊢
      intro r
      have hfirst := hfirst r
      have hrest := hrest r
      rw [residueOfAll_cons, shedOfAll_cons, Stmt.readsOfAll_toList_append]
      simp only [Stmt.readsOfAll_cons, List.count_append] at hfirst hrest ⊢
      omega

theorem readsOfElse_perm (e : Option Stmt) :
    (Stmt.readsOfElse e).Perm (Stmt.readsOfElse (residueOfElse l e) ++ shedOfElse l e) := by
  cases e with
  | none => exact List.Perm.refl _
  | some s => exact reads_perm s

end

theorem shedOfAll_subset (ss : List Stmt) : shedOfAll l ss ⊆ Stmt.readsOfAll ss := by
  intro r hr
  exact (readsOfAll_perm ss).mem_iff.mpr (List.mem_append_right _ hr)

mutual

theorem residue_of_settled (s : Stmt) (h : Settled l [s]) : residue l s = some s := by
  have hstays : s.isRemovable l = false := h s (by cases s <;> simp [Stmt.nodes])
  cases s with
  | let_ o n sym v u =>
      rw [Stmt.isRemovable] at hstays
      rw [residue, if_neg (by simp [hstays])]
  | assign o n sym v u =>
      rw [Stmt.isRemovable] at hstays
      rw [residue, if_neg (by simp [hstays])]
  | fn o n sym ps bo body u =>
      have hbody : Settled l body := fun s' hs' => h s' (by simp [Stmt.nodes_fn, hs'])
      rw [Stmt.isRemovable] at hstays
      rw [residue, if_neg (by simp [hstays]), residueOfAll_of_settled body hbody]
  | block o body =>
      have hbody : Settled l body := fun s' hs' => h s' (by simp [Stmt.nodes_block, hs'])
      rw [residue, residueOfAll_of_settled body hbody]
  | if_ o c b t e =>
      have ht : Settled l t := fun s' hs' => h s' (by simp [Stmt.nodes_if, hs'])
      have he : Settled l e.toList := fun s' hs' => by
        refine h s' ?_
        rw [← Stmt.nodesOfElse_eq] at hs'
        simp [Stmt.nodes_if, hs']
      have hopen : c.constant? l = none := by simpa [Stmt.isRemovable] using hstays
      simp only [residue, hopen]
      rw [residueOfAll_of_settled t ht, residueOfElse_of_settled e he]
  | _ => rfl

theorem residueOfAll_of_settled (ss : List Stmt) (h : Settled l ss) :
    residueOfAll l ss = ss := by
  cases ss with
  | nil => rfl
  | cons s rest =>
      have hfirst : Settled l [s] := fun s' hs' => h s' (by simp_all)
      have hrest : Settled l rest := fun s' hs' => h s' (by simp [hs'])
      rw [residueOfAll_cons, residue_of_settled s hfirst, residueOfAll_of_settled rest hrest]
      rfl

theorem residueOfElse_of_settled (e : Option Stmt) (h : Settled l e.toList) :
    residueOfElse l e = e := by
  cases e with
  | none => rfl
  | some s => exact residue_of_settled s h

end

/-! ## Passes keep the residue -/

def SameTruth (l l' : Ledger) : Prop := ∀ u, (l'.usage u).truth = (l.usage u).truth

theorem constant?_congr {l l' : Ledger} (h : SameTruth l l') (x : Expr) :
    x.constant? l' = x.constant? l := by
  cases x with
  | name o n read =>
      cases read with
      | own symbol usage =>
          cases usage with
          | none => rfl
          | some u => simp only [Expr.constant?, h u]
      | std r record => rfl
      | unbound => rfl
  | unary o op x =>
      cases op with
      | not => rw [Expr.constant?, Expr.constant?, constant?_congr h x]
      | neg => rfl
  | _ => rfl

def StillReads (l l' : Ledger) : Prop :=
  ∀ u, (l.usage u).isRead = true → (l'.usage u).isRead = true

/-- A later ledger from which some readers are gone. -/
structure Fades (l l' : Ledger) : Prop where
  truth : SameTruth l l'
  readers : ∀ u x, x ∈ (l'.usage u).readers → x ∈ (l.usage u).readers

section

variable {l₀ l' l'' : Ledger}

theorem Fades.refl (l : Ledger) : Fades l l where
  truth _ := rfl
  readers _ _ hx := hx

theorem Fades.trans (h : Fades l l') (h' : Fades l' l'') : Fades l l'' where
  truth u := (h'.truth u).trans (h.truth u)
  readers u x hx := h.readers u x (h'.readers u x hx)

theorem SameTruth.fades (h : SameTruth l₀ l) (h' : Fades l l') : SameTruth l₀ l' :=
  fun u => (h'.truth u).trans (h u)

theorem Fades.stillReads (h : Fades l l') (hreads : StillReads l₀ l') : StillReads l₀ l := by
  intro u hu
  obtain ⟨x, hx⟩ := Usage.isRead_iff.mp (hreads u hu)
  exact Usage.isRead_iff.mpr ⟨x, h.readers u x hx⟩

end

theorem sameTruth_release (l : Ledger) (r : Read) : SameTruth l (l.release file r) := by
  have hremove : ∀ (l : Ledger) (u : UsageId) (x : Reader), SameTruth l (l.removeReader u x) :=
    fun l u x => Ledger.truth_modifyUsage l u
      (fun usage => { usage with readers := usage.readers.filter (· != x) }) fun _ => rfl
  have hforeign : ∀ (l : Ledger) (f : ForeignId) (x : Reader),
      SameTruth l (l.removeForeignReader f x) := by
    intro l f x
    simp only [Ledger.removeForeignReader]
    split
    · exact hremove _ _ _
    · exact fun _ => rfl
  cases husage : r.usage with
  | none =>
      cases hrecord : r.record with
      | none =>
          simp only [Ledger.release, husage, hrecord]
          exact fun _ => rfl
      | some f =>
          simp only [Ledger.release, husage, hrecord]
          exact hforeign _ _ _
  | some u =>
      cases hrecord : r.record with
      | none =>
          simp only [Ledger.release, husage, hrecord]
          exact hremove _ _ _
      | some f =>
          simp only [Ledger.release, husage, hrecord]
          exact fun v => (hforeign _ _ _ v).trans (hremove _ _ _ v)

theorem fades_release (l : Ledger) (r : Read) : Fades l (l.release file r) where
  truth := sameTruth_release l r
  readers u x hx := by
    rw [Ledger.readers_release] at hx
    split at hx
    · exact List.mem_of_mem_filter hx
    · exact hx

theorem Released.fades {l' : Ledger} (h : Released file l l') : Fades l l' := by
  obtain ⟨dropped, rfl⟩ := h
  induction dropped generalizing l with
  | nil => exact Fades.refl l
  | cons r rest ih => exact (fades_release l r).trans ih

theorem fades_releaseAll (l : Ledger) (nodes : List Node) :
    Fades l (l.releaseAll file nodes) :=
  (released_releaseAll l nodes).fades

theorem Pass.fades (h : Pass file ss k ss' k') : Fades k.ledger k'.ledger := h.released.fades

theorem isDead_of_stillReads {l' : Ledger} {usage : Option UsageId} (h : StillReads l l')
    (hdead : isDead l' usage = true) : isDead l usage = true := by
  cases usage with
  | none => cases hdead
  | some u =>
      simp only [isDead, Option.any_some, Bool.not_eq_true'] at hdead ⊢
      by_contra hread
      rw [h u (by simpa using hread)] at hdead
      cases hdead

/-- What a pass removes is condemned by every ledger whose reads it leaves. -/
theorem Pass.residue (h : Pass file ss k ss' k') (htruth : SameTruth l k.ledger)
    (hreads : StillReads l k'.ledger) : residueOfAll l ss' = residueOfAll l ss := by
  induction h with
  | nil => rfl
  | cons head tail ihead itail =>
      have hmiddle := tail.fades.stillReads hreads
      have htruth' := htruth.fades head.fades
      rw [residueOfAll_append, ihead htruth hmiddle, itail htruth' hreads, residueOfAll_singleton,
        residueOfAll_cons]
  | keep => rfl
  -- What is dead at one moment is dead at the end, and so it is in the given ledger.
  | dropLet dead pure =>
      have hdead := isDead_of_stillReads ((fades_releaseAll _ _).stillReads hreads) dead
      simp [Pruning.residue, hdead, pure]
  | dropAssign dead pure =>
      have hdead := isDead_of_stillReads ((fades_releaseAll _ _).stillReads hreads) dead
      simp [Pruning.residue, hdead, pure]
  | reduceAssign dead effect =>
      have hdead := isDead_of_stillReads hreads dead
      simp [Pruning.residue, hdead, effect]
  | dropFn dead =>
      have hdead := isDead_of_stillReads ((fades_releaseAll _ _).stillReads hreads) dead
      simp [Pruning.residue, hdead]
  | fn live inner ih => simp [Pruning.residue, ih htruth hreads]
  | block inner ih => simp [Pruning.residue, ih htruth hreads]
  | ifTrue constant inner ih =>
      rw [constant?_congr htruth] at constant
      simp [Pruning.residue, constant, ih (htruth.fades (fades_releaseAll _ _)) hreads]
  | ifFalse constant inner ih =>
      rw [constant?_congr htruth] at constant
      simp [Pruning.residue, constant, ih (htruth.fades (fades_releaseAll _ _)) hreads,
        toList_residueOfElse]
  | ifKeep open_ first second ifirst isecond =>
      have hmiddle := second.fades.stillReads hreads
      have htruth' := htruth.fades first.fades
      rw [constant?_congr htruth] at open_
      simp [Pruning.residue, open_, ifirst htruth hmiddle,
        residueOfElse_congr (isecond htruth' hreads)]

/-- Every binding that is read in a ledger has one of some readers in another. -/
def Guards (kept : Reader → Prop) (l l' : Ledger) : Prop :=
  ∀ u, (l.usage u).isRead = true → ∃ x, kept x ∧ x ∈ (l'.usage u).readers

variable {kept : Reader → Prop}

theorem Guards.stillReads {l' : Ledger} (h : Guards kept l l') : StillReads l l' := by
  intro u hu
  obtain ⟨x, -, hx⟩ := h u hu
  exact Usage.isRead_iff.mpr ⟨x, hx⟩

theorem Guards.release {l' : Ledger} (h : Guards kept l l') {r : Read}
    (hr : ¬kept ⟨file, r.offset⟩) : Guards kept l (l'.release file r) := by
  intro u hu
  obtain ⟨x, hkept, hx⟩ := h u hu
  refine ⟨x, hkept, ?_⟩
  rw [Ledger.readers_release]
  split
  · refine List.mem_filter.mpr ⟨hx, ?_⟩
    rw [bne_iff_ne]
    rintro rfl
    exact hr hkept
  · exact hx

theorem Guards.releaseAll {l' : Ledger} (h : Guards kept l l') {nodes : List Node}
    (hnodes : ∀ r ∈ nodes.filterMap Node.read?, ¬kept ⟨file, r.offset⟩) :
    Guards kept l (l'.releaseAll file nodes) := by
  unfold Ledger.releaseAll
  revert hnodes
  induction nodes.filterMap Node.read? generalizing l' with
  | nil => exact fun _ => h
  | cons r rest ih =>
      intro hnodes
      obtain ⟨hr, hrest⟩ := List.forall_mem_cons.mp hnodes
      exact ih (h.release hr) hrest

theorem filterMap_exprNodes (x : Expr) :
    (exprNodes x).filterMap Node.read? = x.nodes.filterMap Expr.read? := by
  simp [exprNodes, List.filterMap_map, Function.comp_def, Node.read?]

/-- A pass over statements that shed no kept reader leaves all kept readers. -/
theorem Pass.guards (h : Pass file ss k ss' k') (htruth : SameTruth l k.ledger)
    (hguards : Guards kept l k.ledger) (hshed : ∀ r ∈ shedOfAll l ss, ¬kept ⟨file, r.offset⟩) :
    Guards kept l k'.ledger := by
  induction h with
  | nil => exact hguards
  | cons head tail ihead itail =>
      have htruth' := htruth.fades head.fades
      rw [shedOfAll_cons, List.forall_mem_append] at hshed
      exact itail htruth' (ihead htruth hguards (by simpa using hshed.1)) hshed.2
  | keep => exact hguards
  | dropLet dead pure =>
      have hdead := isDead_of_stillReads hguards.stillReads dead
      apply hguards.releaseAll
      rw [filterMap_exprNodes]
      simpa [shed, hdead, pure] using hshed
  | dropAssign dead pure =>
      have hdead := isDead_of_stillReads hguards.stillReads dead
      apply hguards.releaseAll
      rw [filterMap_exprNodes]
      simpa [shed, hdead, pure] using hshed
  | reduceAssign => exact hguards
  | dropFn dead =>
      have hdead := isDead_of_stillReads hguards.stillReads dead
      rw [shedOfAll_singleton, shed, if_pos hdead] at hshed
      exact hguards.releaseAll hshed
  | @fn o n s ps bo body body' u k k' live inner ih =>
      apply ih htruth hguards
      rw [shedOfAll_singleton, shed] at hshed
      split at hshed
      -- The ledger condemns the function, so its body sheds all its reads.
      · exact fun r hr => hshed r (shedOfAll_subset body hr)
      · exact hshed
  | block inner ih => exact ih htruth hguards (by simpa [shed] using hshed)
  | ifTrue constant inner ih =>
      rw [constant?_congr htruth] at constant
      rw [shedOfAll_singleton, shed, constant, List.forall_mem_append] at hshed
      refine ih (htruth.fades (fades_releaseAll _ _)) (hguards.releaseAll ?_) hshed.2
      rw [List.filterMap_append, filterMap_exprNodes]
      exact hshed.1
  | ifFalse constant inner ih =>
      rw [constant?_congr htruth] at constant
      rw [shedOfAll_singleton, shed, constant, List.forall_mem_append, shedOfElse_eq] at hshed
      refine ih (htruth.fades (fades_releaseAll _ _)) (hguards.releaseAll ?_) hshed.2
      rw [List.filterMap_append, filterMap_exprNodes]
      exact hshed.1
  | ifKeep open_ first second ifirst isecond =>
      have htruth' := htruth.fades first.fades
      rw [constant?_congr htruth] at open_
      rw [shedOfAll_singleton, shed, open_, List.forall_mem_append, shedOfElse_eq] at hshed
      exact isecond htruth' (ifirst htruth hguards hshed.1) hshed.2

end Pruning

end Splice

import Splice.Proofs.Build.Settling
import Splice.Proofs.Tree.Residue

/-!
# Dead code removal in any order

A removal is a run of passes, each over all trees in an order of its own, up to the
first pass that removes nothing.  All removals of a linked program end with the same
trees (`Program.removal_order_independent`).

Take two of them and the ledger that the first one ends with.  Its reads are those of
the trees that are left, so under this ledger the first program leaves just those
trees as its residue, and every binding that the ledger lists as read has a reader in
the residue.  No pass of the second removal gives up such a reader, hence none removes
anything else than the ledger condemns, and the second removal ends with the same
residue.  By the same argument with the roles exchanged there is nothing in its trees
that the first ledger condemns: they are their own residue.
-/

namespace Splice

/-- What is left of a tree if a ledger decides everything. -/
def Tree.residue (l : Ledger) (t : Tree) : Tree :=
  { t with statements := Pruning.residueOfAll l t.statements }

namespace Pruning

variable {l l' : Ledger} {ss : List Stmt}

/-- Nothing is condemned by a ledger that knows the same and lists more as read. -/
theorem Settled.mono (h : Settled l ss) (htruth : SameTruth l l') (hreads : StillReads l l') :
    Settled l' ss := by
  have hlive : ∀ usage, isDead l usage = false → isDead l' usage = false := by
    intro usage husage
    by_contra hdead
    rw [isDead_of_stillReads hreads (by simpa using hdead)] at husage
    cases husage
  intro s hs
  have hstays := h s hs
  cases s with
  | let_ o n sym v u =>
      simp only [Stmt.isRemovable, Bool.and_eq_false_iff] at hstays ⊢
      exact hstays.imp_left (hlive u)
  | assign o n sym v u => exact hlive u hstays
  | fn o n sym ps bo body u => exact hlive u hstays
  | if_ o c b t e =>
      rw [Stmt.isRemovable, constant?_congr htruth]
      exact hstays
  | _ => rfl

end Pruning

namespace Program

open Pruning

variable {p q q' : Program} {t : Tree} {trees final final' : List Tree} {l : Ledger}
  {readPattern : PatternReader}

theorem InOrder.perm {live : UsageId → Prop} {visit : List Tree} (h : InOrder p live trees)
    (hperm : visit.Perm trees) : InOrder p live visit where
  wellFormed := h.wellFormed
  accounts := h.accounts.perm (hperm.symm.flatMap_right _)
  places := ((hperm.flatMap_right _).map _).nodup_iff.mpr h.places
  sound t ht := h.sound t (hperm.mem_iff.mp ht)
  rooted n root hroot := by
    obtain ⟨t, ht, howner⟩ := h.rooted n root hroot
    exact ⟨t, hperm.mem_iff.mpr ht, howner⟩
  denotes t ht := h.denotes t (hperm.mem_iff.mp ht)
  tied t ht := h.tied t (hperm.mem_iff.mp ht)

theorem fades_prune (t : Tree) (p : Program) : Fades p.ledger (prune t p).2.ledger := by
  rw [prune_ledger]
  exact (pruning_pass p t).fades

theorem fades_pruneAll (trees : List Tree) (p : Program) :
    Fades p.ledger (pruneAll trees p).2.ledger := by
  induction trees generalizing p with
  | nil => exact Fades.refl _
  | cons t rest ih => exact (fades_prune t p).trans (ih _)

theorem residue_prune (htruth : SameTruth l p.ledger)
    (hreads : StillReads l (prune t p).2.ledger) :
    (prune t p).1.1.residue l = t.residue l := by
  rw [prune_ledger] at hreads
  rw [prune_tree, Tree.residue, Tree.residue, (pruning_pass p t).residue htruth hreads]

theorem residue_pruneAll (htruth : SameTruth l p.ledger)
    (hreads : StillReads l (pruneAll trees p).2.ledger) :
    (pruneAll trees p).1.1.map (Tree.residue l) = trees.map (Tree.residue l) := by
  induction trees generalizing p with
  | nil => rfl
  | cons t rest ih =>
      rw [pruneAll_cons] at hreads ⊢
      have hfirst := (fades_pruneAll rest (prune t p).2).stillReads hreads
      have htruth' := htruth.fades (fades_prune t p)
      rw [List.map_cons, List.map_cons, residue_prune htruth hfirst, ih htruth' hreads]

theorem map_residue_of_settled (h : ∀ t ∈ trees, Settled l t.statements) :
    trees.map (Tree.residue l) = trees := by
  refine (List.map_congr_left ?_).trans (List.map_id trees)
  intro t ht
  rw [Tree.residue, residueOfAll_of_settled _ (h t ht)]
  rfl

/-- The places of the reads that residues keep. -/
def KeptAt (l : Ledger) (trees : List Tree) (x : Reader) : Prop :=
  x ∈ (placedReads (trees.map (Tree.residue l))).map PlacedRead.reader

theorem keptAt_perm {visit : List Tree} (h : visit.Perm trees) :
    KeptAt l visit = KeptAt l trees := by
  funext x
  exact propext (((h.map _).flatMap_right _).map _).mem_iff

def placedShed (l : Ledger) (trees : List Tree) : List PlacedRead :=
  trees.flatMap fun t => (shedOfAll l t.statements).map (PlacedRead.mk t.owner)

theorem placedReads_perm_residue (l : Ledger) (trees : List Tree) :
    (placedReads trees).Perm
      (placedReads (trees.map (Tree.residue l)) ++ placedShed l trees) := by
  induction trees with
  | nil => exact List.Perm.refl _
  | cons t rest ih =>
      have hfirst := (readsOfAll_perm (l := l) t.statements).map (PlacedRead.mk t.owner)
      rw [List.map_append] at hfirst
      have hboth := hfirst.append ih
      refine hboth.trans ?_
      rw [List.append_assoc, List.map_cons]
      simp only [placedReads, placedShed, List.flatMap_cons, List.append_assoc]
      refine List.Perm.append_left _ ?_
      rw [← List.append_assoc, ← List.append_assoc]
      exact List.perm_append_comm.append_right _

/-- No kept reader is shed: all reads of the trees have places of their own. -/
theorem InOrder.not_keptAt {live : UsageId → Prop} (h : InOrder p live trees) (ht : t ∈ trees) :
    ∀ r ∈ shedOfAll l t.statements, ¬KeptAt l trees ⟨t.owner, r.offset⟩ := by
  intro r hr hkept
  have hplaces := (((placedReads_perm_residue l trees).map PlacedRead.reader).nodup_iff.mp
    h.places)
  rw [List.map_append] at hplaces
  refine List.disjoint_of_nodup_append hplaces hkept ?_
  exact List.mem_map.mpr ⟨⟨t.owner, r⟩,
    List.mem_flatMap.mpr ⟨t, ht, List.mem_map.mpr ⟨r, hr, rfl⟩⟩, rfl⟩

theorem guards_prune {before after : List Tree}
    (h : InOrder p p.IsRead (before ++ t :: after)) (htruth : SameTruth l p.ledger)
    (hguards : Guards (KeptAt l (before ++ t :: after)) l p.ledger) :
    Guards (KeptAt l (before ++ (prune t p).1.1 :: after)) l (prune t p).2.ledger := by
  have hleft : Guards (KeptAt l (before ++ t :: after)) l (prune t p).2.ledger := by
    rw [prune_ledger]
    exact (pruning_pass p t).guards htruth hguards (h.not_keptAt (by simp))
  have hsame : KeptAt l (before ++ (prune t p).1.1 :: after) =
      KeptAt l (before ++ t :: after) := by
    unfold KeptAt
    rw [List.map_append, List.map_append, List.map_cons, List.map_cons,
      residue_prune htruth hleft.stillReads]
  rw [hsame]
  exact hleft

theorem guards_pruneAll {before rest : List Tree} (h : InOrder p p.IsRead (before ++ rest))
    (htruth : SameTruth l p.ledger) (hguards : Guards (KeptAt l (before ++ rest)) l p.ledger) :
    Guards (KeptAt l (before ++ (pruneAll rest p).1.1)) l (pruneAll rest p).2.ledger := by
  induction rest generalizing p before with
  | nil => exact hguards
  | cons t rest ih =>
      have hfirst := guards_prune h htruth hguards
      have horder := h.prune
      rw [List.append_cons] at hfirst horder
      have htruth' := htruth.fades (fades_prune t p)
      have hrest := ih horder htruth' hfirst
      rw [pruneAll_cons]
      simpa using hrest

/-! ## Removals -/

/-- A run of passes, each over all trees in some order, up to the first that removes
nothing. -/
inductive Removal : List Tree → Program → List Tree → Program → Prop
  | last {trees visit p} (order : visit.Perm trees)
      (unchanged : (pruneAll visit p).1.2 = false) :
      Removal trees p (pruneAll visit p).1.1 (pruneAll visit p).2
  | pass {trees visit p final q} (order : visit.Perm trees)
      (changed : (pruneAll visit p).1.2 = true)
      (later : Removal (pruneAll visit p).1.1 (pruneAll visit p).2 final q) :
      Removal trees p final q

theorem Removal.fades (h : Removal trees p final q) : Fades p.ledger q.ledger := by
  induction h with
  | last => exact fades_pruneAll _ _
  | pass _ _ _ ih => exact (fades_pruneAll _ _).trans ih

theorem InOrder.pass {visit : List Tree} (h : InOrder p p.IsRead trees)
    (hperm : visit.Perm trees) :
    InOrder (Program.pruneAll visit p).2 (Program.pruneAll visit p).2.IsRead
      (Program.pruneAll visit p).1.1 := by
  have hvisit : InOrder p p.IsRead ([] ++ visit) := h.perm hperm
  exact hvisit.pruneAll

theorem Removal.inOrder (h : Removal trees p final q) (horder : InOrder p p.IsRead trees) :
    InOrder q q.IsRead final := by
  induction h with
  | last order => exact horder.pass order
  | pass order _ _ ih => exact ih (horder.pass order)

theorem Removal.settled (h : Removal trees p final q) :
    ∀ t ∈ final, Settled q.ledger t.statements := by
  induction h with
  | last _ unchanged =>
      obtain ⟨htrees, hledger, hsettled⟩ := pruneAll_unchanged unchanged
      rw [htrees, hledger]
      exact hsettled
  | pass _ _ _ ih => exact ih

theorem map_owner_pruneAll (trees : List Tree) (p : Program) :
    (pruneAll trees p).1.1.map Tree.owner = trees.map Tree.owner := by
  induction trees generalizing p with
  | nil => rfl
  | cons t rest ih =>
      rw [pruneAll_cons, List.map_cons, List.map_cons, ih]
      rfl

theorem Removal.owners (h : Removal trees p final q) :
    (final.map Tree.owner).Perm (trees.map Tree.owner) := by
  induction h with
  | last order =>
      rw [map_owner_pruneAll]
      exact order.map _
  | pass order _ _ ih =>
      rw [map_owner_pruneAll] at ih
      exact ih.trans (order.map _)

/-- A removal keeps the residue under a ledger whose reads it leaves. -/
theorem Removal.residue (h : Removal trees p final q) (htruth : SameTruth l p.ledger)
    (hreads : StillReads l q.ledger) :
    (final.map (Tree.residue l)).Perm (trees.map (Tree.residue l)) := by
  induction h with
  | last order =>
      rw [residue_pruneAll htruth hreads]
      exact order.map _
  | pass order _ later ih =>
      have hlater := ih (htruth.fades (fades_pruneAll _ _)) hreads
      rw [residue_pruneAll htruth (later.fades.stillReads hreads)] at hlater
      exact hlater.trans (order.map _)

theorem InOrder.guards_pass {visit : List Tree} (h : InOrder p p.IsRead trees)
    (hperm : visit.Perm trees) (htruth : SameTruth l p.ledger)
    (hguards : Guards (KeptAt l trees) l p.ledger) :
    Guards (KeptAt l (Program.pruneAll visit p).1.1) l (Program.pruneAll visit p).2.ledger := by
  have hvisit : InOrder p p.IsRead ([] ++ visit) := h.perm hperm
  rw [← keptAt_perm hperm] at hguards
  exact guards_pruneAll hvisit htruth hguards

/-- A removal leaves all bindings read that have a kept reader. -/
theorem Removal.stillReads (h : Removal trees p final q) (horder : InOrder p p.IsRead trees)
    (htruth : SameTruth l p.ledger) (hguards : Guards (KeptAt l trees) l p.ledger) :
    StillReads l q.ledger := by
  induction h with
  | last order => exact (horder.guards_pass order htruth hguards).stillReads
  | pass order _ _ ih =>
      exact ih (horder.pass order) (htruth.fades (fades_pruneAll _ _))
        (horder.guards_pass order htruth hguards)

/-- Under the ledger that a removal ends with, the trees that are left are the residue
of those it started with. -/
theorem Removal.perm_residue (h : Removal trees p final q) :
    final.Perm (trees.map (Tree.residue q.ledger)) := by
  have hresidue := h.residue (l := q.ledger) (fun u => (h.fades.truth u).symm) fun _ hu => hu
  rw [map_residue_of_settled h.settled] at hresidue
  exact hresidue

theorem Removal.guards (h : Removal trees p final q) (horder : InOrder p p.IsRead trees) :
    Guards (KeptAt q.ledger trees) q.ledger p.ledger := by
  intro u hu
  obtain ⟨x, hx⟩ := Usage.isRead_iff.mp hu
  refine ⟨x, ?_, h.fades.readers u x hx⟩
  have haccounts := (h.inOrder horder).accounts
  rw [(haccounts.usage u).mem_iff, Ledger.readersOf, List.mem_map] at hx
  obtain ⟨e, he, rfl⟩ := hx
  have hplaced : e ∈ placedReads final := List.mem_of_mem_filter he
  exact List.mem_map_of_mem ((h.perm_residue.flatMap_right _).mem_iff.mp hplaced)

/-- Two removals of a program in order end with the same trees. -/
theorem Removal.perm (h : Removal trees p final q) (h' : Removal trees p final' q')
    (horder : InOrder p p.IsRead trees) : final.Perm final' := by
  have htruth : SameTruth q.ledger p.ledger := fun u => (h.fades.truth u).symm
  have htruth' : SameTruth q'.ledger p.ledger := fun u => (h'.fades.truth u).symm
  -- Each removal leaves all reads that the other one ends with.
  have hreads := h'.stillReads horder htruth (h.guards horder)
  have hreads' := h.stillReads horder htruth' (h'.guards horder)
  have hsettled : ∀ t ∈ final', Settled q.ledger t.statements := by
    intro t ht
    exact (h'.settled t ht).mono (htruth'.fades h.fades) hreads'
  have hresidue := h'.residue htruth hreads
  rw [map_residue_of_settled hsettled] at hresidue
  exact h.perm_residue.trans hresidue.symm

theorem yields_analysePhases_owners {d : Discovery} {q : Program} (hq : Discovers q d)
    (table : Array Symbol) :
    Yields (analysePhases d) (q.withSymbols table) fun trees _ =>
      (trees.map Tree.owner).Nodup := by
  refine (yields_analysePhases hq table).mono ?_
  rintro trees _ ⟨-, -, howners⟩
  rw [howners]
  exact hq.order

/-- In every build that passes the link phase, all removals of dead code end with the
same tree for each namespace, whatever orders their passes take. -/
theorem removal_order_independent (loader : Loader) (workingDir : Text) (cancelled : Bool)
    (o : BuildOptions) (entry : Text) {p₀ p q q' : Program} {symbols : List MangleEntry}
    {trees final final' : List Tree} (hcreate : create workingDir o.retain readPattern = .ok p₀)
    (hlink : linkPhases loader cancelled o entry p₀ = .ok (symbols, trees) p)
    (h : Removal trees p final q) (h' : Removal trees p final' q') :
    final.Perm final' ∧ (final.map Tree.owner).Perm (trees.map Tree.owner) ∧
      ∀ t ∈ final, ∀ t' ∈ final', t.owner = t'.owner → t = t' := by
  obtain ⟨hpristine, huntargeted⟩ := pristine_create hcreate
  obtain ⟨horder, -⟩ :=
    yields_linkPhases loader cancelled o entry hpristine huntargeted _ _ hlink
  have hperm := h.perm h' (horder.mono fun _ _ => trivial)
  have howners := yields_linkPhases_of loader cancelled o entry hpristine huntargeted
    (fun _ _ table hdiscovers => yields_analysePhases_owners hdiscovers table) _ _ hlink
  have hnodup := h.owners.nodup_iff.mpr howners
  refine ⟨hperm, h.owners, ?_⟩
  intro t ht t' ht' howner
  exact List.inj_on_of_nodup_map hnodup ht (hperm.mem_iff.mpr ht') howner

/-- Passes that visit the trees in an order of their own, until one removes nothing or
the limit is reached. -/
def removeBy (order : List Tree → List Tree) :
    (limit : Nat) → List Tree → Program → List Tree × Program
  | 0, trees, p => (trees, p)
  | limit + 1, trees, p =>
      let pass := pruneAll (order trees) p
      if pass.1.2 then removeBy order limit pass.1.1 pass.2 else (pass.1.1, pass.2)

/-- With a limit above the number of candidates, passes in any order make a removal. -/
theorem removal_removeBy (order : List Tree → List Tree)
    (horder : ∀ trees, (order trees).Perm trees) {limit : Nat}
    (h : candidates trees < limit) :
    Removal trees p (removeBy order limit trees p).1 (removeBy order limit trees p).2 := by
  induction limit generalizing trees p with
  | zero => omega
  | succ limit ih =>
      have hle := candidates_pruneAll_le (order trees) p
      have hcount : candidates (order trees) = candidates trees :=
        ((horder trees).flatMap_right _).countP_eq _
      simp only [removeBy]
      cases hchanged : (pruneAll (order trees) p).1.2 with
      | false =>
          simp only [Bool.false_eq_true, if_false]
          exact .last (horder trees) hchanged
      | true =>
          rw [hchanged, Bool.toNat_true] at hle
          simp only [if_true]
          exact .pass (horder trees) hchanged (ih (by omega))

/-- The passes of a build visit the trees as they come. -/
theorem removeBy_id (limit : Nat) (trees : List Tree) (p : Program) :
    removeBy id limit trees p =
      ((prunePasses limit trees p).1.1, (prunePasses limit trees p).2) := by
  induction limit generalizing trees p with
  | zero => rfl
  | succ limit ih =>
      rw [prunePasses_succ]
      simp only [removeBy, id_eq]
      split
      · exact ih _ _
      · rfl

set_option maxRecDepth 100000 in
theorem removal_order_sample :
    ∃ p₀ p symbols trees, create "/" [] = .ok p₀ ∧
      linkPhases (.ofSources chainedSources) false { stdPath := "/s.wv" } "/m.wv" p₀ =
        .ok (symbols, trees) p ∧
      Removal trees p (removeBy id 8 trees p).1 (removeBy id 8 trees p).2 ∧
      Removal trees p (removeBy List.reverse 8 trees p).1
        (removeBy List.reverse 8 trees p).2 ∧
      (prunePasses 8 trees p).1.1.Perm (removeBy List.reverse 8 trees p).1 := by
  have hcreate := create_nil "/" Glob.reader
  have hruns : linksBelow 8 (linkPhases (.ofSources chainedSources) false
      { stdPath := "/s.wv" } "/m.wv" { workingDir := "/" }) = true := by
    decide +kernel
  cases hlink : linkPhases (.ofSources chainedSources) false { stdPath := "/s.wv" } "/m.wv"
      { workingDir := "/" } with
  | error e p =>
      rw [hlink] at hruns
      cases hruns
  | ok result p =>
      rw [hlink] at hruns
      have hlimit : candidates result.2 < 8 := of_decide_eq_true hruns
      have hforward : Removal result.2 p _ _ :=
        removal_removeBy id (fun _ => List.Perm.refl _) hlimit
      have hbackward : Removal result.2 p _ _ :=
        removal_removeBy List.reverse List.reverse_perm hlimit
      have hsame := (removal_order_independent (.ofSources chainedSources) "/" false
        { stdPath := "/s.wv" } "/m.wv" hcreate hlink hforward hbackward).1
      refine ⟨_, p, result.1, result.2, hcreate, hlink, hforward, hbackward, ?_⟩
      rw [removeBy_id] at hsame
      exact hsame

end Program

end Splice

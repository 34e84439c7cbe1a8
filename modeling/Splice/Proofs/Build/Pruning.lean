import Splice.Proofs.Build.Linking

/-!
# Passes over linked programs

A program that has been linked is in order (`Program.InOrder`): the ledger accounts
for the reads of all trees, every tree is sound, and every reference and record of a
foreign name is settled.  A pass of dead code removal works on one tree after
another, and each of them keeps the program in order, with those bindings live that
are still read.  So the program is in order after any number of passes.
-/

namespace Splice

variable {l : Ledger} {file : NamespaceId}

namespace Ledger

theorem WellFormed.removeForeignReader (h : l.WellFormed) (f : ForeignId) (r : Reader) :
    (l.removeForeignReader f r).WellFormed := by
  have hmodify := h.modifyForeign f
    (fun usage => { usage with readers := usage.readers.filter (· != r) })
    fun _ _ hx => Or.inl hx
  simp only [Ledger.removeForeignReader]
  split
  · exact hmodify.modifyUsage _ _
  · exact hmodify

theorem extends_removeForeignReader (l : Ledger) (f : ForeignId) (r : Reader) :
    l.Extends (l.removeForeignReader f r) := by
  have hmodify := extends_modifyForeign l f
    (fun usage => { usage with readers := usage.readers.filter (· != r) }) fun _ => ⟨rfl, rfl⟩
  simp only [Ledger.removeForeignReader]
  split
  · exact hmodify.trans (extends_modifyUsage _ _ _ fun _ => rfl)
  · exact hmodify

theorem scopes_removeForeignReader (l : Ledger) (f : ForeignId) (r : Reader) :
    (l.removeForeignReader f r).scopes = l.scopes := by
  simp only [Ledger.removeForeignReader]
  split <;> rfl

/-- Taking reads off a ledger changes nothing but lists of readers. -/
structure Thins (l l' : Ledger) : Prop where
  wellFormed : l'.WellFormed
  extend : l.Extends l'
  scopes : l'.scopes = l.scopes
  resolved : ∀ f, (l'.foreignUsage f).resolved = (l.foreignUsage f).resolved
  isEnum : ∀ f, (l'.foreignUsage f).isEnum = (l.foreignUsage f).isEnum

theorem thins_release (h : l.WellFormed) (r : Read) : l.Thins (l.release file r) := by
  have hforeign := foreignUsage_release l file r
  have hwf : (l.release file r).WellFormed ∧ l.Extends (l.release file r) ∧
      (l.release file r).scopes = l.scopes := by
    cases husage : r.usage with
    | none =>
        cases hrecord : r.record with
        | none =>
            simp only [release, husage, hrecord]
            exact ⟨h, Extends.refl l, trivial⟩
        | some f =>
            simp only [release, husage, hrecord]
            exact ⟨h.removeForeignReader f _, extends_removeForeignReader l f _,
              scopes_removeForeignReader l f _⟩
    | some u =>
        have hext : l.Extends (l.removeReader u ⟨file, r.offset⟩) :=
          extends_modifyUsage l u _ fun _ => rfl
        have hremoved : (l.removeReader u ⟨file, r.offset⟩).WellFormed := h.modifyUsage u _
        cases hrecord : r.record with
        | none =>
            simp only [release, husage, hrecord]
            exact ⟨hremoved, hext, rfl⟩
        | some f =>
            simp only [release, husage, hrecord]
            exact ⟨hremoved.removeForeignReader f _,
              hext.trans (extends_removeForeignReader _ f _),
              (scopes_removeForeignReader _ f _).trans rfl⟩
  refine ⟨hwf.1, hwf.2.1, hwf.2.2, ?_, ?_⟩
  · intro f
    rw [hforeign]
    split <;> rfl
  · intro f
    rw [hforeign]
    split <;> rfl

theorem thins_foldl_release (h : l.WellFormed) (dropped : List Read) :
    l.Thins (dropped.foldl (release file) l) := by
  induction dropped generalizing l with
  | nil => exact ⟨h, Extends.refl l, rfl, fun _ => rfl, fun _ => rfl⟩
  | cons r rest ih =>
      have hfirst : l.Thins (l.release file r) := thins_release h r
      have hrest := ih hfirst.wellFormed
      exact ⟨hrest.wellFormed, hfirst.extend.trans hrest.extend,
        hrest.scopes.trans hfirst.scopes,
        fun f => (hrest.resolved f).trans (hfirst.resolved f),
        fun f => (hrest.isEnum f).trans (hfirst.isEnum f)⟩

end Ledger

theorem Pruning.Releases.thins {a b : List Read} {l' : Ledger}
    (h : Pruning.Releases file a b l l') (hl : l.WellFormed) : l.Thins l' := by
  obtain ⟨dropped, -, rfl⟩ := h
  exact Ledger.thins_foldl_release hl dropped

namespace Program

variable {p p' : Program} {t : Tree} {trees : List Tree} {live live' : UsageId → Prop}
  {root : ScopeId}

/-! ## Programs in order -/

def IsRead (p : Program) (u : UsageId) : Prop := (p.ledger.usage u).isRead = true

/-- What holds from the end of linking on. -/
structure InOrder (p : Program) (live : UsageId → Prop) (trees : List Tree) : Prop where
  wellFormed : p.ledger.WellFormed
  accounts : p.ledger.Accounts (placedReads trees)
  places : ((placedReads trees).map PlacedRead.reader).Nodup
  sound : ∀ t ∈ trees, ∃ root, Sound p live root t
  rooted : ∀ n root, (p.spaceAt n).root = some root → ∃ t ∈ trees, t.owner = n
  denotes : ∀ t ∈ trees, ∀ r ∈ (p.spaceAt t.owner).references, p.Denotes t.owner r
  tied : ∀ t ∈ trees, ∀ root, (p.spaceAt t.owner).root = some root →
    ∀ s < p.ledger.scopes.size, root ∈ p.ledger.chain s →
      ∀ f ∈ (p.ledger.scope s).foreign, p.Tied t.owner f

theorem Sound.mono (h : Sound p live root t) (hlive : ∀ u, live' u → live u) :
    Sound p live' root t where
  lt := h.lt
  outermost := h.outermost
  rooted := h.rooted
  bound := h.bound.mono rfl (fun _ _ hf => hf) hlive
  supported := h.supported.mono rfl hlive
  valid := h.valid

theorem InOrder.mono (h : InOrder p live trees) (hlive : ∀ u, live' u → live u) :
    InOrder p live' trees where
  wellFormed := h.wellFormed
  accounts := h.accounts
  places := h.places
  sound t ht := by
    obtain ⟨root, hsound⟩ := h.sound t ht
    exact ⟨root, hsound.mono hlive⟩
  rooted := h.rooted
  denotes := h.denotes
  tied := h.tied

/-- Linking all namespaces puts a program in order. -/
theorem Linkable.inOrder (h : Linkable p trees) (hlinked : ∀ t ∈ trees, p.Linked t.owner)
    (hplaces : ((placedReads trees).map PlacedRead.reader).Nodup) :
    InOrder p Check.always trees where
  wellFormed := h.wellFormed
  accounts := h.accounts
  places := hplaces
  sound := h.sound
  rooted := h.rooted
  denotes t ht r hr := by
    rcases h.references t.owner r hr with hopen | hdenotes
    · exact absurd hopen ((hlinked t ht).references r hr)
    · exact hdenotes
  tied t ht root hroot s hs hchain f hf := by
    rcases h.records t.owner root hroot s hs hchain f hf with hopen | htied
    · exact absurd hopen ((hlinked t ht).records root hroot s hs hchain f hf)
    · exact htied

theorem InOrder.sound_root (h : InOrder p live trees) {n : NamespaceId}
    (hroot : (p.spaceAt n).root = some root) :
    ∃ t ∈ trees, t.owner = n ∧ Sound p live root t :=
  exists_sound_of_root h.sound (h.rooted n root hroot) hroot

theorem InOrder.root_lt (h : InOrder p live trees) {n : NamespaceId}
    (hroot : (p.spaceAt n).root = some root) : root < p.ledger.scopes.size := by
  obtain ⟨t, -, -, hsound⟩ := h.sound_root hroot
  exact hsound.lt

def pruning (p : Program) (t : Tree) : List Stmt × Pruning :=
  Pruning.pruneStmts t.owner t.statements { ledger := p.ledger }

theorem prune_eq (t : Tree) (p : Program) :
    prune t p =
      (({ t with statements := (p.pruning t).1 }, (p.pruning t).2.changed),
        { p with ledger := (p.pruning t).2.ledger }.advanceIfBefore t.owner .pruned) := rfl

theorem prune_tree (t : Tree) (p : Program) :
    (prune t p).1.1 = { t with statements := (p.pruning t).1 } := by
  rw [prune_eq]

theorem prune_ledger (t : Tree) (p : Program) :
    (prune t p).2.ledger = (p.pruning t).2.ledger := by
  rw [prune_eq]
  rfl

theorem pruning_releases (p : Program) (t : Tree) :
    Pruning.Releases t.owner t.reads (Stmt.readsOfAll (p.pruning t).1) p.ledger
      (p.pruning t).2.ledger :=
  Pruning.pruneStmts_releases t.statements { ledger := p.ledger }

theorem settles_prune (hl : p.ledger.WellFormed) (t : Tree) : p.Settles (prune t p).2 := by
  have hthins := (pruning_releases p t).thins hl
  rw [prune_eq]
  have hledger := keeps_ledger (p := p) hthins.wellFormed hthins.extend
  have hkeeps : p.Keeps
      ({ p with ledger := (p.pruning t).2.ledger }.advanceIfBefore t.owner .pruned) := by
    apply hledger.trans
    exact keeps_modifySpace hthins.wellFormed t.owner _ (fun _ => rfl) (fun _ => rfl)
      (fun _ => rfl) (fun _ => rfl) (fun _ => rfl) fun _ hroot => hroot
  constructor
  · exact hkeeps
  · exact hthins.scopes
  · intro n
    exact spaceAt_modifySpace_same _ t.owner n _ Namespace.root fun _ => rfl
  · intro r _
    rfl
  · intro f _
    exact ⟨hthins.resolved f, hthins.isEnum f⟩

theorem isRead_of_prune {u : UsageId} (h : (prune t p).2.IsRead u) : p.IsRead u := by
  rw [IsRead, prune_ledger] at h
  exact (pruning_releases p t).isRead h

theorem Sound.prune (h : Sound p p.IsRead root t) (hl : p.ledger.WellFormed) :
    Sound (prune t p).2 (prune t p).2.IsRead root (prune t p).1.1 := by
  have hsettles := settles_prune hl t
  have hlive : ∀ u, (Program.prune t p).2.IsRead u → p.IsRead u := fun u => isRead_of_prune
  have hread : ∀ u, (Program.prune t p).2.IsRead u →
      ((p.pruning t).2.ledger.usage u).isRead = true := by
    intro u hu
    rw [IsRead, prune_ledger] at hu
    exact hu
  have hpruned : Sound p (Program.prune t p).2.IsRead root (Program.prune t p).1.1 := by
    rw [prune_tree]
    constructor
    · exact h.lt
    · exact h.outermost
    · exact h.rooted
    · exact Pruning.pruneStmts_bound t.statements _ h.bound hlive hread
    · exact Pruning.pruneStmts_supported h.supported hlive hread
    · intro m hm
      exact h.valid m (Pruning.mentions_pruneStmts t.statements _ hm)
  exact hpruned.keeps hl hsettles.toKeeps

theorem placedReads_middle (before after : List Tree) (t : Tree) :
    (placedReads (before ++ t :: after)).Perm
      (t.reads.map (PlacedRead.mk t.owner) ++ placedReads (before ++ after)) := by
  have hcons : placedReads (t :: after) =
      t.reads.map (PlacedRead.mk t.owner) ++ placedReads after := rfl
  rw [placedReads_append, placedReads_append, hcons, ← List.append_assoc, ← List.append_assoc]
  exact List.perm_append_comm.append_right _

theorem InOrder.prune {before after : List Tree}
    (h : InOrder p p.IsRead (before ++ t :: after)) :
    InOrder (prune t p).2 (prune t p).2.IsRead (before ++ (prune t p).1.1 :: after) := by
  have hsettles := settles_prune h.wellFormed t
  have howner : (Program.prune t p).1.1.owner = t.owner := rfl
  have hperm := placedReads_middle before after t
  obtain ⟨haccounts, hplaces⟩ := (pruning_releases p t).accounts (h.accounts.perm hperm)
    ((hperm.map PlacedRead.reader).nodup_iff.mp h.places)
  have hperm' := (placedReads_middle before after (Program.prune t p).1.1).symm
  have hmem : ∀ u ∈ before ++ (Program.prune t p).1.1 :: after,
      ∃ v ∈ before ++ t :: after, u.owner = v.owner := by
    intro u hu
    rw [List.mem_append, List.mem_cons] at hu
    rcases hu with hu | rfl | hu
    · exact ⟨u, by simp [hu], rfl⟩
    · exact ⟨t, by simp, rfl⟩
    · exact ⟨u, by simp [hu], rfl⟩
  constructor
  · exact hsettles.wellFormed
  · rw [prune_ledger]
    exact haccounts.perm hperm'
  · exact (hperm'.map PlacedRead.reader).nodup_iff.mp hplaces
  · intro u hu
    have hkept : ∀ v ∈ before ++ t :: after,
        ∃ root, Sound (Program.prune t p).2 (Program.prune t p).2.IsRead root v := by
      intro v hv
      obtain ⟨root, hsound⟩ := h.sound v hv
      exact ⟨root, (hsound.keeps h.wellFormed hsettles.toKeeps).mono fun _ => isRead_of_prune⟩
    rw [List.mem_append, List.mem_cons] at hu
    rcases hu with hu | rfl | hu
    · exact hkept u (by simp [hu])
    · obtain ⟨root, hsound⟩ := h.sound t (by simp)
      exact ⟨root, hsound.prune h.wellFormed⟩
    · exact hkept u (by simp [hu])
  · intro n root hroot
    rw [hsettles.roots] at hroot
    obtain ⟨u, hu, rfl⟩ := h.rooted n root hroot
    rw [List.mem_append, List.mem_cons] at hu
    rcases hu with hu | rfl | hu
    · exact ⟨u, by simp [hu], rfl⟩
    · exact ⟨_, List.mem_append_right _ (List.mem_cons_self ..), howner⟩
    · exact ⟨u, by simp [hu], rfl⟩
  · intro u hu r hr
    obtain ⟨v, hv, heq⟩ := hmem u hu
    rw [hsettles.spaceReferences, heq] at hr
    rw [heq]
    exact (h.denotes v hv r hr).settles hsettles
  · intro u hu root hroot s hs hchain f hf
    obtain ⟨v, hv, heq⟩ := hmem u hu
    rw [hsettles.roots, heq] at hroot
    rw [hsettles.scopes] at hs
    rw [hsettles.chain] at hchain
    rw [hsettles.scope] at hf
    rw [heq]
    exact (h.tied v hv root hroot s hs hchain f hf).settles hsettles h.wellFormed
      (h.wellFormed.foreign_lt s f hf) fun n root => h.root_lt

theorem pruneAll_cons (t : Tree) (rest : List Tree) (p : Program) :
    pruneAll (t :: rest) p =
      (((prune t p).1.1 :: (pruneAll rest (prune t p).2).1.1,
          (prune t p).1.2 || (pruneAll rest (prune t p).2).1.2),
        (pruneAll rest (prune t p).2).2) := rfl

theorem InOrder.pruneAll {before rest : List Tree} (h : InOrder p p.IsRead (before ++ rest)) :
    InOrder (pruneAll rest p).2 (pruneAll rest p).2.IsRead
      (before ++ (pruneAll rest p).1.1) := by
  induction rest generalizing p before with
  | nil => exact h
  | cons t rest ih =>
      have hfirst := h.prune
      rw [List.append_cons] at hfirst
      have hrest := ih hfirst
      rw [pruneAll_cons]
      simpa using hrest

/-- The trees and the program after some passes, whether or not they remove anything. -/
def afterPasses : Nat → List Tree × Program → List Tree × Program
  | 0, x => x
  | k + 1, x => afterPasses k ((pruneAll x.1 x.2).1.1, (pruneAll x.1 x.2).2)

theorem InOrder.afterPasses (h : InOrder p p.IsRead trees) (k : Nat) :
    InOrder (afterPasses k (trees, p)).2 (afterPasses k (trees, p)).2.IsRead
      (afterPasses k (trees, p)).1 := by
  induction k generalizing p trees with
  | zero => exact h
  | succ k ih =>
      have hpass : InOrder p p.IsRead ([] ++ trees) := h
      exact ih hpass.pruneAll

theorem prunePasses_succ (limit : Nat) (trees : List Tree) (p : Program) :
    prunePasses (limit + 1) trees p =
      let pass := pruneAll trees p
      if pass.1.2 then
        let later := prunePasses limit pass.1.1 pass.2
        ((later.1.1, later.1.2 + 1), later.2)
      else ((pass.1.1, 1), pass.2) := by
  rw [prunePasses]
  cases hpass : Program.pruneAll trees p with
  | mk result p' =>
      obtain ⟨trees', changed⟩ := result
      simp only [bind, StateT.bind, hpass, pure]
      cases changed <;> rfl

/-- Dead code removal takes as many passes as it says. -/
theorem prunePasses_eq (limit : Nat) (trees : List Tree) (p : Program) :
    ((prunePasses limit trees p).1.1, (prunePasses limit trees p).2) =
      afterPasses (prunePasses limit trees p).1.2 (trees, p) := by
  induction limit generalizing trees p with
  | zero => rfl
  | succ limit ih =>
      rw [prunePasses_succ]
      dsimp only
      split
      · exact ih _ _
      · rfl

end Program

end Splice

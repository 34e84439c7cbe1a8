import Splice.Proofs.Build.Order
import Splice.Proofs.Tree.Numbering

/-!
# Invariants of discovery

A discovery opens files, reads the source of a namespace into a tree, and gives a
namespace its place when all of its imports are done.  A law that outlasts each of these
steps (`Program.Lasting`) holds at the end if it held at the start; what is known anyway
when a namespace is read or placed is there to be used.  A law may also speak of all the
moments at which references were bound (`Program.Chronicled`): a discovery can note them on
its way without finding anything else (`Program.fst_discoverNoted`).
-/

namespace Splice.Program

variable {p p' : Program} {n m : NamespaceId} {d d' : Discovery} {loader : Loader} {t : Tree}

/-- Steps that open files and note where aliases lead and how far namespaces have come. -/
inductive Opens : Program → Program → Prop
  | register (p : Program) (unit : SourceUnit) : Opens p (p.register unit).2
  | space (p : Program) (n : NamespaceId) {f : Namespace → Namespace}
      (h : ∀ ns, ∃ stage imports pending, f ns = { ns with stage, imports, pending }) :
      Opens p (p.modifySpace n f)
  | std (p : Program) (n : NamespaceId) : Opens p { p with std := some n }

/-- A namespace whose imports are done, before it is given its place. -/
structure Placeable (p : Program) (d : Discovery) (n : NamespaceId) : Prop where
  discovers : Discovers p d
  ordered : Ordered p d
  seen : n ∈ d.trees.map Tree.owner
  open_ : n ∉ d.order
  targets : ∀ qualifier m, p.importTarget? n qualifier = some m → m ∈ d.trees.map Tree.owner

/-- The library is read before anything else leads to it. -/
def StdSeen (p : Program) (d : Discovery) (n : NamespaceId) : Prop :=
  ∀ m, p.std = some m → m = n ∨ m ∈ d.trees.map Tree.owner

theorem Visits.placeable {before : List PendingImport} {q : Program}
    (h : Visits loader t before d p d' q) (happroaches : Approaches p d t.owner)
    (hseen : t.owner ∉ d.trees.map Tree.owner) (hstd : StdSeen p d t.owner) :
    Placeable q d' t.owner where
  discovers := h.explores.discovers
  ordered := h.ordered
  seen := h.visited
  open_ := h.not_placed (happroaches.not_placed hseen)
  targets qualifier m hm := by
    unfold importTarget? at hm
    split at hm
    · rw [h.std] at hm
      rcases hstd m hm with rfl | hm
      · exact h.visited
      · exact h.seen hm
    · obtain ⟨i, hi, rfl⟩ := Option.map_eq_some_iff.mp hm
      exact h.targets i.2 (List.mem_map_of_mem (List.mem_of_find?_eq_some hi))

/-- The aliases of namespaces that have their places lead where they led. -/
def Steady (p p' : Program) (d : Discovery) : Prop :=
  ∀ n ∈ d.order, ∀ qualifier, p'.importTarget? n qualifier = p.importTarget? n qualifier

theorem steady_of_imports (hstd : p'.std = p.std)
    (himports : ∀ n ∈ d.order, (p'.spaceAt n).imports = (p.spaceAt n).imports) :
    Steady p p' d :=
  fun n hn qualifier => importTarget?_congr hstd (himports n hn) qualifier

theorem steady_register (p : Program) (unit : SourceUnit) (d : Discovery) :
    Steady p (p.register unit).2 d := by
  refine steady_of_imports rfl fun n _ => ?_
  rw [spaceAt_register]
  split
  · next hn => rw [hn, spaceAt_of_size_le le_rfl]
  · rfl

def KeptByOpening (law : Program → Discovery → Prop) : Prop :=
  ∀ ⦃p p' d⦄, Opens p p' → Steady p p' d → law p d → law p' d

namespace KeptByOpening

variable {law : Program → Discovery → Prop}

theorem openAt (h : KeptByOpening law) {location : Text} {opened : NamespaceId × Bool}
    (hopen : openAt (some loader) location p = .ok opened p') (hp : law p d) : law p' d := by
  obtain ⟨-, -, rfl⟩ | ⟨-, text, -, -, rfl⟩ := openAt_cases hopen
  · exact hp
  · exact h (.register p _) (steady_register p _ d) hp

theorem openStd (h : KeptByOpening law) {stdPath : Text}
    (hopen : openStd loader stdPath p = .ok n p') (hp : law p d) : law p' d := by
  obtain ⟨isNew, hopen⟩ | ⟨-, -, rfl⟩ := openStd_cases hopen
  · exact h.openAt hopen hp
  · unfold openUnit
    split
    · exact hp
    · exact h (.register p _) (steady_register p _ d) hp

/-- An alias is set only before its namespace has a place. -/
theorem openImport (h : KeptByOpening law) {i : PendingImport}
    (hopen : openImport loader n i p = .ok m p') (hn : n ∉ d.order) (hp : law p d) :
    law p' d := by
  obtain ⟨opened, q, hopened, -, rfl⟩ := openImport_cases hopen
  refine h (.space q n fun _ => ⟨_, _, _, rfl⟩) ?_ (h.openAt hopened hp)
  refine steady_of_imports rfl fun k hk => ?_
  rw [bindImport, spaceAt_modifySpace, if_neg]
  rintro ⟨rfl, -⟩
  exact hn hk

theorem drainImports (h : KeptByOpening law) (n : NamespaceId) (hp : law p d) :
    law (p.drainImports n).2 d :=
  h (.space p n fun _ => ⟨_, _, _, rfl⟩)
    (steady_of_imports rfl fun k _ =>
      spaceAt_modifySpace_same p n k _ Namespace.imports fun _ => rfl) hp

theorem advance (h : KeptByOpening law) (stage : Stage) (hp : law p d) :
    Yields (advance n stage) p fun _ p' => law p' d := by
  simp only [Program.advance, yields_bind, yields_get]
  split
  · simp
  · simp only [yields_set]
    exact h (.space p n fun _ => ⟨_, _, _, rfl⟩)
      (steady_of_imports rfl fun k _ =>
        spaceAt_modifySpace_same p n k _ Namespace.imports fun _ => rfl) hp

end KeptByOpening

/-! ## Noting moments -/

/-- A moment at which the references of a namespace are bound: the program that is met, and
the trees that were read by then. -/
structure Moment where
  space : NamespaceId
  program : Program
  trees : List Tree

/-- A visit that notes the moments at which references are bound. -/
def visitNoted (loader : Loader) (cancelled : Bool) :
    (fuel : Nat) → NamespaceId → Discovery × List Moment → Linking (Discovery × List Moment)
  | 0, _, _ => throw (.plain "imports are nested too deeply")
  | fuel + 1, n, x => do
      if x.1.isSeen n then return x
      if cancelled then throw (.plain "context canceled")
      let tree ← parse n
      let (pending, p) := (← get).drainImports n
      set p
      let x ← pending.foldlM
        (fun x i => do
          let target ← openImport loader n i
          visitNoted loader cancelled fuel target x)
        ({ x.1 with trees := x.1.trees ++ [tree] }, x.2)
      let met ← get
      (bindReferences n).mapFailure fun e => e.addContext "namespace" (met.spaceAt n).id
      advance n .importsResolved
      return ({ x.1 with order := x.1.order ++ [n] }, x.2 ++ [⟨n, met, x.1.trees⟩])

/-- A discovery that notes the moments at which references are bound. -/
def discoverNoted (depth : Nat) (loader : Loader) (cancelled : Bool) (stdPath entry : Text) :
    Linking (Discovery × List Moment) := do
  let std ← openStd loader stdPath
  modify fun p => { p with std := some std }
  let x ← visitNoted loader cancelled depth std ({}, [])
  let (root, _) ← openAt (some loader) entry
  visitNoted loader cancelled depth root x

theorem fst_foldlM {α β γ : Type} {f : β × γ → α → Linking (β × γ)} {g : β → α → Linking β}
    (h : ∀ x a, Prod.fst <$> f x a = g x.1 a) (as : List α) (x : β × γ) :
    Prod.fst <$> as.foldlM f x = as.foldlM g x.1 := by
  induction as generalizing x with
  | nil => exact map_pure _ _
  | cons a rest ih =>
      rw [List.foldlM_cons, List.foldlM_cons, map_bind, ← h, bind_map_left]
      exact bind_congr fun y => ih y

/-- Noting changes nothing. -/
theorem fst_visitNoted (loader : Loader) (cancelled : Bool) (fuel : Nat) (n : NamespaceId)
    (x : Discovery × List Moment) :
    Prod.fst <$> visitNoted loader cancelled fuel n x = visit loader cancelled fuel n x.1 := by
  induction fuel generalizing n x with
  | zero => rfl
  | succ fuel ih =>
      have hloop : ∀ (pending : List PendingImport) (x : Discovery × List Moment),
          Prod.fst <$> pending.foldlM (fun x i => do
            let target ← Program.openImport loader n i
            visitNoted loader cancelled fuel target x) x =
          pending.foldlM (fun d i => do
            let target ← Program.openImport loader n i
            visit loader cancelled fuel target d) x.1 := by
        refine fst_foldlM fun x i => ?_
        rw [map_bind]
        exact bind_congr fun target => ih target x
      unfold visitNoted visit
      split
      · exact map_pure _ _
      split
      · rfl
      simp only [map_bind, map_pure]
      refine bind_congr fun tree => bind_congr fun p => bind_congr fun _ => ?_
      have hread := hloop (p.drainImports n).1 ({ x.1 with trees := x.1.trees ++ [tree] }, x.2)
      rw [← hread, bind_map_left]

theorem fst_discoverNoted (depth : Nat) (loader : Loader) (cancelled : Bool)
    (stdPath entry : Text) :
    Prod.fst <$> discoverNoted depth loader cancelled stdPath entry =
      discoverWithin depth loader cancelled stdPath entry := by
  simp only [discoverNoted, discoverWithin, map_bind]
  refine bind_congr fun std => bind_congr fun _ => ?_
  rw [← fst_visitNoted loader cancelled depth std ({}, []), bind_map_left]
  exact bind_congr fun x => bind_congr fun root => fst_visitNoted _ _ _ _ _

theorem map_eq_ok {α β : Type} {f : α → β} {action : Linking α} {b : β}
    (h : (f <$> action) p = .ok b p') : ∃ a, action p = .ok a p' ∧ f a = b := by
  rw [map_eq_pure_bind] at h
  obtain ⟨a, q, hrun, hpure⟩ := exists_of_bind_eq_ok h
  cases hpure
  exact ⟨a, hrun, rfl⟩

theorem visit_of_visitNoted {cancelled : Bool} {fuel : Nat} {x y : Discovery × List Moment}
    (h : visitNoted loader cancelled fuel n x p = .ok y p') :
    visit loader cancelled fuel n x.1 p = .ok y.1 p' := by
  rw [← fst_visitNoted, map_eq_pure_bind, bind_eq_of_eq_ok h]
  rfl

theorem exists_discoverNoted {depth : Nat} {cancelled : Bool} {stdPath entry : Text}
    (h : discoverWithin depth loader cancelled stdPath entry p = .ok d p') :
    ∃ ms, discoverNoted depth loader cancelled stdPath entry p = .ok (d, ms) p' := by
  rw [← fst_discoverNoted] at h
  obtain ⟨⟨d, ms⟩, hrun, rfl⟩ := map_eq_ok h
  exact ⟨ms, hrun⟩

/-- A law that every step of discovery keeps, with the moments that were noted. -/
structure Chronicled (law : List Moment → Program → Discovery → Prop) : Prop where
  opens : ∀ {ms}, KeptByOpening (law ms)
  read : ∀ {ms p p' d n t}, Approaches p d n → n ∉ d.trees.map Tree.owner →
    parse n p = .ok t p' → law ms p d → law ms p' { d with trees := d.trees ++ [t] }
  place : ∀ {ms p p' d n}, Placeable p d n → bindReferences n p = .ok () p' → law ms p d →
    law (ms ++ [⟨n, p, d.trees⟩]) p' { d with order := d.order ++ [n] }

namespace Chronicled

variable {law : List Moment → Program → Discovery → Prop} {ms : List Moment}

theorem visit (h : Chronicled law) (cancelled : Bool) (fuel : Nat) (hn : Approaches p d n)
    (hstd : StdSeen p d n) (hp : law ms p d) :
    Yields (visitNoted loader cancelled fuel n (d, ms)) p fun x p' => law x.2 p' x.1 := by
  induction fuel generalizing p n d ms with
  | zero => simp [visitNoted]
  | succ fuel ih =>
      simp only [visitNoted]
      by_cases hseen : d.isSeen n = true
      · rw [if_pos hseen]
        simpa only [yields_pure] using hp
      rw [if_neg hseen]
      by_cases hcancelled : cancelled = true
      · simp [hcancelled]
      rw [if_neg hcancelled]
      rw [isSeen_iff] at hseen
      simp only [yields_bind]
      intro t p₁ hparse
      obtain ⟨rfl, hqualifiers, hstart⟩ := hn.start loader hseen t p₁ hparse
      simp only [yields_get, yields_set, yields_pure]
      have hread := h.opens.drainImports t.owner (h.read hn hseen hparse hp)
      refine (Yields.foldlM_list (fun before x p' =>
        Visits loader t before d p x.1 p' ∧ law x.2 p' x.1) ?_ ⟨hstart, hread⟩).mono ?_
      · rintro before i after hsplit ⟨d₂, ms₂⟩ p₂ ⟨h₂, hp₂⟩
        have hnew := not_mem_of_nodup_split hqualifiers hsplit
        simp only [yields_bind]
        intro m p₃ hopen
        have h₃ := h₂.approaches hn hseen hnew hopen
        have hplace := h₂.not_placed (hn.not_placed hseen)
        have hstd₃ : StdSeen p₃ d₂ m := by
          intro k hk
          rw [std_openImport hopen, h₂.std] at hk
          rcases hstd k hk with rfl | hk
          · exact Or.inr h₂.visited
          · exact Or.inr (h₂.seen hk)
        intro x p₄ hnoted
        have hvisit : Program.visit loader cancelled fuel m d₂ p₃ = .ok x.1 p₄ :=
          visit_of_visitNoted hnoted
        have hexplores := yields_visit loader cancelled fuel h₃.discovers h₃.lt _ _ hvisit
        have htour := yields_visit_tours loader cancelled fuel h₃ _ _ hvisit
        exact ⟨h₂.step hn hseen hnew hopen hexplores htour,
          ih h₃ hstd₃ (h.opens.openImport hopen hplace hp₂) x p₄ hnoted⟩
      · rintro ⟨d₂, ms₂⟩ p₂ ⟨h₂, hp₂⟩
        refine yields_mapFailure ?_
        intro _ p₃ hbind
        exact h.opens.advance _ (h.place (h₂.placeable hn hseen hstd) hbind hp₂)

/-- A law that holds of a program without namespaces holds of what is discovered from it. -/
theorem discover (h : Chronicled law) (depth : Nat) (cancelled : Bool) (stdPath entry : Text)
    (hpristine : p.Pristine) (huntargeted : ∀ n, p.Untargeted n)
    (hblank : ∀ m, (p.spaceAt m).content = ([], [], [])) (hp : law [] p {}) :
    Yields (discoverNoted depth loader cancelled stdPath entry) p fun x p' =>
      law x.2 p' x.1 := by
  simp only [discoverNoted, yields_bind, yields_modify]
  intro std p₁ hopen
  have hstart := approaches_std hpristine huntargeted hblank hopen
  have hp₁ := h.opens (.std p₁ std) (d := {}) (List.forall_mem_nil _) (h.opens.openStd hopen hp)
  have hstd : StdSeen { p₁ with std := some std } {} std := by
    intro m hm
    cases hm
    exact Or.inl rfl
  intro x p₂ hnoted
  have hvisit := visit_of_visitNoted hnoted
  have hexplores := yields_visit loader cancelled _ hstart.discovers hstart.lt _ _ hvisit
  have htour := yields_visit_tours loader cancelled _ hstart _ _ hvisit
  have hp₂ := h.visit cancelled depth hstart hstd hp₁ x p₂ hnoted
  intro opened p₃ hentry
  have hnext := htour.approaches_entry hexplores.discovers hentry
  refine h.visit cancelled depth hnext ?_ (h.opens.openAt hentry hp₂)
  intro m hm
  rw [std_openAt hentry, htour.std] at hm
  cases hm
  exact Or.inr htour.visited

end Chronicled

/-- A law that every step of discovery keeps. -/
structure Lasting (law : Program → Discovery → Prop) : Prop where
  opens : ∀ {p p' d}, Opens p p' → Steady p p' d → law p d → law p' d
  read : ∀ {p p' d n t}, Approaches p d n → n ∉ d.trees.map Tree.owner →
    parse n p = .ok t p' → law p d → law p' { d with trees := d.trees ++ [t] }
  place : ∀ {p p' d n}, Placeable p d n → bindReferences n p = .ok () p' → law p d →
    law p' { d with order := d.order ++ [n] }

namespace Lasting

variable {law : Program → Discovery → Prop}

theorem chronicled (h : Lasting law) : Chronicled fun _ => law where
  opens := h.opens
  read := h.read
  place := h.place

/-- A lasting law that holds of a program without namespaces holds of what is discovered
from it. -/
theorem discover (h : Lasting law) (depth : Nat) (cancelled : Bool) (stdPath entry : Text)
    (hpristine : p.Pristine) (huntargeted : ∀ n, p.Untargeted n)
    (hblank : ∀ m, (p.spaceAt m).content = ([], [], [])) (hp : law p {}) :
    Yields (discoverWithin depth loader cancelled stdPath entry) p fun d p' => law p' d := by
  intro d p' hrun
  obtain ⟨ms, hnoted⟩ := exists_discoverNoted hrun
  exact h.chronicled.discover depth cancelled stdPath entry hpristine huntargeted hblank hp _ p'
    hnoted

end Lasting

/-- What binding does with one reference of a namespace: it leaves one that has a symbol or
names an enum, and gives any other a symbol where its alias leads. -/
inductive BindsOne (n : NamespaceId) (r : ReferenceId) (p : Program) : Program → Prop
  | kept (htarget : (p.reference r).target.isSome = true) : BindsOne n r p p
  | enum {m : NamespaceId} (hm : p.importTarget? n (p.reference r).qualifier = some m)
      (henum : ((p.spaceAt m).enum? (p.reference r).name).isNone = false)
      (htarget : (p.reference r).target = none) : BindsOne n r p p
  | bound {m : NamespaceId} (hm : p.importTarget? n (p.reference r).qualifier = some m)
      (henum : ((p.spaceAt m).enum? (p.reference r).name).isNone = true)
      (htarget : (p.reference r).target = none) :
      BindsOne n r p ((p.addSymbol m (p.reference r).name).2.retarget r
        (p.addSymbol m (p.reference r).name).1)

/-- What holds of the references that are bound, if every step keeps it. -/
theorem yields_bindReferences_of (inv : List ReferenceId → Program → Prop) (hp : p.Pristine)
    (hn : p.Untargeted n) (hstart : inv [] p)
    (hstep : ∀ {before r q q'}, Retargets n p q → r ∈ (q.spaceAt n).references →
      BindsOne n r q q' → inv before q → inv (before ++ [r]) q') :
    Yields (bindReferences n) p fun _ p' => Retargets n p p' ∧ inv (p.spaceAt n).references p' := by
  simp only [bindReferences, yields_bind, yields_get, yields_pure]
  refine Yields.forIn_list (fun before p' => Retargets n p p' ∧ inv before p') ?_
    ⟨⟨Works.refl hp, rfl, rfl, hn.targeted⟩, hstart⟩
  rintro before r after hsplit q ⟨hq, hinv⟩
  have hr : r ∈ (q.spaceAt n).references := by
    rw [hq.ownReferences, hsplit]
    simp
  have hopen : (q.reference r).isResolved = false := by
    rw [Reference.isResolved, hq.pristine.unresolved]
    rfl
  simp only [yields_bind, yields_get, hopen, Bool.not_false, Bool.and_true]
  split
  · next htarget =>
      simp only [yields_bind, yields_get]
      refine (yields_importTarget _).mono ?_
      rintro m q' ⟨rfl, hm⟩
      split
      · next henum =>
          simp only [yields_bind, yields_set, yields_pure, true_and]
          exact ⟨hq.retarget hr hm,
            hstep hq hr (.bound hm henum (Option.isNone_iff_eq_none.mp htarget)) hinv⟩
      · next henum =>
          simp only [yields_pure, true_and]
          exact ⟨hq, hstep hq hr (.enum hm (Bool.eq_false_iff.mpr henum)
            (Option.isNone_iff_eq_none.mp htarget)) hinv⟩
  · next htarget =>
      simp only [yields_pure, true_and]
      exact ⟨hq, hstep hq hr (.kept (Option.isSome_iff_ne_none.mpr
        (mt Option.isNone_iff_eq_none.mpr htarget))) hinv⟩

/-- A law that declarations and the targets of references keep, wherever they stand. -/
structure Durable (law : Program → Prop) : Prop where
  opens : ∀ {p p'}, Opens p p' → law p → law p'
  enactOne : ∀ {p} n declaration, p.Pristine → law p → law (enactOne n p declaration)
  retarget : ∀ {p} r s, law p → law (p.retarget r s)

namespace Durable

variable {law : Program → Prop}

theorem enact (h : Durable law) (n : NamespaceId) (ds : List Declaration) (hp : p.Pristine)
    (hlaw : law p) : law (p.enact n ds) := by
  induction ds generalizing p with
  | nil => exact hlaw
  | cons d rest ih => exact ih (adds_enactOne (n := n) hp d).pristine (h.enactOne n d hp hlaw)

theorem bindReferences (h : Durable law) (hp : p.Pristine) (hn : p.Untargeted n)
    (hlaw : law p) : Yields (bindReferences n) p fun _ p' => law p' := by
  refine (yields_bindReferences_of (fun _ p' => law p') hp hn hlaw ?_).mono fun _ _ h => h.2
  rintro before r q q' hq - hstep hlaw
  cases hstep with
  | kept => exact hlaw
  | enum => exact hlaw
  | @bound m =>
      exact h.retarget r _ (h.enactOne m (.symbol (q.reference r).name) hq.pristine hlaw)

theorem lasting (h : Durable law) : Lasting fun p _ => law p where
  opens hopens _ hlaw := h.opens hopens hlaw
  read hn _ hparse hlaw := by
    obtain ⟨ds, stage, rfl⟩ := (parse_records hn.discovers.pristine hn.lt _ _ hparse).enacts
    exact h.opens (.space _ _ fun _ => ⟨_, _, _, rfl⟩)
      (h.enact _ ds hn.discovers.pristine hlaw)
  place hn hbind hlaw :=
    h.bindReferences hn.discovers.pristine (hn.discovers.untargeted _ hn.open_) hlaw _ _ hbind

end Durable

end Splice.Program

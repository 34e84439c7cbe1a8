import Splice.Program.Link
import Splice.Proofs.Program.Mangling
import Splice.Build.Discovery

/-!
# Runs that differ in the symbols

What symbols are written as matters only when code is generated.  To say so, an action
is run twice, from a program and from the same program with other symbols.  The two
runs are twins if both succeed, with answers in a given relation, or both fail in the
same way, and again their programs differ in the symbols only.  Twins are put together
from twins, one step after another.
-/

namespace Splice.Program

/-- The results of two runs that differ in the symbols only. -/
def Agree {α β : Type} (symbols : Array Symbol) (R : α → β → Prop) :
    EStateM.Result Failure Program α → EStateM.Result Failure Program β → Prop
  | .ok a p, .ok b q => R a b ∧ q = p.withSymbols symbols
  | .error e p, .error e' q => e' = e ∧ q = p.withSymbols symbols
  | _, _ => False

/-- Two actions whose runs differ in the symbols only. -/
def Twin {α β : Type} (symbols : Array Symbol) (R : α → β → Prop) (x : Linking α)
    (y : Linking β) : Prop :=
  ∀ p, Agree symbols R (x p) (y (p.withSymbols symbols))

/-- An action that does not look at symbols. -/
def Blind {α : Type} (symbols : Array Symbol) (x : Linking α) : Prop :=
  Twin symbols Eq x x

/-- An action that goes the same way whatever the symbols are, with answers that may
differ. -/
def Alike {α : Type} (symbols : Array Symbol) (x : Linking α) : Prop :=
  Twin symbols (fun _ _ => True) x x

section

variable {α β γ δ : Type} {symbols : Array Symbol} {R : α → β → Prop} {S : γ → δ → Prop}

theorem Twin.pure {a : α} {b : β} (h : R a b) :
    Twin symbols R (pure a : Linking α) (pure b : Linking β) := by
  intro p
  exact ⟨h, rfl⟩

theorem Twin.throw (e : Failure) :
    Twin symbols R (throw e : Linking α) (throw e : Linking β) := by
  intro p
  exact ⟨rfl, rfl⟩

theorem Twin.bind {x : Linking α} {y : Linking β} {f : α → Linking γ} {g : β → Linking δ}
    (hx : Twin symbols R x y) (hf : ∀ a b, R a b → Twin symbols S (f a) (g b)) :
    Twin symbols S (x >>= f) (y >>= g) := by
  intro p
  have hstep := hx p
  change Agree symbols S (EStateM.bind x f p) (EStateM.bind y g (p.withSymbols symbols))
  unfold EStateM.bind
  cases hxp : x p with
  | ok a q =>
      cases hyp : y (p.withSymbols symbols) with
      | ok b q' =>
          rw [hxp, hyp] at hstep
          obtain ⟨hab, hq⟩ := hstep
          subst hq
          exact hf a b hab q
      | error e q' =>
          rw [hxp, hyp] at hstep
          cases hstep
  | error e q =>
      cases hyp : y (p.withSymbols symbols) with
      | ok b q' =>
          rw [hxp, hyp] at hstep
          cases hstep
      | error e' q' =>
          rw [hxp, hyp] at hstep
          exact hstep

theorem Twin.of_ok {x : Linking α} {y : Linking β} (h : Twin symbols R x y) {p q q' : Program}
    {a : α} {b : β} (hx : x p = .ok a q) (hy : y (p.withSymbols symbols) = .ok b q') :
    R a b ∧ q' = q.withSymbols symbols := by
  have hrun := h p
  rw [hx, hy] at hrun
  exact hrun

/-- After looking at the program both runs go on. -/
theorem Twin.get_bind {f : Program → Linking α} {g : Program → Linking β}
    (h : ∀ p, Twin symbols R (f p) (g (p.withSymbols symbols))) :
    Twin symbols R (get >>= f) (get >>= g) := by
  intro p
  exact h p p

theorem Twin.set {p q : Program} (h : q = p.withSymbols symbols) :
    Twin symbols Eq (set p : Linking PUnit) (set q : Linking PUnit) := by
  intro _
  exact ⟨rfl, h⟩

theorem Twin.modify {f g : Program → Program}
    (h : ∀ p, g (p.withSymbols symbols) = (f p).withSymbols symbols) :
    Twin symbols Eq (modify f : Linking PUnit) (modify g : Linking PUnit) := by
  intro p
  exact ⟨rfl, h p⟩

theorem Twin.ite {c : Prop} [Decidable c] {x x' : Linking α} {y y' : Linking β}
    (hx : Twin symbols R x y) (hx' : Twin symbols R x' y') :
    Twin symbols R (if c then x else x') (if c then y else y') := by
  split
  · exact hx
  · exact hx'

theorem Twin.mapFailure {x : Linking α} {y : Linking β} (h : Twin symbols R x y)
    (f : Failure → Failure) : Twin symbols R (x.mapFailure f) (y.mapFailure f) := by
  intro p
  have hrun := h p
  unfold Linking.mapFailure
  cases hx : x p with
  | ok a q =>
      cases hy : y (p.withSymbols symbols) with
      | ok b q' =>
          rw [hx, hy] at hrun
          exact hrun
      | error e q' =>
          rw [hx, hy] at hrun
          cases hrun
  | error e q =>
      cases hy : y (p.withSymbols symbols) with
      | ok b q' =>
          rw [hx, hy] at hrun
          cases hrun
      | error e' q' =>
          rw [hx, hy] at hrun
          exact ⟨congrArg f hrun.1, hrun.2⟩

theorem Blind.bind {x : Linking α} {f : α → Linking γ} {g : α → Linking δ}
    (hx : Blind symbols x) (hf : ∀ a, Twin symbols S (f a) (g a)) :
    Twin symbols S (x >>= f) (x >>= g) := by
  apply Twin.bind hx
  intro a b hab
  subst hab
  exact hf a

theorem Alike.bind {x : Linking α} {f : α → Linking γ} {g : α → Linking δ}
    (hx : Alike symbols x) (hf : ∀ a b, Twin symbols S (f a) (g b)) :
    Twin symbols S (x >>= f) (x >>= g) :=
  Twin.bind hx fun a b _ => hf a b

theorem blind_forIn {body : α → PUnit → Linking (ForInStep PUnit)}
    (h : ∀ a, Blind symbols (body a ⟨⟩)) (xs : List α) :
    Blind symbols (forIn xs PUnit.unit body) := by
  induction xs with
  | nil => exact Twin.pure rfl
  | cons a rest ih =>
      rw [List.forIn_cons]
      apply Blind.bind (h a)
      intro step
      cases step with
      | done _ => exact Twin.pure rfl
      | yield _ => exact ih

end

section

variable (p : Program) (symbols : Array Symbol) (n : NamespaceId)

@[simp] theorem spaceAt_withSymbols : (p.withSymbols symbols).spaceAt n = p.spaceAt n := rfl

@[simp] theorem reference_withSymbols (r : ReferenceId) :
    (p.withSymbols symbols).reference r = p.reference r := rfl

@[simp] theorem ledger_withSymbols : (p.withSymbols symbols).ledger = p.ledger := rfl

@[simp] theorem std_withSymbols : (p.withSymbols symbols).std = p.std := rfl

@[simp] theorem symbolsOf_withSymbols (name : Text) :
    (p.withSymbols symbols).symbolsOf n name = p.symbolsOf n name := rfl

@[simp] theorem byId?_withSymbols (id : Text) : (p.withSymbols symbols).byId? id = p.byId? id :=
  rfl

@[simp] theorem definedUsage?_withSymbols (root : ScopeId) (name : Text) :
    (p.withSymbols symbols).definedUsage? n root name = p.definedUsage? n root name := rfl

@[simp] theorem unresolvedFailure_withSymbols (target : NamespaceId) (r : Reference)
    (what : Text) :
    (p.withSymbols symbols).unresolvedFailure n target r what =
      p.unresolvedFailure n target r what := rfl

end

/-! ## Linking -/

section

variable {symbols : Array Symbol} (n : NamespaceId)

theorem blind_advance (stage : Stage) : Blind symbols (advance n stage) := by
  unfold advance
  apply Twin.get_bind
  intro p
  simp only [spaceAt_withSymbols]
  apply Twin.ite
  · exact Twin.throw _
  · exact Twin.set rfl

theorem blind_importTarget (qualifier : Text) : Blind symbols (importTarget n qualifier) := by
  unfold importTarget
  apply Twin.get_bind
  intro p
  simp only [spaceAt_withSymbols, std_withSymbols]
  apply Twin.ite
  · cases p.std with
    | some std => exact Twin.pure rfl
    | none => exact Twin.throw _
  · cases (p.spaceAt n).import? qualifier with
    | some target => exact Twin.pure rfl
    | none => exact Twin.throw _

theorem blind_linkTarget (qualifier : Text) : Blind symbols (linkTarget n qualifier) := by
  unfold linkTarget
  apply Blind.bind (blind_importTarget n qualifier)
  intro target
  apply Twin.get_bind
  intro p
  simp only [spaceAt_withSymbols]
  cases (p.spaceAt target).root with
  | some root => exact Twin.pure rfl
  | none => exact Twin.throw _

theorem blind_settle (r : ReferenceId) (resolution : Resolution) :
    Blind symbols (settle r resolution) := by
  unfold settle
  apply Twin.get_bind
  intro p
  simp only [reference_withSymbols]
  cases (p.reference r).resolve resolution with
  | ok settled => exact Twin.set rfl
  | error message => exact Twin.throw _

theorem blind_resolveReference (r : ReferenceId) : Blind symbols (resolveReference n r) := by
  unfold resolveReference
  apply Twin.get_bind
  intro p
  simp only [reference_withSymbols]
  apply Blind.bind (blind_linkTarget n _)
  intro target
  apply Twin.get_bind
  intro p'
  simp only [spaceAt_withSymbols, definedUsage?_withSymbols, symbolsOf_withSymbols,
    unresolvedFailure_withSymbols]
  cases (p'.spaceAt target.1).enum? (p.reference r).name with
  | some enum =>
      apply Twin.ite
      · exact Twin.throw _
      · cases enum.entry? (p.reference r).member with
        | none => exact Twin.throw _
        | some entry => exact blind_settle r _
  | none =>
      dsimp only
      cases p'.definedUsage? target.1 target.2 (p.reference r).name with
      | none => exact Twin.throw _
      | some u =>
          dsimp only
          cases (p.reference r).target.or (p'.symbolsOf target.1 (p.reference r).name).head? with
          | some s => exact blind_settle r _
          | none => exact Twin.throw _

theorem blind_linkUsage (f : ForeignId) : Blind symbols (linkUsage n f) := by
  unfold linkUsage
  apply Twin.get_bind
  intro p
  simp only [ledger_withSymbols]
  apply Blind.bind (blind_linkTarget n _)
  intro target
  apply Twin.get_bind
  intro p'
  simp only [spaceAt_withSymbols, definedUsage?_withSymbols]
  apply Twin.ite
  · exact Twin.set rfl
  · cases p'.definedUsage? target.1 target.2 (p.ledger.foreignUsage f).name with
    | some u => exact Twin.set rfl
    | none => exact Twin.throw _

theorem blind_link : Blind symbols (link n) := by
  unfold link
  apply Twin.get_bind
  intro p
  simp only [spaceAt_withSymbols]
  cases (p.spaceAt n).root with
  | none => exact Twin.throw _
  | some root =>
      dsimp only
      apply Blind.bind
      · apply blind_forIn
        intro r
        apply Twin.get_bind
        intro p'
        simp only [reference_withSymbols]
        apply Twin.ite
        · exact Blind.bind (blind_resolveReference n r) fun _ => Twin.pure rfl
        · exact Twin.pure rfl
      · intro _
        apply Twin.get_bind
        intro p'
        simp only [ledger_withSymbols]
        apply Blind.bind
        · apply blind_forIn
          intro s
          apply Twin.get_bind
          intro p''
          simp only [ledger_withSymbols]
          apply Blind.bind
          · apply blind_forIn
            intro f
            apply Twin.get_bind
            intro q
            simp only [ledger_withSymbols]
            apply Twin.ite
            · exact Blind.bind (blind_linkUsage n f) fun _ => Twin.pure rfl
            · exact Twin.pure rfl
          · intro _
            exact Twin.pure rfl
        · intro _
          exact blind_advance n _

end

end Splice.Program

/-!
# Successful runs of actions

Actions on a program and parsers keep a state and may fail.  `Yields action s post`
says what is known after a run that does not fail.  The lemmas below take an action
apart into its steps, so that a statement about a whole action is assembled from
statements about the actions it is made of; a loop is handled by what is known
after a part of its list.  `Ends` also says with which failures a run may end, and
is taken apart in the same way.
-/

namespace Splice

/-- After every successful run of an action from a state, the answer and the new
state satisfy a condition. -/
def Yields {ε σ α : Type} (action : EStateM ε σ α) (s : σ) (post : α → σ → Prop) : Prop :=
  ∀ a t, action s = .ok a t → post a t

section

variable {ε σ α β : Type} {s : σ} {post : α → σ → Prop}

theorem Yields.mono {action : EStateM ε σ α} {weaker : α → σ → Prop}
    (h : Yields action s post) (himp : ∀ a t, post a t → weaker a t) :
    Yields action s weaker := by
  intro a t hrun
  exact himp a t (h a t hrun)

theorem Yields.and {action : EStateM ε σ α} {other : α → σ → Prop} (h : Yields action s post)
    (h' : Yields action s other) : Yields action s fun a t => post a t ∧ other a t := by
  intro a t hrun
  exact ⟨h a t hrun, h' a t hrun⟩

theorem Yields.of_forall {action : EStateM ε σ α} (h : ∀ a t, post a t) : Yields action s post :=
  fun a t _ => h a t

@[simp] theorem yields_true (action : EStateM ε σ α) : Yields action s fun _ _ => True :=
  .of_forall fun _ _ => trivial

theorem yields_self (action : EStateM ε σ α) : Yields action s fun a t => action s = .ok a t := by
  intro a t hrun
  exact hrun

@[simp] theorem yields_pure (a : α) :
    Yields (pure a : EStateM ε σ α) s post ↔ post a s := by
  constructor
  · intro h
    exact h a s rfl
  · intro h b t hrun
    cases hrun
    exact h

theorem bind_eq_of_eq_ok {x : EStateM ε σ β} {b : β} {t : σ} (h : x s = .ok b t)
    (f : β → EStateM ε σ α) : (x >>= f) s = f b t := by
  change EStateM.bind x f s = _
  unfold EStateM.bind
  rw [h]

theorem get_bind_eq (f : σ → EStateM ε σ α) : (get >>= f) s = f s s := rfl

/-- A successful run of two steps is made of successful runs of both. -/
theorem exists_of_bind_eq_ok {x : EStateM ε σ β} {f : β → EStateM ε σ α} {a : α} {u : σ}
    (h : (x >>= f) s = .ok a u) : ∃ b t, x s = .ok b t ∧ f b t = .ok a u := by
  change EStateM.bind x f s = _ at h
  unfold EStateM.bind at h
  cases hx : x s with
  | ok b t =>
      rw [hx] at h
      exact ⟨b, t, rfl, h⟩
  | error e t =>
      rw [hx] at h
      cases h

@[simp] theorem yields_bind (x : EStateM ε σ β) (f : β → EStateM ε σ α) :
    Yields (x >>= f) s post ↔ Yields x s fun b t => Yields (f b) t post := by
  constructor
  · intro h b t hx a u hf
    apply h
    rw [bind_eq_of_eq_ok hx]
    exact hf
  · intro h a u hrun
    obtain ⟨b, t, hx, hf⟩ := exists_of_bind_eq_ok hrun
    exact h b t hx a u hf

@[simp] theorem yields_get {post : σ → σ → Prop} :
    Yields (get : EStateM ε σ σ) s post ↔ post s s := by
  constructor
  · intro h
    exact h s s rfl
  · intro h a t hrun
    cases hrun
    exact h

@[simp] theorem yields_set {post : PUnit → σ → Prop} (t : σ) :
    Yields (set t : EStateM ε σ PUnit) s post ↔ post ⟨⟩ t := by
  constructor
  · intro h
    exact h ⟨⟩ t rfl
  · intro h a u hrun
    cases hrun
    exact h

@[simp] theorem yields_modify {post : PUnit → σ → Prop} (f : σ → σ) :
    Yields (modify f : EStateM ε σ PUnit) s post ↔ post ⟨⟩ (f s) := by
  constructor
  · intro h
    exact h ⟨⟩ (f s) rfl
  · intro h a u hrun
    cases hrun
    exact h

@[simp] theorem yields_throw (e : ε) : Yields (throw e : EStateM ε σ α) s post := by
  intro a t hrun
  cases hrun

theorem Yields.ite {c : Prop} [Decidable c] {x y : EStateM ε σ α} (hx : Yields x s post)
    (hy : Yields y s post) : Yields (if c then x else y) s post := by
  split
  · exact hx
  · exact hy

/-- A loop keeps a condition on the part of its list that is done, if every step
does. -/
theorem Yields.forIn_list {γ : Type} {body : γ → PUnit → EStateM ε σ (ForInStep PUnit)}
    (inv : List γ → σ → Prop) {xs : List γ}
    (hstep : ∀ before x after, xs = before ++ x :: after → ∀ t, inv before t →
      Yields (body x ⟨⟩) t fun r u => r = .yield ⟨⟩ ∧ inv (before ++ [x]) u)
    (hinit : inv [] s) :
    Yields (forIn xs PUnit.unit body) s fun _ t => inv xs t := by
  suffices hgen : ∀ after before t, xs = before ++ after → inv before t →
      Yields (forIn after PUnit.unit body) t fun _ u => inv xs u from
    hgen xs [] s rfl hinit
  intro after
  induction after with
  | nil =>
      intro before t hxs hinv
      simp only [List.forIn_nil, yields_pure]
      simpa [hxs] using hinv
  | cons x after ih =>
      intro before t hxs hinv
      simp only [List.forIn_cons, yields_bind]
      refine (hstep before x after hxs t hinv).mono ?_
      rintro r u ⟨rfl, hinv'⟩
      exact ih (before ++ [x]) u (by simpa using hxs) hinv'

theorem Yields.foldlM_list {γ : Type} {body : β → γ → EStateM ε σ β}
    (inv : List γ → β → σ → Prop) {xs : List γ} {b : β}
    (hstep : ∀ before x after, xs = before ++ x :: after → ∀ c t, inv before c t →
      Yields (body c x) t fun d u => inv (before ++ [x]) d u)
    (hinit : inv [] b s) :
    Yields (xs.foldlM body b) s fun c t => inv xs c t := by
  suffices hgen : ∀ after before c t, xs = before ++ after → inv before c t →
      Yields (after.foldlM body c) t fun d u => inv xs d u from
    hgen xs [] b s rfl hinit
  intro after
  induction after with
  | nil =>
      intro before c t hxs hinv
      simp only [List.foldlM_nil, yields_pure]
      simpa [hxs] using hinv
  | cons x after ih =>
      intro before c t hxs hinv
      simp only [List.foldlM_cons, yields_bind]
      refine (hstep before x after hxs c t hinv).mono ?_
      intro d u hinv'
      exact ih (before ++ [x]) d u (by simpa using hxs) hinv'

/-- A loop whose steps change nothing changes nothing. -/
theorem forIn_eq_of_idle {γ : Type} {body : γ → PUnit → EStateM ε σ (ForInStep PUnit)}
    {xs : List γ} (h : ∀ x ∈ xs, body x ⟨⟩ s = .ok (.yield ⟨⟩) s) :
    forIn xs PUnit.unit body s = .ok ⟨⟩ s := by
  induction xs with
  | nil => rfl
  | cons x rest ih =>
      rw [List.forIn_cons, bind_eq_of_eq_ok (h x List.mem_cons_self)]
      exact ih fun y hy => h y (List.mem_cons_of_mem _ hy)

/-! ## Runs and their failures -/

/-- Every run of an action from a state ends with an expected failure, or with an answer
and a state that satisfy a condition. -/
def Ends (action : EStateM ε σ α) (s : σ) (expected : ε → Prop) (post : α → σ → Prop) : Prop :=
  match action s with
  | .ok a t => post a t
  | .error e _ => expected e

section

variable {expected : ε → Prop}

theorem Ends.mono {action : EStateM ε σ α} {weaker : α → σ → Prop}
    (h : Ends action s expected post) (himp : ∀ a t, post a t → weaker a t) :
    Ends action s expected weaker := by
  unfold Ends at h ⊢
  split at h
  · exact himp _ _ h
  · exact h

theorem Ends.expecting {action : EStateM ε σ α} {other : ε → Prop}
    (h : Ends action s expected post) (himp : ∀ e, expected e → other e) :
    Ends action s other post := by
  unfold Ends at h ⊢
  split at h
  · exact h
  · exact himp _ h

/-- What is known of the successful runs may be added. -/
theorem Ends.and_yields {action : EStateM ε σ α} {other : α → σ → Prop}
    (h : Ends action s expected post) (hother : Yields action s other) :
    Ends action s expected fun a t => post a t ∧ other a t := by
  unfold Ends at h ⊢
  split at h
  · next a t hrun => exact ⟨h, hother a t hrun⟩
  · exact h

theorem Ends.yields {action : EStateM ε σ α} (h : Ends action s expected post) :
    Yields action s post := by
  intro a t hrun
  unfold Ends at h
  rw [hrun] at h
  exact h

theorem Ends.expected_of_eq_error {action : EStateM ε σ α} {e : ε} {t : σ}
    (h : Ends action s expected post) (hrun : action s = .error e t) : expected e := by
  unfold Ends at h
  rw [hrun] at h
  exact h

/-- An action that fails in no way gives an answer. -/
theorem Ends.succeeds {action : EStateM ε σ α} (h : Ends action s expected post)
    (hexpected : ∀ e, ¬expected e) : ∃ a t, action s = .ok a t := by
  unfold Ends at h
  split at h
  · next a t hrun => exact ⟨a, t, hrun⟩
  · next e t hrun => exact absurd h (hexpected e)

@[simp] theorem ends_pure (a : α) :
    Ends (pure a : EStateM ε σ α) s expected post ↔ post a s := Iff.rfl

@[simp] theorem ends_throw (e : ε) :
    Ends (throw e : EStateM ε σ α) s expected post ↔ expected e := Iff.rfl

@[simp] theorem ends_get {post : σ → σ → Prop} :
    Ends (get : EStateM ε σ σ) s expected post ↔ post s s := Iff.rfl

@[simp] theorem ends_set {post : PUnit → σ → Prop} (t : σ) :
    Ends (set t : EStateM ε σ PUnit) s expected post ↔ post ⟨⟩ t := Iff.rfl

@[simp] theorem ends_modify {post : PUnit → σ → Prop} (f : σ → σ) :
    Ends (modify f : EStateM ε σ PUnit) s expected post ↔ post ⟨⟩ (f s) := Iff.rfl

@[simp] theorem ends_bind (x : EStateM ε σ β) (f : β → EStateM ε σ α) :
    Ends (x >>= f) s expected post ↔
      Ends x s expected fun b t => Ends (f b) t expected post := by
  change Ends (EStateM.bind x f) s expected post ↔ _
  unfold Ends EStateM.bind
  cases x s with
  | ok b t => rfl
  | error e t => rfl

/-- A loop keeps a condition on the part of its list that is done, or ends with an
expected failure, if every step does. -/
theorem Ends.forIn_list {γ : Type} {body : γ → PUnit → EStateM ε σ (ForInStep PUnit)}
    (inv : List γ → σ → Prop) {xs : List γ}
    (hstep : ∀ before x after, xs = before ++ x :: after → ∀ t, inv before t →
      Ends (body x ⟨⟩) t expected fun r u => r = .yield ⟨⟩ ∧ inv (before ++ [x]) u)
    (hinit : inv [] s) :
    Ends (forIn xs PUnit.unit body) s expected fun _ t => inv xs t := by
  suffices hgen : ∀ after before t, xs = before ++ after → inv before t →
      Ends (forIn after PUnit.unit body) t expected fun _ u => inv xs u from
    hgen xs [] s rfl hinit
  intro after
  induction after with
  | nil =>
      intro before t hxs hinv
      simp only [List.forIn_nil, ends_pure]
      simpa [hxs] using hinv
  | cons x after ih =>
      intro before t hxs hinv
      simp only [List.forIn_cons, ends_bind]
      refine (hstep before x after hxs t hinv).mono ?_
      rintro r u ⟨rfl, hinv'⟩
      exact ih (before ++ [x]) u (by simpa using hxs) hinv'

theorem Ends.foldlM_list {γ : Type} {body : β → γ → EStateM ε σ β}
    (inv : List γ → β → σ → Prop) {xs : List γ} {b : β}
    (hstep : ∀ before x after, xs = before ++ x :: after → ∀ c t, inv before c t →
      Ends (body c x) t expected fun d u => inv (before ++ [x]) d u)
    (hinit : inv [] b s) :
    Ends (xs.foldlM body b) s expected fun c t => inv xs c t := by
  suffices hgen : ∀ after before c t, xs = before ++ after → inv before c t →
      Ends (after.foldlM body c) t expected fun d u => inv xs d u from
    hgen xs [] b s rfl hinit
  intro after
  induction after with
  | nil =>
      intro before c t hxs hinv
      simp only [List.foldlM_nil, ends_pure]
      simpa [hxs] using hinv
  | cons x after ih =>
      intro before c t hxs hinv
      simp only [List.foldlM_cons, ends_bind]
      refine (hstep before x after hxs c t hinv).mono ?_
      intro d u hinv'
      exact ih (before ++ [x]) d u (by simpa using hxs) hinv'

end

theorem Yields.bind_congr {x : EStateM ε σ β} {f g : β → EStateM ε σ α}
    (h : Yields x s fun b t => f b t = g b t) : (x >>= f) s = (x >>= g) s := by
  change EStateM.bind x f s = EStateM.bind x g s
  unfold EStateM.bind
  cases hx : x s with
  | ok b t => exact h b t hx
  | error e t => rfl

theorem bind_congr_left {x y : EStateM ε σ β} (h : x s = y s) (f : β → EStateM ε σ α) :
    (x >>= f) s = (y >>= f) s := by
  change EStateM.bind x f s = EStateM.bind y f s
  unfold EStateM.bind
  rw [h]

/-- Two loops run alike if their steps do from every state that the loop reaches. -/
theorem Yields.foldlM_congr {γ : Type} {body body' : β → γ → EStateM ε σ β}
    (inv : List γ → β → σ → Prop) {xs : List γ} {b : β}
    (hstep : ∀ before x after, xs = before ++ x :: after → ∀ c t, inv before c t →
      body' c x t = body c x t ∧ Yields (body c x) t fun d u => inv (before ++ [x]) d u)
    (hinit : inv [] b s) : xs.foldlM body' b s = xs.foldlM body b s := by
  suffices hgen : ∀ after before c t, xs = before ++ after → inv before c t →
      after.foldlM body' c t = after.foldlM body c t from hgen xs [] b s rfl hinit
  intro after
  induction after with
  | nil =>
      intro before c t hxs hinv
      rfl
  | cons x after ih =>
      intro before c t hxs hinv
      obtain ⟨hsame, hkeeps⟩ := hstep before x after hxs c t hinv
      rw [List.foldlM_cons, List.foldlM_cons, bind_congr_left hsame]
      apply Yields.bind_congr
      refine hkeeps.mono ?_
      intro d u hinv'
      exact ih (before ++ [x]) d u (by simpa using hxs) hinv'

end

theorem toOption_eq_some_iff {α ε : Type} {x : Except ε α} {a : α} :
    x.toOption = some a ↔ x = .ok a := by
  cases x <;> simp [Except.toOption]

theorem mapError_eq_ok_iff {α ε ε' : Type} {x : Except ε α} {f : ε → ε'} {a : α} :
    x.mapError f = .ok a ↔ x = .ok a := by
  cases x with
  | error e =>
      constructor
      · intro h
        cases h
      · intro h
        cases h
  | ok b =>
      constructor
      · intro h
        cases h
        rfl
      · intro h
        cases h
        rfl

/-- If all members of a list have an answer, the answers are those of its members. -/
theorem mem_iff_of_mapM_eq_ok {α β ε : Type} {f : α → Except ε β} {xs : List α} {ys : List β}
    (h : xs.mapM f = .ok ys) {y : β} : y ∈ ys ↔ ∃ x ∈ xs, f x = .ok y := by
  induction xs generalizing ys with
  | nil =>
      cases h
      simp
  | cons x rest ih =>
      rw [List.mapM_cons] at h
      cases hx : f x with
      | error e =>
          rw [hx] at h
          cases h
      | ok z =>
          rw [hx] at h
          cases hrest : rest.mapM f with
          | error e =>
              rw [hrest] at h
              cases h
          | ok zs =>
              rw [hrest] at h
              cases h
              simp [ih hrest, hx, eq_comm]

def answer? {ε σ α : Type} : EStateM.Result ε σ α → Option (α × σ)
  | .ok a s => some (a, s)
  | .error _ _ => none

/-- A run is known from a part of its answer. -/
theorem exists_of_answer? {ε σ α β : Type} {x : EStateM.Result ε σ α} {part : α × σ → β} {b : β}
    (h : (answer? x).map part = some b) : ∃ a s, x = .ok a s ∧ part (a, s) = b := by
  cases x with
  | ok a s => exact ⟨a, s, rfl, Option.some.inj h⟩
  | error e s => cases h

end Splice

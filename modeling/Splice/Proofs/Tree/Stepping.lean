import Splice.Proofs.Action
import Splice.Tree.Parser

/-!
# Steps of parsers

A parser only ever steps over tokens, so the tokens that are left of a file are always its last
ones (`State.Over`).  `Steady` compares two runs of parsers that differ in their fuel: with
enough of it for the first, both are the same and fail only because of the tokens.  The rules
below take such runs apart step by step, and count the tokens that they have stepped over.
-/

namespace Splice.Parser

def exhaustions : List Text :=
  ["enum is too long", "retain is too long", "parameter list is too long",
    "expression is nested too deeply", "argument list is too long", "object is too long",
    "statement is nested too deeply", "block is too long", "file is too long"]

/-- The parser has not failed because of what it read. -/
def Mistake.IsExhaustion (e : Mistake) : Prop := e.message ∈ exhaustions

instance (e : Mistake) : Decidable e.IsExhaustion :=
  inferInstanceAs (Decidable (e.message ∈ exhaustions))

def otherStarts : List Text :=
  ["expected ", "unexpected ", "expected function body, found ",
    "expected block after if condition, found ", "expected if or block after else, found ",
    "import alias ", "cannot assign to imported name ", "invalid assignment target",
    "imports are only allowed at the top level", "enums are only allowed at the top level",
    "block is never closed"]

theorem not_isExhaustion_of_append {start : Text} (h : start ∈ otherStarts) (t : Text)
    (offset : Nat) : ¬Mistake.IsExhaustion ⟨start ++ t, offset⟩ := by
  have hstarts : ∀ start ∈ otherStarts, ∀ m ∈ exhaustions, ¬start <+: m := by decide +kernel
  exact fun hmem => hstarts start h _ hmem (List.prefix_append start t)

theorem not_isExhaustion {message : Text} (h : message ∈ otherStarts) (offset : Nat) :
    ¬Mistake.IsExhaustion ⟨message, offset⟩ := by
  simpa using not_isExhaustion_of_append h [] offset

/-- A message about a certain enum is longer than one about the fuel. -/
theorem not_isExhaustion_enum {name more : Text} (h : 12 ≤ more.length) (offset : Nat) :
    ¬Mistake.IsExhaustion ⟨"enum " ++ name ++ more, offset⟩ := by
  intro hmem
  have hshort : ∀ m ∈ exhaustions, ("enum " : Text) <+: m → m.length < 17 := by decide +kernel
  have hlength := hshort _ hmem ⟨name ++ more, by rw [List.append_assoc]⟩
  have hfive : ("enum " : Text).length = 5 := by decide
  simp only [List.length_append, hfive] at hlength
  omega

/-- From one state to another a parser has stepped over a number of tokens, at least. -/
structure State.Over (k : Nat) (s t : State) : Prop where
  rest : t.rest <:+ s.rest
  finish : t.finish = s.finish
  count : t.rest.length + k ≤ s.rest.length

variable {s t u base : State} {k j n : Nat}

theorem State.Over.refl (s : State) : s.Over 0 s := ⟨List.suffix_rfl, rfl, Nat.le_refl _⟩

theorem State.Over.trans (h : s.Over k t) (h' : t.Over j u) : s.Over (k + j) u where
  rest := h'.rest.trans h.rest
  finish := h'.finish.trans h.finish
  count := by
    have := h.count
    have := h'.count
    omega

theorem State.Over.mono (h : s.Over k t) (hle : n ≤ k) : s.Over n t where
  rest := h.rest
  finish := h.finish
  count := by
    have := h.count
    omega

/-- A step that leaves the tokens alone. -/
theorem State.Over.same (h : s.Over k t) (hrest : u.rest = t.rest) (hfinish : u.finish = t.finish) :
    s.Over k u where
  rest := hrest ▸ h.rest
  finish := hfinish.trans h.finish
  count := hrest ▸ h.count

theorem State.over_tail (s : State) : s.Over 0 { s with rest := s.rest.tail } where
  rest := List.tail_suffix s.rest
  finish := rfl
  count := by simp

theorem State.over_tail_of_kind (h : (s.peekAt 0).kind ≠ .endOfFile) :
    s.Over 1 { s with rest := s.rest.tail } where
  rest := List.tail_suffix s.rest
  finish := rfl
  count := by
    cases hrest : s.rest with
    | nil => simp [State.peekAt, hrest] at h
    | cons tok rest => simp

/-- A parser that is run from a state, and the same parser with more fuel.  A success satisfies a
condition; a failure is behind the base; and with enough fuel both runs are the same, and the
fuel is not what they fail for. -/
def Steady {α : Type} (base : State) (enough : Prop) (x y : Parser α) (s : State)
    (post : α → State → Prop) : Prop :=
  (enough → y s = x s) ∧
    match x s with
    | .ok a t => post a t
    | .error e t => base.Over 0 t ∧ (enough → ¬e.IsExhaustion)

section

variable {α β : Type} {enough enough' : Prop} {x y : Parser α} {post : α → State → Prop}
  {f g : β → Parser α}

theorem Steady.mono {weaker : α → State → Prop} (h : Steady base enough x y s post)
    (himp : ∀ a t, post a t → weaker a t) : Steady base enough x y s weaker := by
  obtain ⟨hsame, hrun⟩ := h
  refine ⟨hsame, ?_⟩
  split at hrun
  · exact himp _ _ hrun
  · exact hrun

/-- Runs that start behind the base fail behind it. -/
theorem Steady.rebase (h : Steady s enough' x y s post) (hbase : base.Over k s)
    (henough : enough → enough') : Steady base enough x y s post := by
  obtain ⟨hsame, hrun⟩ := h
  refine ⟨fun he => hsame (henough he), ?_⟩
  split at hrun
  · exact hrun
  · exact ⟨(hbase.trans hrun.1).mono (Nat.zero_le _), fun he => hrun.2 (henough he)⟩

theorem Steady.bind {v w : Parser β} {between : β → State → Prop}
    (h : Steady base enough v w s between)
    (hf : ∀ b t, between b t → Steady base enough (f b) (g b) t post) :
    Steady base enough (v >>= f) (w >>= g) s post := by
  obtain ⟨hsame, hrun⟩ := h
  change (enough → EStateM.bind w g s = EStateM.bind v f s) ∧
    match EStateM.bind v f s with
    | .ok a t => post a t
    | .error e t => base.Over 0 t ∧ (enough → ¬e.IsExhaustion)
  unfold EStateM.bind
  cases hv : v s with
  | ok b t =>
      rw [hv] at hrun hsame
      obtain ⟨hsame', hrun'⟩ := hf b t hrun
      refine ⟨fun he => ?_, hrun'⟩
      rw [hsame he]
      exact hsame' he
  | error e t =>
      rw [hv] at hrun hsame
      refine ⟨fun he => ?_, hrun⟩
      rw [hsame he]

theorem steady_pure {a : α} (h : post a s) : Steady base enough (pure a) (pure a) s post :=
  ⟨fun _ => rfl, h⟩

theorem steady_throw {e : Mistake} (hbase : base.Over k s) (h : enough → ¬e.IsExhaustion) :
    Steady base enough (throw e : Parser α) (throw e) s post :=
  ⟨fun _ => rfl, hbase.mono (Nat.zero_le k), h⟩

/-- Nothing comes after a failure. -/
theorem steady_throw_bind {e : Mistake} {f g : β → Parser α} (hbase : base.Over k s)
    (h : enough → ¬e.IsExhaustion) :
    Steady base enough ((throw e : Parser β) >>= f) (throw e >>= g) s post := by
  have hthrow : Steady base enough (throw e : Parser β) (throw e) s fun _ _ => False :=
    steady_throw hbase h
  exact hthrow.bind fun _ _ hnever => hnever.elim

theorem steady_failAt {tok : Token} {message : Text} (hbase : base.Over k s)
    (h : enough → ¬Mistake.IsExhaustion ⟨message, tok.offset⟩) :
    Steady base enough (failAt tok message : Parser α) (failAt tok message) s post :=
  steady_throw hbase h

/-- A check that has to succeed before anything else is read. -/
theorem steady_check {c : Prop} [Decidable c] {tok : Token} {start more : Text}
    {f g : PUnit → Parser α} (hbase : base.Over k s) (hstart : start ∈ otherStarts)
    (h : ¬c → Steady base enough (f ⟨⟩) (g ⟨⟩) s post) :
    Steady base enough (if c then failAt tok (start ++ more) >>= f else f ⟨⟩)
      (if c then failAt tok (start ++ more) >>= g else g ⟨⟩) s post := by
  by_cases hc : c
  · rw [if_pos hc, if_pos hc]
    exact steady_throw_bind hbase fun _ => not_isExhaustion_of_append hstart _ _
  · rw [if_neg hc, if_neg hc]
    exact h hc

/-- Without fuel nothing is known of the other run. -/
theorem steady_exhausted {e : Mistake} (hrun : x s = .error e s) (henough : ¬enough) :
    Steady s enough x y s post := by
  refine ⟨fun he => absurd he henough, ?_⟩
  rw [hrun]
  exact ⟨.refl s, fun he => absurd he henough⟩

/-- A parser that is one of several steps. -/
theorem Steady.part {v w : Parser β} (h : Steady s enough' v w s fun _ t => s.Over j t)
    (hbase : base.Over k s) (henough : enough → enough')
    (hf : ∀ b t, base.Over (k + j) t → Steady base enough (f b) (g b) t post) :
    Steady base enough (v >>= f) (w >>= g) s post :=
  (h.rebase hbase henough).bind fun b t ht => hf b t (hbase.trans ht)

/-- A parser that is the last step. -/
theorem Steady.last (h : Steady s enough' x y s fun _ t => s.Over j t)
    (hbase : base.Over k s) (henough : enough → enough') (hle : n ≤ k + j) :
    Steady base enough x y s fun _ t => base.Over n t :=
  (h.rebase hbase henough).mono fun _ _ ht => (hbase.trans ht).mono hle

/-- A step that does not fail. -/
theorem steady_step {v : Parser β} {b : β} (hv : v s = .ok b t)
    (h : Steady base enough (f b) (g b) t post) :
    Steady base enough (v >>= f) (v >>= g) s post := by
  have hstep : Steady base enough v v s fun b' t' => b' = b ∧ t' = t := by
    refine ⟨fun _ => rfl, ?_⟩
    rw [hv]
    exact ⟨rfl, rfl⟩
  refine hstep.bind ?_
  rintro b' t' ⟨rfl, rfl⟩
  exact h

/-! ## Tokens -/

theorem steady_peek {f g : Token → Parser α}
    (h : Steady base enough (f (s.peekAt 0)) (g (s.peekAt 0)) s post) :
    Steady base enough (peek >>= f) (peek >>= g) s post :=
  steady_step rfl h

theorem steady_peekAt {f g : Token → Parser α} {i : Nat}
    (h : Steady base enough (f (s.peekAt i)) (g (s.peekAt i)) s post) :
    Steady base enough (peekAt i >>= f) (peekAt i >>= g) s post :=
  steady_step rfl h

theorem steady_get {f g : State → Parser α} (h : Steady base enough (f s) (g s) s post) :
    Steady base enough (get >>= f) (get >>= g) s post :=
  steady_step rfl h

/-- At the end of the file there is nothing to skip. -/
theorem steady_skip {f g : Unit → Parser α} (hbase : base.Over k s)
    (hkind : (s.peekAt 0).kind ≠ .endOfFile)
    (h : ∀ t, base.Over (k + 1) t → Steady base enough (f ()) (g ()) t post) :
    Steady base enough (skip >>= f) (skip >>= g) s post :=
  steady_step rfl (h _ (hbase.trans (s.over_tail_of_kind hkind)))

theorem steady_advance {f g : Token → Parser α} (hbase : base.Over k s)
    (h : ∀ tok t, base.Over k t → Steady base enough (f tok) (g tok) t post) :
    Steady base enough (advance >>= f) (advance >>= g) s post :=
  steady_step rfl (h _ _ (hbase.trans s.over_tail))

theorem steady_advance_of_kind {f g : Token → Parser α} (hbase : base.Over k s)
    (hkind : (s.peekAt 0).kind ≠ .endOfFile)
    (h : ∀ tok t, base.Over (k + 1) t → Steady base enough (f tok) (g tok) t post) :
    Steady base enough (advance >>= f) (advance >>= g) s post :=
  steady_step rfl (h _ _ (hbase.trans (s.over_tail_of_kind hkind)))

theorem steady_accept {kind : TokenKind} {f g : Bool → Parser α} (hbase : base.Over k s)
    (hkind : kind ≠ .endOfFile)
    (hyes : ∀ t, base.Over (k + 1) t → Steady base enough (f true) (g true) t post)
    (hno : Steady base enough (f false) (g false) s post) :
    Steady base enough (accept kind >>= f) (accept kind >>= g) s post := by
  by_cases hnext : (s.peekAt 0).kind = kind
  · have hrun : accept kind s = .ok true { s with rest := s.rest.tail } := by
      change (if (s.peekAt 0).kind == kind then _ else _ : Parser Bool) s = _
      rw [if_pos (by simpa using hnext)]
      rfl
    exact steady_step hrun (hyes _ (hbase.trans (s.over_tail_of_kind (hnext ▸ hkind))))
  · have hrun : accept kind s = .ok false s := by
      change (if (s.peekAt 0).kind == kind then _ else _ : Parser Bool) s = _
      rw [if_neg (by simpa using hnext)]
      rfl
    exact steady_step hrun hno

theorem steady_expect {kind : TokenKind} {f g : Token → Parser α} (hbase : base.Over k s)
    (hkind : kind ≠ .endOfFile)
    (h : ∀ tok t, base.Over (k + 1) t → Steady base enough (f tok) (g tok) t post) :
    Steady base enough (expect kind >>= f) (expect kind >>= g) s post := by
  unfold expect
  rw [bind_assoc, bind_assoc]
  apply steady_peek
  by_cases hnext : (s.peekAt 0).kind = kind
  · rw [if_pos (by simpa using hnext)]
    exact steady_advance_of_kind hbase (hnext ▸ hkind) h
  · rw [if_neg (by simpa using hnext)]
    refine steady_throw_bind hbase fun _ => ?_
    rw [List.append_assoc, List.append_assoc]
    exact not_isExhaustion_of_append (by simp [otherStarts]) _ _

theorem steady_skipSemicolons {f g : Unit → Parser α} (hbase : base.Over k s)
    (h : ∀ t, base.Over k t → Steady base enough (f ()) (g ()) t post) :
    Steady base enough (skipSemicolons >>= f) (skipSemicolons >>= g) s post := by
  have hover : s.Over 0 { s with rest := s.rest.dropWhile (·.kind == .semicolon) } :=
    ⟨List.dropWhile_suffix _, rfl, (List.dropWhile_suffix _).length_le⟩
  exact steady_step rfl (h _ (hbase.trans hover))

theorem steady_declare {d : Declaration} {f g : Unit → Parser α} (hbase : base.Over k s)
    (h : ∀ t, base.Over k t → Steady base enough (f ()) (g ()) t post) :
    Steady base enough (declare d >>= f) (declare d >>= g) s post :=
  steady_step rfl (h _ (hbase.same rfl rfl))

theorem steady_newSymbol {name : Text} {f g : SymbolId → Parser α} (hbase : base.Over k s)
    (h : ∀ i t, base.Over k t → Steady base enough (f i) (g i) t post) :
    Steady base enough (newSymbol name >>= f) (newSymbol name >>= g) s post :=
  steady_step rfl (h _ _ (hbase.same rfl rfl))

theorem steady_newProperty {name : Text} {f g : SymbolId → Parser α} (hbase : base.Over k s)
    (h : ∀ i t, base.Over k t → Steady base enough (f i) (g i) t post) :
    Steady base enough (newProperty name >>= f) (newProperty name >>= g) s post :=
  steady_step rfl (h _ _ (hbase.same rfl rfl))

theorem steady_newReference {qualifier name member : Text} {offset : Nat}
    {f g : ReferenceId → Parser α} (hbase : base.Over k s)
    (h : ∀ i t, base.Over k t → Steady base enough (f i) (g i) t post) :
    Steady base enough (newReference qualifier name member offset >>= f)
      (newReference qualifier name member offset >>= g) s post :=
  steady_step rfl (h _ _ (hbase.same rfl rfl))

theorem steady_newAlias {f g : Text → Parser α} (hbase : base.Over k s)
    (h : ∀ a t, base.Over k t → Steady base enough (f a) (g a) t post) :
    Steady base enough (newAlias >>= f) (newAlias >>= g) s post :=
  steady_step rfl (h _ _ (hbase.same rfl rfl))

end

/-- A loop is made of turns, each of which hands over to the next or ends the loop.  The next turn
has less fuel. -/
def Unrolls {β γ : Type} (loop : Nat → β → Parser γ) (turn : Nat → β → Parser (β ⊕ γ)) : Prop :=
  ∀ fuel b, loop (fuel + 1) b = do
    match ← turn fuel b with
    | .inl b => loop fuel b
    | .inr c => return c

/-- More fuel than some is some as well. -/
theorem exists_eq_succ {fuel fuel' : Nat} (h : fuel + 1 ≤ fuel') :
    ∃ less, fuel' = less + 1 ∧ fuel ≤ less :=
  ⟨fuel' - 1, by omega, by omega⟩

/-- A loop is steady if its turns are and step over a token each. -/
theorem Unrolls.steady {β γ : Type} {loop : Nat → β → Parser γ}
    {turn : Nat → β → Parser (β ⊕ γ)} (h : Unrolls loop turn) {need : Nat → Nat}
    (hneed : ∀ m n, m < n → need m < need n) {fuel fuel' : Nat} {b : β}
    (hturn : Steady s (need s.rest.length ≤ fuel + 1) (turn fuel b) (turn fuel' b) s
      fun _ t => s.Over 1 t)
    (hloop : ∀ b t, Steady t (need t.rest.length ≤ fuel) (loop fuel b) (loop fuel' b) t
      fun _ u => t.Over 1 u) :
    Steady s (need s.rest.length ≤ fuel + 1) (loop (fuel + 1) b) (loop (fuel' + 1) b) s
      fun _ t => s.Over 1 t := by
  rw [h, h]
  refine hturn.bind ?_
  intro r t ht
  cases r with
  | inl b =>
      have hlt := hneed t.rest.length s.rest.length (by have := ht.count; omega)
      exact (hloop b t).last ht (fun he => by omega) (by omega)
  | inr c => exact steady_pure ht

end Splice.Parser

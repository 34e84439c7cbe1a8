import Splice.Proofs.Tree.Annotation

/-!
# Everything that is made up is mentioned once

The parser numbers symbols and references on from those that there are.  Between two
states of a parser the numbers that it gives out are those from one number on up to
another, and each of them stands in the tree that was read in between, at one place
(`Parser.Makes`).  Binding goes on where the parser stopped (`Program.Numbers`), so the
same holds of a tree whose names are bound (`Program.parse_records`).  The walk over the
grammar also finds that a machine call is named by a word and that no access to a member
is known to be an entry of an enum yet (`Expr.Plain`).
-/

namespace Splice

/-- Some numbers are those from one on up to another, each of them once. -/
def Counts (ids : List Nat) (first next : Nat) : Prop :=
  first ≤ next ∧ ids.Perm (List.range' first (next - first))

namespace Counts

variable {ids others : List Nat} {a b c : Nat}

theorem nil (a : Nat) : Counts [] a a := by
  constructor
  · exact le_rfl
  · rw [Nat.sub_self]
    exact List.Perm.refl _

theorem singleton (a : Nat) : Counts [a] a (a + 1) := by
  constructor
  · exact Nat.le_succ a
  · rw [Nat.add_sub_cancel_left]
    exact List.Perm.refl _

theorem perm (h : Counts ids a b) (hperm : others.Perm ids) : Counts others a b :=
  ⟨h.1, hperm.trans h.2⟩

theorem append (h : Counts ids a b) (h' : Counts others b c) : Counts (ids ++ others) a c := by
  refine ⟨h.1.trans h'.1, ?_⟩
  have hsplit : List.range' a (c - a) = List.range' a (b - a) ++ List.range' b (c - b) := by
    have hb : b = a + 1 * (b - a) := by
      have := h.1
      omega
    have hc : c - a = (b - a) + (c - b) := by
      have := h.1
      have := h'.1
      omega
    conv_rhs =>
      arg 2
      rw [hb]
    rw [hc, List.range'_append]
    congr 2
    omega
  rw [hsplit]
  exact h.2.append h'.2

end Counts

namespace Mention

def symbol? : Mention → Option SymbolId
  | name _ _ (.own s _) => some s
  | property s => some s
  | binding _ s => some s
  | _ => none

def reference? : Mention → Option ReferenceId
  | name _ _ (.std r _) => some r
  | imported _ r _ => some r
  | _ => none

end Mention

/-- A node as the parser makes it: nothing is known of what it reads, a machine call is
named by a word if identifiers are words, and every key of an object has a value. -/
def Expr.Plain (worded : Prop) : Expr → Prop
  | name _ _ read => read = .unbound
  | member _ _ _ _ entry => entry = none
  | syscall _ text _ => worded → Text.IsWord text
  | object _ keys values => values.length = keys.length
  | _ => True

theorem Expr.Plain.mono {v w : Prop} {x : Expr} (h : x.Plain v) (hw : w → v) : x.Plain w := by
  cases x with
  | syscall o text args => exact fun hworded => h (hw hworded)
  | _ => exact h

namespace Parser

def Worded (s : State) : Prop := ∀ t ∈ s.rest, t.kind = .identifier → Text.IsWord t.text

/-- On the way from one state to another the parser steps over tokens and makes up the
symbols and references of some mentions, each of them once, and some plain nodes. -/
structure Makes (s s' : State) (ms : List Mention) (nodes : List Expr) : Prop where
  rest : s'.rest <:+ s.rest
  symbols : Counts (ms.filterMap Mention.symbol?) s.nextSymbol s'.nextSymbol
  references : Counts (ms.filterMap Mention.reference?) s.nextReference s'.nextReference
  plain : ∀ x ∈ nodes, x.Plain (Worded s)

abbrev MakesExpr (s s' : State) (e : Expr) : Prop := Makes s s' e.mentions e.nodes

abbrev MakesExprs (s s' : State) (es : List Expr) : Prop :=
  Makes s s' (Expr.mentionsOfAll es) (Expr.nodesOfAll es)

section

variable {s s' s'' : State} {a b : List Mention} {xs ys : List Expr}

theorem Makes.worded (h : Makes s s' a xs) (hs : Worded s) : Worded s' :=
  fun t ht => hs t (h.rest.subset ht)

theorem Makes.trans (h : Makes s s' a xs) (h' : Makes s' s'' b ys) :
    Makes s s'' (a ++ b) (xs ++ ys) where
  rest := h'.rest.trans h.rest
  symbols := by
    rw [List.filterMap_append]
    exact h.symbols.append h'.symbols
  references := by
    rw [List.filterMap_append]
    exact h.references.append h'.references
  plain x hx := by
    rcases List.mem_append.mp hx with hx | hx
    · exact h.plain x hx
    · exact (h'.plain x hx).mono h.worded

theorem Makes.skipped (h : Makes s s' a xs) (h' : Makes s' s'' [] []) : Makes s s'' a xs := by
  simpa using h.trans h'

/-- What is made up may be told in another order, and with plain nodes around it. -/
theorem Makes.arrange (h : Makes s s' a xs) (hperm : b.Perm a)
    (hnodes : ∀ x ∈ ys, x ∈ xs ∨ x.Plain (Worded s)) : Makes s s' b ys where
  rest := h.rest
  symbols := h.symbols.perm (hperm.filterMap _)
  references := h.references.perm (hperm.filterMap _)
  plain x hx := (hnodes x hx).elim (h.plain x) id

theorem Makes.wrap (h : Makes s s' a xs) {x : Expr} (hx : x.Plain (Worded s)) :
    Makes s s' a (x :: xs) := by
  apply h.arrange (List.Perm.refl _)
  intro y hy
  rcases List.mem_cons.mp hy with rfl | hy
  · exact Or.inr hx
  · exact Or.inl hy

theorem makes_of_suffix {rest : List Token} (h : rest <:+ s.rest) :
    Makes s { s with rest } [] [] where
  rest := h
  symbols := .nil _
  references := .nil _
  plain := List.forall_mem_nil _

theorem makes_refl (s : State) : Makes s s [] [] := makes_of_suffix List.suffix_rfl

theorem makes_skip (s : State) : Makes s { s with rest := s.rest.tail } [] [] :=
  makes_of_suffix (List.tail_suffix _)

theorem accept_makes (kind : TokenKind) :
    Yields (accept kind) s fun _ s' => Makes s s' [] [] := by
  simp only [accept, yields_bind, yields_peek]
  split
  · simpa only [yields_bind, yields_skip, yields_pure] using makes_skip s
  · simpa only [yields_pure] using makes_refl s

theorem advance_makes : Yields advance s fun _ s' => Makes s s' [] [] := by
  simpa only [advance, yields_bind, yields_peek, yields_skip, yields_pure] using makes_skip s

theorem expect_makes (kind : TokenKind) :
    Yields (expect kind) s fun _ s' => Makes s s' [] [] := by
  simp only [expect, yields_bind, yields_peek]
  split
  · exact advance_makes
  · simp

theorem expect_identifier_makes :
    Yields (expect .identifier) s fun t s' =>
      Makes s s' [] [] ∧ (Worded s → Text.IsWord t.text) := by
  simp only [expect, yields_bind, yields_peek]
  split
  · next hkind =>
      simp only [advance, yields_bind, yields_peek, yields_skip, yields_pure]
      rw [beq_iff_eq] at hkind
      obtain ⟨rest, hrest⟩ := exists_rest_of_kind (s := s) (by rw [hkind]; decide)
      refine ⟨makes_skip s, fun hs => hs _ ?_ hkind⟩
      rw [hrest]
      exact List.mem_cons_self
  · simp

theorem skipSemicolons_makes : Yields skipSemicolons s fun _ s' => Makes s s' [] [] := by
  simp only [skipSemicolons, yields_modify]
  exact makes_of_suffix (List.dropWhile_suffix _)

theorem newSymbol_makes (name : Text) :
    Yields (newSymbol name) s fun sym s' => Makes s s' [.binding name sym] [] := by
  simp only [newSymbol, yields_bind, yields_get, yields_set, yields_pure]
  exact ⟨List.suffix_rfl, .singleton _, .nil _, List.forall_mem_nil _⟩

theorem newProperty_makes (name : Text) :
    Yields (newProperty name) s fun sym s' => Makes s s' [.property sym] [] := by
  simp only [newProperty, yields_bind, yields_get, yields_set, yields_pure]
  exact ⟨List.suffix_rfl, .singleton _, .nil _, List.forall_mem_nil _⟩

theorem newReference_makes (qualifier name member : Text) (offset : Nat) :
    Yields (newReference qualifier name member offset) s fun r s' =>
      Makes s s' [.imported offset r none] [] := by
  simp only [newReference, yields_bind, yields_get, yields_set, yields_pure]
  exact ⟨List.suffix_rfl, .nil _, .singleton _, List.forall_mem_nil _⟩

/-! ## Expressions -/

theorem importedName_makes : Yields importedName s fun e s' => MakesExpr s s' e := by
  simp only [importedName, yields_bind]
  refine advance_makes.mono ?_
  intro qualifier s₁ h₁
  simp only [yields_skip]
  have h₂ := h₁.skipped (makes_skip s₁)
  refine advance_makes.mono ?_
  intro name s₃ h₃
  simp only [yields_peek, yields_peekAt]
  replace h₃ := h₂.skipped h₃
  split
  · simp only [yields_bind, yields_skip, yields_pure]
    have h₄ := h₃.skipped (makes_skip s₃)
    refine advance_makes.mono ?_
    intro member s₅ h₅
    replace h₅ := h₄.skipped h₅
    refine (newProperty_makes _).mono ?_
    intro property s₆ h₆
    refine (newReference_makes _ _ _ _).mono ?_
    intro r s₇ h₇
    refine ((h₅.trans h₆).trans h₇).arrange (List.Perm.swap ..) ?_
    intro x hx
    rw [List.mem_singleton.mp hx]
    exact Or.inr trivial
  · simp only [yields_bind, yields_pure]
    refine (newReference_makes _ _ _ _).mono ?_
    intro r s₄ h₄
    exact (h₃.trans h₄).wrap trivial

def MakesFields (s s' : State) (keys : List SymbolId) (values : List Expr) : Prop :=
  Makes s s' (Expr.mentionsOfAll values ++ keys.map .property) (Expr.nodesOfAll values) ∧
    values.length = keys.length

/-- What the mutually recursive parsers of expressions make, for some fuel.  A parser that
is handed what was made before it adds to that. -/
structure ExprMakes (fuel : Nat) : Prop where
  binary : ∀ level s, Yields (binary fuel level) s fun e s' => MakesExpr s s' e
  binaryRest : ∀ level left s₀ s, MakesExpr s₀ s left →
    Yields (binaryRest fuel level left) s fun e s' => MakesExpr s₀ s' e
  unary : ∀ s, Yields (unary fuel) s fun e s' => MakesExpr s s' e
  postfixed : ∀ x s₀ s, MakesExpr s₀ s x →
    Yields (postfixed fuel x) s fun e s' => MakesExpr s₀ s' e
  args : ∀ seen s₀ s, MakesExprs s₀ s seen →
    Yields (args fuel seen) s fun es s' => MakesExprs s₀ s' es
  primary : ∀ s, Yields (primary fuel) s fun e s' => MakesExpr s s' e
  fields : ∀ keys values s₀ s, MakesFields s₀ s keys values →
    Yields (fields fuel keys values) s fun r s' => MakesFields s₀ s' r.1 r.2

theorem nodesOfAll_append (a b : List Expr) :
    Expr.nodesOfAll (a ++ b) = Expr.nodesOfAll a ++ Expr.nodesOfAll b := by
  induction a with
  | nil => rfl
  | cons e rest ih => simp [Expr.nodesOfAll, ih]

theorem MakesExprs.snoc {es : List Expr} {e : Expr} (h : MakesExprs s s' es)
    (h' : MakesExpr s' s'' e) : MakesExprs s s'' (es ++ [e]) := by
  have hboth := h.trans h'
  simpa [MakesExprs, mentionsOfAll_append, nodesOfAll_append, Expr.mentionsOfAll,
    Expr.nodesOfAll] using hboth

theorem exprMakes_zero : ExprMakes 0 := by
  constructor <;> intros <;>
    simp only [Parser.binary, Parser.binaryRest, Parser.unary, Parser.postfixed, Parser.args,
      Parser.primary, Parser.fields, yields_bind, yields_peek, yields_failAt]

variable {fuel : Nat} {s₀ : State}

theorem ExprMakes.binary_succ (h : ExprMakes fuel) (level : Nat) :
    Yields (Parser.binary (fuel + 1) level) s fun e s' => MakesExpr s s' e := by
  rw [Parser.binary]
  split
  · exact h.unary s
  · rw [yields_bind]
    refine (h.binary (level + 1) s).mono ?_
    intro left s' hleft
    exact h.binaryRest level left s s' hleft

theorem ExprMakes.binaryRest_succ (h : ExprMakes fuel) (level : Nat) {left : Expr}
    (hleft : MakesExpr s₀ s left) :
    Yields (Parser.binaryRest (fuel + 1) level left) s fun e s' => MakesExpr s₀ s' e := by
  rw [Parser.binaryRest]
  simp only [nextOperator?, yields_bind, yields_peek]
  split
  · simp only [yields_pure]
    split
    · simpa only [yields_pure] using hleft
    · simp only [yields_bind]
      refine advance_makes.mono ?_
      intro sign s₁ h₁
      refine (h.binary (level + 1) s₁).mono ?_
      intro right s₂ hright
      have hboth := (hleft.skipped h₁).trans hright
      exact h.binaryRest level _ s₀ s₂ (hboth.wrap trivial)
  · simpa only [yields_pure] using hleft

theorem ExprMakes.unary_succ (h : ExprMakes fuel) :
    Yields (Parser.unary (fuel + 1)) s fun e s' => MakesExpr s s' e := by
  rw [Parser.unary]
  simp only [yields_bind, yields_peek]
  split
  · simp only [yields_bind, yields_pure]
    refine advance_makes.mono ?_
    intro sign s₁ h₁
    refine (h.unary s₁).mono ?_
    intro x s₂ hx
    exact (h₁.trans hx).wrap trivial
  · simp only [yields_bind]
    refine (h.primary s).mono ?_
    intro x s₁ hx
    exact h.postfixed x s s₁ hx

theorem ExprMakes.postfixed_succ (h : ExprMakes fuel) {x : Expr} (hx : MakesExpr s₀ s x) :
    Yields (Parser.postfixed (fuel + 1) x) s fun e s' => MakesExpr s₀ s' e := by
  rw [Parser.postfixed]
  simp only [yields_bind, yields_peek]
  split
  · simp only [yields_bind, yields_skip]
    have hdot := hx.skipped (makes_skip s)
    refine (expect_makes _).mono ?_
    intro name s₁ hname
    refine (newProperty_makes _).mono ?_
    intro property s₂ hproperty
    have hmember := (hdot.skipped hname).trans hproperty
    rw [List.append_nil] at hmember
    exact h.postfixed _ s₀ s₂ (hmember.wrap rfl)
  · simp only [yields_bind]
    refine advance_makes.mono ?_
    intro paren s₁ hparen
    refine (h.args [] s₁ s₁ (makes_refl s₁)).mono ?_
    intro args s₂ hargs
    have hcall := (hx.skipped hparen).trans hargs
    exact h.postfixed _ s₀ s₂ (hcall.wrap trivial)
  · simpa only [yields_pure] using hx

theorem ExprMakes.args_succ (h : ExprMakes fuel) {seen : List Expr}
    (hseen : MakesExprs s₀ s seen) :
    Yields (Parser.args (fuel + 1) seen) s fun es s' => MakesExprs s₀ s' es := by
  have hnext : ∀ s₁, MakesExprs s₀ s₁ seen →
      Yields (do let arg ← Parser.binary fuel 0; Parser.args fuel (seen ++ [arg])) s₁
        fun es s' => MakesExprs s₀ s' es := by
    intro s₁ h₁
    rw [yields_bind]
    refine (h.binary 0 s₁).mono ?_
    intro arg s₂ harg
    exact h.args _ s₀ s₂ (MakesExprs.snoc h₁ harg)
  rw [Parser.args]
  simp only [yields_bind]
  refine (accept_makes _).mono ?_
  intro closed s₁ h₁
  replace h₁ := hseen.skipped h₁
  split
  · simpa only [yields_pure] using h₁
  · split
    · simp only [yields_bind]
      refine (expect_makes _).mono ?_
      intro comma s₂ hcomma
      simpa only [yields_bind] using hnext s₂ (h₁.skipped hcomma)
    · simpa only [yields_bind] using hnext s₁ h₁

theorem ExprMakes.fields_succ (h : ExprMakes fuel) {keys : List SymbolId} {values : List Expr}
    (hseen : MakesFields s₀ s keys values) :
    Yields (Parser.fields (fuel + 1) keys values) s fun r s' => MakesFields s₀ s' r.1 r.2 := by
  obtain ⟨hseen, hpaired⟩ := hseen
  rw [Parser.fields]
  simp only [yields_bind]
  refine (accept_makes _).mono ?_
  intro closed s₁ h₁
  replace h₁ := hseen.skipped h₁
  split
  · simpa only [yields_pure] using ⟨h₁, hpaired⟩
  · simp only [yields_bind]
    refine (expect_makes _).mono ?_
    intro key s₂ h₂
    replace h₂ := h₁.skipped h₂
    refine (expect_makes _).mono ?_
    intro colon s₃ h₃
    replace h₃ := h₂.skipped h₃
    refine (h.binary 0 s₃).mono ?_
    intro value s₄ hvalue
    refine (newProperty_makes _).mono ?_
    intro property s₅ hproperty
    refine (accept_makes _).mono ?_
    intro comma s₆ hcomma
    have hfield := ((h₃.trans hvalue).trans hproperty).skipped hcomma
    apply h.fields
    refine ⟨hfield.arrange ?_ ?_, by rw [List.length_append, List.length_append, hpaired]; rfl⟩
    · -- The keys so far stand before the new value here, and behind it in the object.
      simp only [mentionsOfAll_append, Expr.mentionsOfAll, List.append_nil, List.map_append,
        List.map_cons, List.map_nil, List.append_assoc]
      apply List.Perm.append_left
      rw [← List.append_assoc, ← List.append_assoc]
      exact List.perm_append_comm.append_right _
    · intro x hx
      simp only [nodesOfAll_append, Expr.nodesOfAll, List.append_nil] at hx ⊢
      exact Or.inl hx

theorem ExprMakes.primary_succ (h : ExprMakes fuel) :
    Yields (Parser.primary (fuel + 1)) s fun e s' => MakesExpr s s' e := by
  have hleaf : ∀ e : Expr, e.mentions.filterMap Mention.symbol? = [] →
      e.mentions.filterMap Mention.reference? = [] → (∀ x ∈ e.nodes, x.Plain (Worded s)) →
      Yields (do skip; pure e : Parser Expr) s fun e s' => MakesExpr s s' e := by
    intro e hsymbols hreferences hplain
    simp only [yields_bind, yields_skip, yields_pure]
    refine ⟨List.tail_suffix _, ?_, ?_, hplain⟩
    · rw [hsymbols]
      exact .nil _
    · rw [hreferences]
      exact .nil _
  have hsingle : ∀ e : Expr, e.nodes = [e] → e.Plain (Worded s) →
      ∀ x ∈ e.nodes, x.Plain (Worded s) := by
    intro e hnodes hplain x hx
    rw [hnodes] at hx
    rw [List.mem_singleton.mp hx]
    exact hplain
  rw [Parser.primary]
  simp only [yields_bind, yields_peek]
  split
  · exact hleaf _ rfl rfl (hsingle _ rfl trivial)
  · exact hleaf _ rfl rfl (hsingle _ rfl trivial)
  · exact hleaf _ rfl rfl (hsingle _ rfl trivial)
  · exact hleaf _ rfl rfl (hsingle _ rfl trivial)
  · exact hleaf _ rfl rfl (hsingle _ rfl trivial)
  · simp only [startsImported, yields_bind, yields_get, yields_pure]
    split
    · exact importedName_makes
    · exact hleaf _ rfl rfl (hsingle _ rfl rfl)
  · simp only [yields_bind, yields_skip, yields_pure]
    refine expect_identifier_makes.mono ?_
    rintro name s₁ ⟨hname, hword⟩
    refine (expect_makes _).mono ?_
    intro paren s₂ hparen
    refine (h.args [] s₂ s₂ (makes_refl s₂)).mono ?_
    intro args s₃ hargs
    have hdollar := makes_skip s
    have hcall := ((hdollar.skipped hname).skipped hparen).trans hargs
    exact hcall.wrap fun hs => hword (hdollar.worded hs)
  · simp only [yields_bind, yields_skip, yields_pure]
    refine (h.binary 0 _).mono ?_
    intro x s₁ hx
    refine (expect_makes _).mono ?_
    intro close s₂ hclose
    exact ((makes_skip s).trans hx).skipped hclose
  · simp only [yields_bind, yields_skip, yields_pure]
    refine (h.fields [] [] s _ ⟨makes_skip s, rfl⟩).mono ?_
    rintro ⟨keys, values⟩ s₁ ⟨hfields, hpaired⟩
    exact hfields.wrap hpaired
  · simp

/-- Every symbol and reference that is made up for an expression is mentioned in it. -/
theorem exprMakes (fuel : Nat) : ExprMakes fuel := by
  induction fuel with
  | zero => exact exprMakes_zero
  | succ fuel ih =>
      constructor
      · exact fun level s => ih.binary_succ level
      · exact fun level left s₀ s hleft => ih.binaryRest_succ level hleft
      · exact fun s => ih.unary_succ
      · exact fun x s₀ s hx => ih.postfixed_succ hx
      · exact fun seen s₀ s hseen => ih.args_succ hseen
      · exact fun s => ih.primary_succ
      · exact fun keys values s₀ s hseen => ih.fields_succ hseen

theorem expression_makes (fuel : Nat) :
    Yields (expression fuel) s fun e s' => MakesExpr s s' e :=
  (exprMakes fuel).binary 0 s

theorem newAlias_makes : Yields newAlias s fun _ s' => Makes s s' [] [] := by
  simp only [newAlias, yields_bind, yields_get, yields_set, yields_pure]
  exact ⟨List.suffix_rfl, .nil _, .nil _, List.forall_mem_nil _⟩

theorem declare_makes (d : Declaration) : Yields (declare d) s fun _ s' => Makes s s' [] [] := by
  simp only [declare, yields_modify]
  exact ⟨List.suffix_rfl, .nil _, .nil _, List.forall_mem_nil _⟩

theorem addImport_makes (qualifier path : Text) (offset : Nat) :
    Yields (addImport qualifier path offset) s fun _ s' => Makes s s' [] [] := by
  simp only [addImport, yields_bind, yields_get]
  split
  · simp
  · simp only [yields_set]
    exact ⟨List.suffix_rfl, .nil _, .nil _, List.forall_mem_nil _⟩

abbrev MakesStmt (s s' : State) (st : Stmt) : Prop :=
  Makes s s' st.mentions st.exprs

abbrev MakesStmts (s s' : State) (ss : List Stmt) : Prop :=
  Makes s s' (Stmt.mentionsOfAll ss) (Stmt.exprsOfAll ss)

theorem importStatement_makes : Yields importStatement s fun st s' => MakesStmt s s' st := by
  simp only [importStatement, yields_bind, yields_peek]
  refine advance_makes.mono ?_
  intro start s₁ h₁
  split
  · simp only [yields_bind, yields_pure]
    refine advance_makes.mono ?_
    intro path s₂ h₂
    refine newAlias_makes.mono ?_
    intro qualifier s₃ h₃
    refine (addImport_makes _ _ _).mono ?_
    intro _ s₄ h₄
    exact ((h₁.trans h₂).trans h₃).trans h₄
  · simp only [yields_bind, yields_pure]
    refine (expect_makes _).mono ?_
    intro qualifier s₂ h₂
    refine (expect_makes _).mono ?_
    intro from_ s₃ h₃
    refine (expect_makes _).mono ?_
    intro path s₄ h₄
    refine (addImport_makes _ _ _).mono ?_
    intro _ s₅ h₅
    exact (((h₁.trans h₂).trans h₃).trans h₄).trans h₅

theorem entryValue_makes : Yields entryValue s fun _ s' => Makes s s' [] [] := by
  simp only [entryValue, yields_bind]
  refine (accept_makes _).mono ?_
  intro assigned s₁ h₁
  split
  · simp only [yields_bind, yields_pure]
    refine (accept_makes _).mono ?_
    intro negative s₂ h₂
    refine (expect_makes _).mono ?_
    intro number s₃ h₃
    exact (h₁.trans h₂).trans h₃
  · simpa only [yields_pure] using h₁

theorem entries_makes (enum : Text) (fuel : Nat) (seen : List Text) :
    Yields (entries enum fuel seen) s fun _ s' => Makes s s' [] [] := by
  induction fuel generalizing s seen with
  | zero => simp only [entries, yields_bind, yields_peek, yields_failAt]
  | succ fuel ih =>
      rw [entries]
      simp only [yields_bind]
      refine (accept_makes _).mono ?_
      intro closed s₁ h₁
      split
      · simpa only [yields_pure] using h₁
      · simp only [yields_bind]
        refine (expect_makes _).mono ?_
        intro name s₂ h₂
        refine entryValue_makes.mono ?_
        intro value s₃ h₃
        split
        · simp
        · simp only [yields_bind]
          refine (declare_makes _).mono ?_
          intro _ s₄ h₄
          refine (accept_makes _).mono ?_
          intro comma s₅ h₅
          have hentry := (((h₁.trans h₂).trans h₃).trans h₄).trans h₅
          refine (ih _).mono ?_
          intro names s₆ hrest
          exact hentry.trans hrest

theorem enumStatement_makes : Yields enumStatement s fun st s' => MakesStmt s s' st := by
  simp only [enumStatement, yields_bind, yields_get]
  refine advance_makes.mono ?_
  intro start s₁ h₁
  refine (expect_makes _).mono ?_
  intro name s₂ h₂
  split
  · simp
  · simp only [yields_bind, yields_modify, yields_get, yields_pure]
    have hdeclared : Makes s₂ { s₂ with
        enums := name.text :: s₂.enums
        declared := .enum name.text name.offset :: s₂.declared } [] [] :=
      ⟨List.suffix_rfl, .nil _, .nil _, List.forall_mem_nil _⟩
    refine (expect_makes _).mono ?_
    intro brace s₃ h₃
    refine (entries_makes _ _ _).mono ?_
    intro names s₄ h₄
    exact (((h₁.trans h₂).trans hdeclared).trans h₃).trans h₄

theorem retainedNames_makes (fuel : Nat) (seen : List Text) :
    Yields (retainedNames fuel seen) s fun _ s' => Makes s s' [] [] := by
  induction fuel generalizing s seen with
  | zero => simp only [retainedNames, yields_bind, yields_peek, yields_failAt]
  | succ fuel ih =>
      rw [retainedNames]
      simp only [yields_bind]
      refine (expect_makes _).mono ?_
      intro name s₁ h₁
      refine (declare_makes _).mono ?_
      intro _ s₂ h₂
      refine (accept_makes _).mono ?_
      intro comma s₃ h₃
      have hname := (h₁.trans h₂).trans h₃
      split
      · refine (ih _).mono ?_
        intro names s₄ hrest
        exact hname.trans hrest
      · rw [yields_pure]
        exact hname

theorem retainStatement_makes : Yields retainStatement s fun st s' => MakesStmt s s' st := by
  simp only [retainStatement, yields_bind, yields_get, yields_pure]
  refine advance_makes.mono ?_
  intro start s₁ h₁
  refine (retainedNames_makes _ _).mono ?_
  intro names s₂ h₂
  exact h₁.trans h₂

theorem params_makes (fuel : Nat) (seen : List Param) {s₀ : State}
    (hseen : Makes s₀ s (paramMentions seen) []) :
    Yields (params fuel seen) s fun ps s' => Makes s₀ s' (paramMentions ps) [] := by
  induction fuel generalizing s seen with
  | zero => simp only [params, yields_bind, yields_peek, yields_failAt]
  | succ fuel ih =>
      have hnext : ∀ s₁, Makes s₀ s₁ (paramMentions seen) [] →
          Yields (do
            let name ← expect .identifier
            let symbol ← newSymbol name.text
            params fuel (seen ++ [⟨name.text, symbol⟩])) s₁ fun ps s' =>
              Makes s₀ s' (paramMentions ps) [] := by
        intro s₁ h₁
        simp only [yields_bind]
        refine (expect_makes _).mono ?_
        intro name s₂ h₂
        refine (newSymbol_makes _).mono ?_
        intro symbol s₃ h₃
        apply ih
        have hparam := (h₁.skipped h₂).trans h₃
        simpa [paramMentions] using hparam
      rw [params]
      simp only [yields_bind]
      refine (accept_makes _).mono ?_
      intro closed s₁ h₁
      replace h₁ := hseen.skipped h₁
      split
      · simpa only [yields_pure] using h₁
      · split
        · simp only [yields_bind]
          refine (expect_makes _).mono ?_
          intro comma s₂ h₂
          simpa only [yields_bind] using hnext s₂ (h₁.skipped h₂)
        · simpa only [yields_bind] using hnext s₁ h₁

/-! ## Statements -/

theorem letStatement_makes (fuel : Nat) :
    Yields (letStatement fuel) s fun st s' => MakesStmt s s' st := by
  simp only [letStatement, yields_bind, yields_pure]
  refine advance_makes.mono ?_
  intro start s₁ h₁
  refine (expect_makes _).mono ?_
  intro name s₂ h₂
  refine (expect_makes _).mono ?_
  intro sign s₃ h₃
  refine (expression_makes fuel).mono ?_
  intro value s₄ hvalue
  refine (newSymbol_makes _).mono ?_
  intro symbol s₅ hsymbol
  have hlet := (((h₁.trans h₂).trans h₃).trans hvalue).trans hsymbol
  simpa [MakesStmt, Stmt.mentions, Stmt.exprs, Stmt.values] using hlet

theorem returnStatement_makes (fuel : Nat) :
    Yields (returnStatement fuel) s fun st s' => MakesStmt s s' st := by
  simp only [returnStatement, yields_bind, yields_peek]
  refine advance_makes.mono ?_
  intro start s₁ h₁
  split
  · rw [yields_pure]
    exact h₁
  · rw [yields_pure]
    exact h₁
  · rw [yields_pure]
    exact h₁
  · simp only [yields_bind, yields_pure]
    refine (expression_makes fuel).mono ?_
    intro value s₂ hvalue
    simpa [MakesStmt, Stmt.mentions, Stmt.exprs, Stmt.values] using h₁.trans hvalue

theorem simpleStatement_makes (fuel : Nat) :
    Yields (simpleStatement fuel) s fun st s' => MakesStmt s s' st := by
  refine yields_simpleStatement_of ((expression_makes fuel).mono ?_)
  intro x s₁ hx spelling
  simp only [simpleRest, yields_bind, yields_peek]
  split
  · simp only [yields_pure]
    simpa [MakesStmt, Stmt.mentions, Stmt.exprs, Stmt.values] using hx
  · simp only [yields_bind]
    refine advance_makes.mono ?_
    intro sign s₂ hsign
    refine (expression_makes fuel).mono ?_
    intro value s₃ hvalue
    have hboth := (hx.skipped hsign).trans hvalue
    split
    · next offset name read =>
        simp only [yields_bind, yields_pure]
        refine (newSymbol_makes _).mono ?_
        intro symbol s₄ hsymbol
        -- Nothing was made up for the name that is assigned.
        obtain rfl : read = .unbound := hx.plain _ (List.mem_singleton_self _)
        have hassign := hboth.trans hsymbol
        refine ⟨hassign.rest, hassign.symbols, hassign.references, ?_⟩
        intro y hy
        apply hassign.plain
        simpa [Expr.nodes, Stmt.exprs, Stmt.values] using Or.inr hy
    · next offset target name property entry =>
        simp only [yields_pure]
        apply hboth.arrange
        · simp only [Stmt.mentions, Expr.mentions, List.append_assoc]
          exact List.Perm.append_left _ List.perm_append_comm
        · intro y hy
          left
          simp only [Stmt.exprs_setMember, Expr.nodes, List.cons_append, List.mem_cons,
            List.mem_append] at hy ⊢
          exact Or.inr hy
    · simp
    · simp

theorem MakesStmts.snoc {ss : List Stmt} {st : Stmt} (h : MakesStmts s s' ss)
    (h' : MakesStmt s' s'' st) : MakesStmts s s'' (ss ++ [st]) := by
  have hboth := h.trans h'
  simpa [MakesStmts, stmtMentions_append, Stmt.valuesOfAll_append, Stmt.mentionsOfAll,
    Stmt.valuesOfAll, Stmt.exprs, Stmt.exprsOfAll] using hboth

/-- What the mutually recursive parsers of statements make, for some fuel. -/
structure StmtMakes (fuel : Nat) : Prop where
  statement : ∀ top s, Yields (statement fuel top) s fun st s' => MakesStmt s s' st
  fnStatement : ∀ s, Yields (fnStatement fuel) s fun st s' => MakesStmt s s' st
  ifStatement : ∀ s, Yields (ifStatement fuel) s fun st s' => MakesStmt s s' st
  block : ∀ s, Yields (block fuel) s fun ss s' => MakesStmts s s' ss
  blockRest : ∀ start seen s₀ s, MakesStmts s₀ s seen →
    Yields (blockRest fuel start seen) s fun ss s' => MakesStmts s₀ s' ss

theorem stmtMakes_zero : StmtMakes 0 := by
  constructor <;> intros <;>
    simp only [Parser.statement, Parser.fnStatement, Parser.ifStatement, Parser.block,
      Parser.blockRest, yields_bind, yields_peek, yields_failAt]

theorem StmtMakes.statement_succ (h : StmtMakes fuel) (top : Bool) :
    Yields (Parser.statement (fuel + 1) top) s fun st s' => MakesStmt s s' st := by
  rw [Parser.statement]
  simp only [yields_bind, yields_peek]
  split
  · exact Yields.ite importStatement_makes (yields_failAt _ _)
  · exact Yields.ite enumStatement_makes (yields_failAt _ _)
  · exact letStatement_makes fuel
  · exact h.fnStatement s
  · exact retainStatement_makes
  · exact returnStatement_makes fuel
  · exact h.ifStatement s
  · simp only [yields_bind, yields_pure]
    exact h.block s
  · exact simpleStatement_makes fuel

theorem StmtMakes.block_succ (h : StmtMakes fuel) :
    Yields (Parser.block (fuel + 1)) s fun ss s' => MakesStmts s s' ss := by
  rw [Parser.block]
  simp only [yields_bind]
  refine (expect_makes _).mono ?_
  intro start s₁ h₁
  refine skipSemicolons_makes.mono ?_
  intro _ s₂ h₂
  exact h.blockRest start [] s s₂ (h₁.trans h₂)

theorem StmtMakes.blockRest_succ (h : StmtMakes fuel) (start : Token) {seen : List Stmt}
    (hseen : MakesStmts s₀ s seen) :
    Yields (Parser.blockRest (fuel + 1) start seen) s fun ss s' => MakesStmts s₀ s' ss := by
  rw [Parser.blockRest]
  simp only [yields_bind]
  refine (accept_makes _).mono ?_
  intro closed s₁ h₁
  replace h₁ := hseen.skipped h₁
  split
  · rw [yields_pure]
    exact h₁
  · simp only [yields_bind, yields_peek]
    split
    · simp
    · simp only [yields_bind]
      refine (h.statement false s₁).mono ?_
      intro st s₂ hst
      refine skipSemicolons_makes.mono ?_
      intro _ s₃ h₃
      exact h.blockRest start _ s₀ s₃ ((MakesStmts.snoc h₁ hst).skipped h₃)

theorem StmtMakes.fnStatement_succ (h : StmtMakes fuel) :
    Yields (Parser.fnStatement (fuel + 1)) s fun st s' => MakesStmt s s' st := by
  rw [Parser.fnStatement]
  simp only [yields_bind, yields_get, yields_peek]
  refine advance_makes.mono ?_
  intro start s₁ h₁
  refine (expect_makes _).mono ?_
  intro name s₂ h₂
  refine (newSymbol_makes _).mono ?_
  intro symbol s₃ hsymbol
  refine (expect_makes _).mono ?_
  intro paren s₄ h₄
  have hhead := ((h₁.trans h₂).trans hsymbol).skipped h₄
  refine (params_makes _ [] (makes_refl s₄)).mono ?_
  intro ps s₅ hparams
  split
  · simp
  · simp only [yields_bind, yields_pure]
    refine (h.block s₅).mono ?_
    intro body s₆ hbody
    have hfn := (hhead.trans hparams).trans hbody
    simpa [MakesStmt, Stmt.mentions, Stmt.exprs, Stmt.exprsOfAll, Stmt.values, paramMentions]
      using hfn

theorem StmtMakes.ifStatement_succ (h : StmtMakes fuel) :
    Yields (Parser.ifStatement (fuel + 1)) s fun st s' => MakesStmt s s' st := by
  rw [Parser.ifStatement]
  simp only [yields_bind, yields_peek]
  refine advance_makes.mono ?_
  intro start s₁ h₁
  refine (expression_makes fuel).mono ?_
  intro condition s₂ hcondition
  split
  · simp
  · simp only [yields_bind]
    refine (h.block s₂).mono ?_
    intro body s₃ hbody
    refine (accept_makes _).mono ?_
    intro other s₄ h₄
    have hthen := ((h₁.trans hcondition).trans hbody).skipped h₄
    split
    · simp only [yields_bind, yields_peek]
      split
      · simp only [yields_bind, yields_pure]
        refine (h.ifStatement s₄).mono ?_
        intro st s₅ hst
        simpa [MakesStmt, Stmt.mentions, Stmt.mentionsOfElse, Stmt.exprs_if, Stmt.exprsOfElse,
          Stmt.valuesOfElse, Stmt.exprs, Stmt.exprsOfAll, Stmt.values]
          using hthen.trans hst
      · simp only [yields_bind, yields_pure]
        refine (h.block s₄).mono ?_
        intro ss s₅ hss
        simpa [MakesStmt, Stmt.mentions, Stmt.mentionsOfElse, Stmt.exprs_if, Stmt.exprsOfElse,
          Stmt.valuesOfElse, Stmt.exprs, Stmt.exprsOfAll, Stmt.values]
          using hthen.trans hss
      · simp
    · simp only [yields_pure]
      simpa [MakesStmt, Stmt.mentions, Stmt.mentionsOfElse, Stmt.exprs_if, Stmt.exprsOfElse,
          Stmt.valuesOfElse, Stmt.exprs, Stmt.exprsOfAll, Stmt.values]
        using hthen

theorem stmtMakes (fuel : Nat) : StmtMakes fuel := by
  induction fuel with
  | zero => exact stmtMakes_zero
  | succ fuel ih =>
      constructor
      · exact fun top s => ih.statement_succ top
      · exact fun s => ih.fnStatement_succ
      · exact fun s => ih.ifStatement_succ
      · exact fun s => ih.block_succ
      · exact fun start seen s₀ s hseen => ih.blockRest_succ start hseen

theorem fileRest_makes (fuel : Nat) {seen : List Stmt} (hseen : MakesStmts s₀ s seen) :
    Yields (fileRest fuel seen) s fun ss s' => MakesStmts s₀ s' ss := by
  induction fuel generalizing s seen with
  | zero => simp only [fileRest, yields_bind, yields_peek, yields_failAt]
  | succ fuel ih =>
      rw [fileRest]
      simp only [yields_bind, yields_peek]
      split
      · rw [yields_pure]
        exact hseen
      · simp only [yields_bind]
        refine ((stmtMakes fuel).statement true s).mono ?_
        intro st s₁ hst
        refine skipSemicolons_makes.mono ?_
        intro _ s₂ h₂
        exact ih ((MakesStmts.snoc hseen hst).skipped h₂)

/-- A whole file. -/
theorem file_makes : Yields file s fun ss s' => MakesStmts s s' ss := by
  simp only [file, yields_bind, yields_get]
  refine skipSemicolons_makes.mono ?_
  intro _ s₁ h₁
  exact fileRest_makes _ h₁

end

end Parser

namespace Program

/-- The nodes of a source that was read. -/
theorem parseStatements_plain (n : NamespaceId) (p : Program) :
    Yields (parseStatements n) p fun ss _ => ∀ x ∈ Stmt.exprsOfAll ss, x.Plain True := by
  simp only [parseStatements, yields_bind, yields_get]
  split
  · simp
  · next tokens htokens =>
      have hworded : Parser.Worded (p.parserState n tokens) := fun t ht =>
        SourceUnit.isWord_of_mem_tokens htokens t (List.dropLast_subset _ ht)
      split
      · next statements s hrun =>
          simp only [yields_bind, yields_set, yields_pure]
          intro x hx
          exact ((Parser.file_makes statements s hrun).plain x hx).mono fun _ => hworded
      · simp

/-- The symbols and references that stand in the statements of a source are numbered on
from those of the program. -/
theorem parseStatements_counts {n : NamespaceId} {p : Program} (hp : p.Pristine)
    (hn : n < p.namespaces.size) :
    Yields (parseStatements n) p fun ss p' =>
      (∃ ds, p' = p.enact n ds) ∧
      Counts ((Stmt.mentionsOfAll ss).filterMap Mention.symbol?) p.symbols.size p'.symbols.size ∧
      Counts ((Stmt.mentionsOfAll ss).filterMap Mention.reference?) p.references.size
        p'.references.size := by
  simp only [parseStatements, yields_bind, yields_get]
  split
  · simp
  · next tokens htokens =>
      have hstart := good_parserState hp hn htokens
      split
      · next statements s hrun =>
          simp only [yields_bind, yields_set, yields_pure]
          have hsynced := (Parser.yields_file hstart statements s hrun).synced
          have hmakes := Parser.file_makes statements s hrun
          have hsymbols := hmakes.symbols
          have hreferences := hmakes.references
          rw [hsynced.symbol] at hsymbols
          rw [hsynced.reference] at hreferences
          exact ⟨⟨_, rfl⟩, hsymbols, hreferences⟩
      · simp

/-! ## Binding -/

/-- Mentions are replaced one by one while declarations of the namespace are carried out.
What the new mentions have that the old ones had not is numbered on. -/
structure Numbers (n : NamespaceId) (p p' : Program) (before after : List Mention) : Prop where
  enacts : ∃ ds, p' = p.enact n ds
  symbols : ∃ new, Counts new p.symbols.size p'.symbols.size ∧
    (after.filterMap Mention.symbol?).Perm (before.filterMap Mention.symbol? ++ new)
  references : ∃ new, Counts new p.references.size p'.references.size ∧
    (after.filterMap Mention.reference?).Perm (before.filterMap Mention.reference? ++ new)

section

variable {n : NamespaceId} {p p' p'' : Program}

theorem Numbers.refl (p : Program) (ms : List Mention) : Numbers n p p ms ms where
  enacts := ⟨[], rfl⟩
  symbols := ⟨[], .nil _, by rw [List.append_nil]⟩
  references := ⟨[], .nil _, by rw [List.append_nil]⟩

theorem perm_append_append {α : Type} {a a' b b' new new' : List α} (h : a'.Perm (a ++ new))
    (h' : b'.Perm (b ++ new')) : (a' ++ b').Perm (a ++ b ++ (new ++ new')) := by
  refine (h.append h').trans ?_
  rw [List.append_assoc, List.append_assoc, ← List.append_assoc new b, ← List.append_assoc b new]
  exact (List.Perm.append_right new' List.perm_append_comm).append_left a

theorem Numbers.append {a a' b b' : List Mention} (h : Numbers n p p' a a')
    (h' : Numbers n p' p'' b b') : Numbers n p p'' (a ++ b) (a' ++ b') where
  enacts := by
    obtain ⟨ds, rfl⟩ := h.enacts
    obtain ⟨ds', rfl⟩ := h'.enacts
    exact ⟨ds ++ ds', (enact_append p n ds ds').symm⟩
  symbols := by
    obtain ⟨new, hcounts, hperm⟩ := h.symbols
    obtain ⟨new', hcounts', hperm'⟩ := h'.symbols
    refine ⟨new ++ new', hcounts.append hcounts', ?_⟩
    rw [List.filterMap_append, List.filterMap_append]
    exact perm_append_append hperm hperm'
  references := by
    obtain ⟨new, hcounts, hperm⟩ := h.references
    obtain ⟨new', hcounts', hperm'⟩ := h'.references
    refine ⟨new ++ new', hcounts.append hcounts', ?_⟩
    rw [List.filterMap_append, List.filterMap_append]
    exact perm_append_append hperm hperm'

theorem symbols_size_addSymbol (p : Program) (n : NamespaceId) (name : Text) :
    (p.addSymbol n name).2.symbols.size = p.symbols.size + 1 :=
  Array.size_push _

/-- A name that is bound has a new symbol or a new reference, or it is an enum. -/
theorem bindName_numbers (visible : List Text) (member : Text) (o : Nat) (text : Text)
    (p : Program) :
    Numbers n p (bindName n visible member o text p).2 [.name o text .unbound]
      [.name o text (bindName n visible member o text p).1] := by
  rw [bindName_eq]
  split
  · refine ⟨⟨[.symbol text], rfl⟩, ⟨[p.symbols.size], ?_, List.Perm.refl _⟩,
      ⟨[], .nil _, List.Perm.refl _⟩⟩
    rw [symbols_size_addSymbol]
    exact .singleton _
  · split
    · exact Numbers.refl p _
    · refine ⟨⟨[.reference [] text member o], rfl⟩, ⟨[], .nil _, List.Perm.refl _⟩,
        ⟨[p.references.size], ?_, List.Perm.refl _⟩⟩
      rw [size_addReference]
      exact .singleton _

mutual

theorem bindExpr_numbers (visible : List Text) (e : Expr) (p : Program)
    (h : ∀ m ∈ e.mentions, m.Parsed) :
    Numbers n p (bindExpr n visible e p).2 e.mentions (bindExpr n visible e p).1.mentions := by
  cases e with
  | name o text read =>
      rw [show read = .unbound from h _ List.mem_cons_self, bindExpr]
      exact bindName_numbers visible [] o text p
  | member o x name q entry =>
      have hx := (List.forall_mem_append.mp h).1
      by_cases hname : ∃ o text read, x = .name o text read
      · obtain ⟨at_, target, read, rfl⟩ := hname
        rw [bindExpr_member_name, show read = .unbound from hx _ List.mem_cons_self]
        exact (bindName_numbers visible name at_ target p).append (.refl _ _)
      · rw [bindExpr_member n visible p (fun o text read h => hname ⟨o, text, read, h⟩)]
        exact (bindExpr_numbers visible x p hx).append (.refl _ _)
  | call o callee args =>
      have hparts := List.forall_mem_append.mp h
      rw [bindExpr_call]
      exact (bindExpr_numbers visible callee p hparts.1).append
        (bindExprs_numbers visible args _ hparts.2)
  | syscall o name args =>
      rw [bindExpr_syscall]
      exact bindExprs_numbers visible args p h
  | object o keys values =>
      rw [bindExpr_object]
      exact (bindExprs_numbers visible values p (List.forall_mem_append.mp h).1).append (.refl _ _)
  | binary o op left right =>
      have hparts := List.forall_mem_append.mp h
      rw [bindExpr_binary]
      exact (bindExpr_numbers visible left p hparts.1).append
        (bindExpr_numbers visible right _ hparts.2)
  | unary o op x =>
      rw [bindExpr_unary]
      exact bindExpr_numbers visible x p h
  | number o v => rw [bindExpr]; exact .refl _ _
  | string o v => rw [bindExpr]; exact .refl _ _
  | bool o v => rw [bindExpr]; exact .refl _ _
  | nil o => rw [bindExpr]; exact .refl _ _
  | imported o r m f => rw [bindExpr]; exact .refl _ _

theorem bindExprs_numbers (visible : List Text) (es : List Expr) (p : Program)
    (h : ∀ m ∈ Expr.mentionsOfAll es, m.Parsed) :
    Numbers n p (bindExprs n visible es p).2 (Expr.mentionsOfAll es)
      (Expr.mentionsOfAll (bindExprs n visible es p).1) := by
  cases es with
  | nil => rw [bindExprs]; exact .refl _ _
  | cons x rest =>
      have hparts := List.forall_mem_append.mp h
      rw [bindExprs_cons]
      exact (bindExpr_numbers visible x p hparts.1).append
        (bindExprs_numbers visible rest _ hparts.2)

end

mutual

theorem bindStmt_numbers (visible : List Text) (s : Stmt) (p : Program)
    (h : ∀ m ∈ s.mentions, m.Parsed) :
    Numbers n p (bindStmt n visible s p).2 s.mentions (bindStmt n visible s p).1.mentions := by
  cases s with
  | let_ o name sym v u =>
      rw [bindStmt_let]
      exact (bindExpr_numbers visible v p (List.forall_mem_append.mp h).1).append (.refl _ _)
  | fn o name sym params bo body u =>
      rw [bindStmt_fn]
      exact (Numbers.refl p _).append
        (bindStmts_numbers _ body p (List.forall_mem_append.mp h).2)
  | assign o name sym v u =>
      rw [bindStmt_assign]
      exact (bindExpr_numbers visible v p (List.forall_mem_append.mp h).1).append (.refl _ _)
  | setMember o target q v =>
      have hparts := List.forall_mem_append.mp (List.forall_mem_append.mp h).1
      rw [bindStmt_setMember]
      exact ((bindExpr_numbers visible target p hparts.1).append
        (bindExpr_numbers visible v _ hparts.2)).append (.refl _ _)
  | return_ o v =>
      rw [bindStmt_return]
      cases v with
      | none => exact .refl _ _
      | some x =>
          have hrun : bindOptional n visible (some x) p =
              (some (bindExpr n visible x p).1, (bindExpr n visible x p).2) := rfl
          rw [hrun]
          have hx := bindExpr_numbers (n := n) visible x p (by simpa [Stmt.mentions] using h)
          simpa [Stmt.mentions] using hx
  | if_ o c b t e =>
      have hparts := List.forall_mem_append.mp h
      have hfront := List.forall_mem_append.mp hparts.1
      rw [bindStmt_if]
      exact ((bindExpr_numbers visible c p hfront.1).append
        (bindStmts_numbers _ t _ hfront.2)).append (bindElse_numbers visible e _ hparts.2)
  | block o body =>
      rw [bindStmt_block]
      exact bindStmts_numbers _ body p h
  | expr x =>
      rw [bindStmt_expr]
      exact bindExpr_numbers visible x p h
  | import_ o q path => rw [bindStmt]; exact .refl _ _
  | enum o name es => rw [bindStmt]; exact .refl _ _
  | retain o names => rw [bindStmt]; exact .refl _ _

theorem bindStmts_numbers (visible : List Text) (ss : List Stmt) (p : Program)
    (h : ∀ m ∈ Stmt.mentionsOfAll ss, m.Parsed) :
    Numbers n p (bindStmts n visible ss p).2 (Stmt.mentionsOfAll ss)
      (Stmt.mentionsOfAll (bindStmts n visible ss p).1) := by
  cases ss with
  | nil => rw [bindStmts]; exact .refl _ _
  | cons s rest =>
      have hparts := List.forall_mem_append.mp h
      rw [bindStmts_cons]
      exact (bindStmt_numbers visible s p hparts.1).append
        (bindStmts_numbers visible rest _ hparts.2)

theorem bindElse_numbers (visible : List Text) (e : Option Stmt) (p : Program)
    (h : ∀ m ∈ Stmt.mentionsOfElse e, m.Parsed) :
    Numbers n p (bindElse n visible e p).2 (Stmt.mentionsOfElse e)
      (Stmt.mentionsOfElse (bindElse n visible e p).1) := by
  cases e with
  | none => rw [bindElse]; exact .refl _ _
  | some s =>
      rw [bindElse]
      exact bindStmt_numbers visible s p h

end

structure Records (n : NamespaceId) (p : Program) (t : Tree) (p' : Program) : Prop where
  enacts : ∃ ds stage, p' = (p.enact n ds).modifySpace n fun ns => { ns with stage }
  symbols : Counts ((Stmt.mentionsOfAll t.statements).filterMap Mention.symbol?) p.symbols.size
    p'.symbols.size
  references : Counts ((Stmt.mentionsOfAll t.statements).filterMap Mention.reference?)
    p.references.size p'.references.size

/-- The symbols and references that stand in a tree are those that were made for it. -/
theorem parse_records (hp : p.Pristine) (hn : n < p.namespaces.size) :
    Yields (parse n) p fun t p' => Records n p t p' := by
  simp only [parse_eq, advance, yields_bind, yields_get, yields_set, yields_pure]
  refine ((yields_parseStatements hp hn).and (parseStatements_counts hp hn)).mono ?_
  rintro ss _ ⟨⟨-, hbindable, -⟩, ⟨ds, rfl⟩, hsymbols, hreferences⟩
  have hbound := bindStmts_numbers (n := n) (Stmt.declaredNames ss) ss (p.enact n ds)
    fun m hm => (hbindable m hm).2
  obtain ⟨es, hes⟩ := hbound.enacts
  obtain ⟨new, hnew, hperm⟩ := hbound.symbols
  obtain ⟨new', hnew', hperm'⟩ := hbound.references
  split
  · simp
  · simp only [yields_set]
    constructor
    · refine ⟨ds ++ es, .parsed, ?_⟩
      rw [hes, enact_append]
    · exact (hsymbols.append hnew).perm hperm
    · exact (hreferences.append hnew').perm hperm'

end

end Program

end Splice

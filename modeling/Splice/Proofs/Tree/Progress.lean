import Splice.Proofs.Tree.Stepping

/-!
# Parsers make progress

What a parser reads takes it at least one token on, and ten units of fuel for each token that is
left are always enough.  Each loop of the grammar is made of turns that step over a token each.
-/

namespace Splice.Parser

variable {s : State} {fuel fuel' : Nat}

/-- One more argument, or the closing parenthesis. -/
def argTurn (fuel : Nat) (seen : List Expr) : Parser (List Expr ⊕ List Expr) := do
  if ← accept .closeParen then return .inr seen
  if !seen.isEmpty then
    let _ ← expect .comma
  let arg ← binary fuel 0
  return .inl (seen ++ [arg])

def fieldTurn (fuel : Nat) (seen : List SymbolId × List Expr) :
    Parser ((List SymbolId × List Expr) ⊕ (List SymbolId × List Expr)) := do
  if ← accept .closeBrace then return .inr seen
  let key ← expect .identifier
  let _ ← expect .colon
  let value ← binary fuel 0
  let property ← newProperty key.text
  let _ ← accept .comma
  return .inl (seen.1 ++ [property], seen.2 ++ [value])

theorem unrolls_args : Unrolls args argTurn := by
  intro fuel seen
  rw [args, argTurn, bind_assoc]
  refine bind_congr fun closed => ?_
  cases closed with
  | true => rfl
  | false =>
      cases seen.isEmpty with
      | true => simp
      | false => simp

theorem unrolls_fields : Unrolls (fun fuel seen => fields fuel seen.1 seen.2) fieldTurn := by
  intro fuel seen
  dsimp only
  rw [fields, fieldTurn, bind_assoc]
  refine bind_congr fun closed => ?_
  cases closed with
  | true => rfl
  | false => simp

/-- What parsers of expressions do, for two amounts of fuel.  Each of them needs more than those
that it calls before it has stepped over a token, and ten units more for every token that is
left. -/
structure ExprSteady (fuel fuel' : Nat) : Prop where
  binary : ∀ level s, Steady s (10 * s.rest.length + (6 - min level 3) ≤ fuel)
    (binary fuel level) (binary fuel' level) s fun _ t => s.Over 1 t
  binaryRest : ∀ level left s, Steady s (10 * s.rest.length + 1 ≤ fuel)
    (binaryRest fuel level left) (binaryRest fuel' level left) s fun _ t => s.Over 0 t
  unary : ∀ s, Steady s (10 * s.rest.length + 2 ≤ fuel) (unary fuel) (unary fuel') s
    fun _ t => s.Over 1 t
  postfixed : ∀ x s, Steady s (10 * s.rest.length + 1 ≤ fuel) (postfixed fuel x)
    (postfixed fuel' x) s fun _ t => s.Over 0 t
  args : ∀ seen s, Steady s (10 * s.rest.length + 7 ≤ fuel) (args fuel seen) (args fuel' seen) s
    fun _ t => s.Over 1 t
  primary : ∀ s, Steady s (10 * s.rest.length + 1 ≤ fuel) (primary fuel) (primary fuel') s
    fun _ t => s.Over 1 t
  fields : ∀ keys values s, Steady s (10 * s.rest.length + 7 ≤ fuel) (fields fuel keys values)
    (fields fuel' keys values) s fun _ t => s.Over 1 t

theorem exprSteady_zero (fuel' : Nat) : ExprSteady 0 fuel' where
  binary level s := steady_exhausted rfl (by omega)
  binaryRest level left s := steady_exhausted rfl (by omega)
  unary s := steady_exhausted rfl (by omega)
  postfixed x s := steady_exhausted rfl (by omega)
  args seen s := steady_exhausted rfl (by omega)
  primary s := steady_exhausted rfl (by omega)
  fields keys values s := steady_exhausted rfl (by omega)

theorem ExprSteady.binary_succ (h : ExprSteady fuel fuel') (level : Nat) :
    Steady s (10 * s.rest.length + (6 - min level 3) ≤ fuel + 1) (Parser.binary (fuel + 1) level)
      (Parser.binary (fuel' + 1) level) s fun _ t => s.Over 1 t := by
  rw [Parser.binary, Parser.binary]
  by_cases hlevel : 3 ≤ level
  · rw [if_pos hlevel, if_pos hlevel]
    exact (h.unary s).last (.refl s) (fun _ => by omega) (by omega)
  · rw [if_neg hlevel, if_neg hlevel]
    refine (h.binary (level + 1) s).part (.refl s) (fun _ => by omega) ?_
    intro left t ht
    refine (h.binaryRest level left t).last ht (fun _ => ?_) (by omega)
    have := ht.count
    omega

theorem exists_nextOperator?_eq (level : Nat) (s : State) :
    ∃ found, nextOperator? level s = .ok found s ∧
      (found ≠ none → (s.peekAt 0).kind ≠ .endOfFile) := by
  have hpeek : peek s = .ok (s.peekAt 0) s := rfl
  rw [nextOperator?, bind_eq_of_eq_ok hpeek]
  cases hop : BinaryOp.ofToken? (s.peekAt 0).kind with
  | none => exact ⟨none, rfl, fun h => absurd rfl h⟩
  | some op =>
      refine ⟨_, rfl, fun _ hend => ?_⟩
      rw [hend] at hop
      cases hop

theorem ExprSteady.binaryRest_succ (h : ExprSteady fuel fuel') (level : Nat) (left : Expr) :
    Steady s (10 * s.rest.length + 1 ≤ fuel + 1) (Parser.binaryRest (fuel + 1) level left)
      (Parser.binaryRest (fuel' + 1) level left) s fun _ t => s.Over 0 t := by
  rw [Parser.binaryRest, Parser.binaryRest]
  obtain ⟨found, hrun, hkind⟩ := exists_nextOperator?_eq level s
  apply steady_step hrun
  cases found with
  | none => exact steady_pure (.refl s)
  | some op =>
      refine steady_advance_of_kind (.refl s) (hkind (by simp)) fun sign t ht => ?_
      have := ht.count
      refine (h.binary (level + 1) t).part ht (fun _ => by omega) fun right u hu => ?_
      have := hu.count
      exact (h.binaryRest level _ u).last hu (fun _ => by omega) (by omega)

theorem ExprSteady.unary_succ (h : ExprSteady fuel fuel') :
    Steady s (10 * s.rest.length + 2 ≤ fuel + 1) (Parser.unary (fuel + 1))
      (Parser.unary (fuel' + 1)) s fun _ t => s.Over 1 t := by
  rw [Parser.unary, Parser.unary]
  apply steady_peek
  cases hop : UnaryOp.ofToken? (s.peekAt 0).kind with
  | none =>
      refine (h.primary s).part (.refl s) (fun _ => by omega) fun x t ht => ?_
      have := ht.count
      exact (h.postfixed x t).last ht (fun _ => by omega) (by omega)
  | some op =>
      have hkind : (s.peekAt 0).kind ≠ .endOfFile := by
        intro hend
        rw [hend] at hop
        cases hop
      refine steady_advance_of_kind (.refl s) hkind fun sign t ht => ?_
      have := ht.count
      refine (h.unary t).part ht (fun _ => by omega) fun operand u hu => ?_
      exact steady_pure (hu.mono (by omega))

theorem ExprSteady.postfixed_succ (h : ExprSteady fuel fuel') (x : Expr) :
    Steady s (10 * s.rest.length + 1 ≤ fuel + 1) (Parser.postfixed (fuel + 1) x)
      (Parser.postfixed (fuel' + 1) x) s fun _ t => s.Over 0 t := by
  rw [Parser.postfixed, Parser.postfixed]
  apply steady_peek
  split
  · next hdot =>
      refine steady_skip (.refl s) (by simp [hdot]) fun t ht => ?_
      refine steady_expect ht (by decide) fun name u hu => ?_
      refine steady_newProperty hu fun property v hv => ?_
      have := hv.count
      exact (h.postfixed _ v).last hv (fun _ => by omega) (by omega)
  · next hparen =>
      refine steady_advance_of_kind (.refl s) (by simp [hparen]) fun paren t ht => ?_
      have := ht.count
      refine (h.args [] t).part ht (fun _ => by omega) fun args u hu => ?_
      have := hu.count
      exact (h.postfixed _ u).last hu (fun _ => by omega) (by omega)
  · exact steady_pure (.refl s)

theorem ExprSteady.argTurn (h : ExprSteady fuel fuel') (seen : List Expr) :
    Steady s (10 * s.rest.length + 7 ≤ fuel + 1) (argTurn fuel seen) (argTurn fuel' seen) s
      fun _ t => s.Over 1 t := by
  unfold Parser.argTurn
  refine steady_accept (.refl s) (by decide) (fun t ht => steady_pure ht) ?_
  have harg : ∀ {k : Nat} (t : State), s.Over k t →
      Steady s (10 * s.rest.length + 7 ≤ fuel + 1)
        (do let arg ← Parser.binary fuel 0; return .inl (seen ++ [arg]))
        (do let arg ← Parser.binary fuel' 0; return .inl (seen ++ [arg])) t
        fun (_ : List Expr ⊕ List Expr) u => s.Over 1 u := by
    intro k t ht
    have := ht.count
    refine (h.binary 0 t).part ht (fun _ => by omega) fun arg u hu => ?_
    exact steady_pure (hu.mono (by omega))
  cases seen.isEmpty with
  | true => exact harg s (.refl s)
  | false => exact steady_expect (.refl s) (by decide) fun _ t ht => harg t ht

theorem ExprSteady.fieldTurn (h : ExprSteady fuel fuel') (seen : List SymbolId × List Expr) :
    Steady s (10 * s.rest.length + 7 ≤ fuel + 1) (fieldTurn fuel seen) (fieldTurn fuel' seen) s
      fun _ t => s.Over 1 t := by
  unfold Parser.fieldTurn
  refine steady_accept (.refl s) (by decide) (fun t ht => steady_pure ht) ?_
  refine steady_expect (.refl s) (by decide) fun key t ht => ?_
  refine steady_expect ht (by decide) fun _ u hu => ?_
  have := hu.count
  refine (h.binary 0 u).part hu (fun _ => by omega) fun value v hv => ?_
  refine steady_newProperty hv fun property w hw => ?_
  refine steady_accept hw (by decide) (fun x hx => ?_) ?_
  · exact steady_pure (hx.mono (by omega))
  · exact steady_pure (hw.mono (by omega))

/-- An imported name stands in front of the parser. -/
theorem steady_importedName (hkind : (s.peekAt 0).kind ≠ .endOfFile) {enough : Prop} :
    Steady s enough importedName importedName s fun _ t => s.Over 1 t := by
  unfold importedName
  refine steady_advance_of_kind (.refl s) hkind fun qualifier t ht => ?_
  refine steady_step rfl ?_
  refine steady_advance (ht.trans t.over_tail) fun name u hu => ?_
  apply steady_peek
  apply steady_peekAt
  have hshort : ∀ {v : State}, s.Over 1 v → Steady s enough
      (do
        let reference ← newReference qualifier.text name.text [] qualifier.offset
        return Expr.imported qualifier.offset reference none none)
      (do
        let reference ← newReference qualifier.text name.text [] qualifier.offset
        return Expr.imported qualifier.offset reference none none) v fun _ w => s.Over 1 w :=
    fun hv => steady_newReference hv fun _ _ hw => steady_pure hw
  split
  · refine steady_step rfl ?_
    refine steady_advance (hu.trans u.over_tail) fun member v hv => ?_
    refine steady_newProperty hv fun property w hw => ?_
    refine steady_newReference hw fun reference x hx => ?_
    exact steady_pure (hx.mono (by omega))
  · exact hshort hu

theorem ExprSteady.primary_succ (h : ExprSteady fuel fuel') :
    Steady s (10 * s.rest.length + 1 ≤ fuel + 1) (Parser.primary (fuel + 1))
      (Parser.primary (fuel' + 1)) s fun _ t => s.Over 1 t := by
  have hleaf : ∀ e : Expr, (s.peekAt 0).kind ≠ .endOfFile →
      Steady s (10 * s.rest.length + 1 ≤ fuel + 1) (do skip; return e) (do skip; return e) s
        fun _ t => s.Over 1 t := by
    intro e hkind
    exact steady_skip (.refl s) hkind fun t ht => steady_pure ht
  rw [Parser.primary, Parser.primary]
  apply steady_peek
  split
  · next hkind => exact hleaf _ (by simp [hkind])
  · next hkind => exact hleaf _ (by simp [hkind])
  · next hkind => exact hleaf _ (by simp [hkind])
  · next hkind => exact hleaf _ (by simp [hkind])
  · next hkind => exact hleaf _ (by simp [hkind])
  · next hkind =>
      refine steady_step rfl ?_
      split
      · exact steady_importedName (by simp [hkind])
      · exact hleaf _ (by simp [hkind])
  · next hkind =>
      refine steady_skip (.refl s) (by simp [hkind]) fun t ht => ?_
      refine steady_expect ht (by decide) fun name u hu => ?_
      refine steady_expect hu (by decide) fun _ v hv => ?_
      have := hv.count
      refine (h.args [] v).part hv (fun _ => by omega) fun args w hw => ?_
      exact steady_pure (hw.mono (by omega))
  · next hkind =>
      refine steady_skip (.refl s) (by simp [hkind]) fun t ht => ?_
      have := ht.count
      refine (h.binary 0 t).part ht (fun _ => by omega) fun x u hu => ?_
      refine steady_expect hu (by decide) fun _ v hv => ?_
      exact steady_pure (hv.mono (by omega))
  · next hkind =>
      refine steady_skip (.refl s) (by simp [hkind]) fun t ht => ?_
      have := ht.count
      refine (h.fields [] [] t).part ht (fun _ => by omega) fun r u hu => ?_
      exact steady_pure (hu.mono (by omega))
  · apply steady_failAt (.refl s)
    intro _
    exact not_isExhaustion_of_append (by simp [otherStarts]) _ _

theorem exprSteady (h : fuel ≤ fuel') : ExprSteady fuel fuel' := by
  induction fuel generalizing fuel' with
  | zero => exact exprSteady_zero fuel'
  | succ fuel ih =>
      obtain ⟨fuel', rfl, hle⟩ := exists_eq_succ h
      have hless : ExprSteady fuel fuel' := ih hle
      have hneed : ∀ m n, m < n → 10 * m + 7 < 10 * n + 7 := by omega
      constructor
      · exact fun level s => hless.binary_succ level
      · exact fun level left s => hless.binaryRest_succ level left
      · exact fun s => hless.unary_succ
      · exact fun x s => hless.postfixed_succ x
      · exact fun seen s => unrolls_args.steady hneed (hless.argTurn seen) hless.args
      · exact fun s => hless.primary_succ
      · exact fun keys values s => unrolls_fields.steady (b := (keys, values)) hneed
          (hless.fieldTurn _) fun b t => hless.fields b.1 b.2 t

theorem steady_expression (h : fuel ≤ fuel') (s : State) :
    Steady s (10 * s.rest.length + 6 ≤ fuel) (expression fuel) (expression fuel') s
      fun _ t => s.Over 1 t :=
  (exprSteady h).binary 0 s

/-! ## Loops of names -/

def entryTurn (enum : Text) (seen : List Text) : Parser (List Text ⊕ List Text) := do
  if ← accept .closeBrace then return .inr seen
  let name ← expect .identifier
  let value ← entryValue
  if seen.contains name.text then
    throw ⟨Enumeration.hasEntryAlready enum name.text, name.offset⟩
  declare (.entry enum (EnumEntry.ofValue? name.text value name.offset))
  let _ ← accept .comma
  return .inl (seen ++ [name.text])

def retainedTurn (seen : List Text) : Parser (List Text ⊕ List Text) := do
  let name ← expect .identifier
  declare (.retain name.text)
  if ← accept .comma then return .inl (seen ++ [name.text])
  else return .inr (seen ++ [name.text])

def paramTurn (seen : List Param) : Parser (List Param ⊕ List Param) := do
  if ← accept .closeParen then return .inr seen
  if !seen.isEmpty then
    let _ ← expect .comma
  let name ← expect .identifier
  let symbol ← newSymbol name.text
  return .inl (seen ++ [⟨name.text, symbol⟩])

theorem unrolls_entries (enum : Text) : Unrolls (entries enum) fun _ => entryTurn enum := by
  intro fuel seen
  dsimp only
  rw [entries, entryTurn, bind_assoc]
  refine bind_congr fun closed => ?_
  cases closed with
  | true => rfl
  | false =>
      simp only [Bool.false_eq_true, if_false, bind_assoc]
      refine bind_congr fun name => bind_congr fun value => ?_
      cases seen.contains name.text with
      | true => rfl
      | false => simp

theorem unrolls_retainedNames : Unrolls retainedNames fun _ => retainedTurn := by
  intro fuel seen
  dsimp only
  rw [retainedNames, retainedTurn]
  simp only [bind_assoc]
  refine bind_congr fun name => bind_congr fun _ => bind_congr fun more => ?_
  cases more with
  | true => rfl
  | false => rfl

theorem unrolls_params : Unrolls params fun _ => paramTurn := by
  intro fuel seen
  dsimp only
  rw [params, paramTurn, bind_assoc]
  refine bind_congr fun closed => ?_
  cases closed with
  | true => rfl
  | false =>
      cases seen.isEmpty with
      | true => simp
      | false => simp

/-- A loop whose turns need no fuel needs one unit for each of them. -/
theorem Unrolls.steady_of_turn {β γ : Type} {loop : Nat → β → Parser γ}
    {turn : β → Parser (β ⊕ γ)} (hloop : Unrolls loop fun _ => turn)
    (hzero : ∀ b s, ∃ e, loop 0 b s = .error e s)
    (hturn : ∀ (enough : Prop) b s, Steady s enough (turn b) (turn b) s fun _ t => s.Over 1 t)
    (h : fuel ≤ fuel') (b : β) (s : State) :
    Steady s (s.rest.length + 1 ≤ fuel) (loop fuel b) (loop fuel' b) s fun _ t => s.Over 1 t := by
  induction fuel generalizing fuel' b s with
  | zero =>
      obtain ⟨e, he⟩ := hzero b s
      exact steady_exhausted he (by omega)
  | succ fuel ih =>
      obtain ⟨fuel', rfl, hle⟩ := exists_eq_succ h
      have hneed : ∀ m n, m < n → m + 1 < n + 1 := by omega
      exact hloop.steady hneed (hturn _ b s) (ih hle)

variable {enough : Prop}

theorem steady_entryValue (s : State) :
    Steady s enough entryValue entryValue s fun _ t => s.Over 0 t := by
  unfold entryValue
  have hnumber : ∀ {k : Nat} (negative : Bool) {t : State}, s.Over k t → Steady s enough
      (do
        let number ← expect .number
        let value := valueOf number
        return some (if negative then -value else value))
      (do
        let number ← expect .number
        let value := valueOf number
        return some (if negative then -value else value)) t fun _ u => s.Over 0 u := by
    intro k negative t ht
    exact steady_expect ht (by decide) fun number u hu => steady_pure (hu.mono (by omega))
  refine steady_accept (.refl s) (by decide) (fun t ht => ?_) (steady_pure (.refl s))
  exact steady_accept ht (by decide) (fun u hu => hnumber true hu) (hnumber false ht)

theorem steady_entryTurn (enum : Text) (seen : List Text) (s : State) :
    Steady s enough (entryTurn enum seen) (entryTurn enum seen) s fun _ t => s.Over 1 t := by
  unfold entryTurn
  refine steady_accept (.refl s) (by decide) (fun t ht => steady_pure ht) ?_
  refine steady_expect (.refl s) (by decide) fun name t ht => ?_
  refine (steady_entryValue t).part ht id fun value u hu => ?_
  cases seen.contains name.text with
  | true =>
      refine steady_throw_bind hu fun _ => ?_
      have hlong : 12 ≤ (" already has an entry " : Text).length := by decide
      rw [Enumeration.hasEntryAlready, List.append_assoc]
      refine not_isExhaustion_enum ?_ _
      rw [List.length_append]
      omega
  | false =>
      refine steady_declare hu fun v hv => ?_
      refine steady_accept hv (by decide) (fun w hw => ?_) ?_
      · exact steady_pure (hw.mono (by omega))
      · exact steady_pure (hv.mono (by omega))

theorem steady_retainedTurn (seen : List Text) (s : State) :
    Steady s enough (retainedTurn seen) (retainedTurn seen) s fun _ t => s.Over 1 t := by
  unfold retainedTurn
  refine steady_expect (.refl s) (by decide) fun name t ht => ?_
  refine steady_declare ht fun u hu => ?_
  refine steady_accept hu (by decide) (fun v hv => ?_) ?_
  · exact steady_pure (hv.mono (by omega))
  · exact steady_pure (hu.mono (by omega))

theorem steady_paramTurn (seen : List Param) (s : State) :
    Steady s enough (paramTurn seen) (paramTurn seen) s fun _ t => s.Over 1 t := by
  unfold paramTurn
  have hname : ∀ {k : Nat} (t : State), s.Over k t → Steady s enough
      (do
        let name ← expect .identifier
        let symbol ← newSymbol name.text
        return .inl (seen ++ [⟨name.text, symbol⟩]))
      (do
        let name ← expect .identifier
        let symbol ← newSymbol name.text
        return .inl (seen ++ [⟨name.text, symbol⟩])) t
      fun (_ : List Param ⊕ List Param) u => s.Over 1 u := by
    intro k t ht
    refine steady_expect ht (by decide) fun name u hu => ?_
    exact steady_newSymbol hu fun symbol v hv => steady_pure (hv.mono (by omega))
  refine steady_accept (.refl s) (by decide) (fun t ht => steady_pure ht) ?_
  cases seen.isEmpty with
  | true => exact hname s (.refl s)
  | false => exact steady_expect (.refl s) (by decide) fun _ t ht => hname t ht

theorem steady_addImport {base : State} {k : Nat} {qualifier path : Text} {offset : Nat}
    {α : Type} {f g : Unit → Parser α} {post : α → State → Prop} (hbase : base.Over k s)
    (h : ∀ t, base.Over k t → Steady base enough (f ()) (g ()) t post) :
    Steady base enough (addImport qualifier path offset >>= f)
      (addImport qualifier path offset >>= g) s post := by
  unfold addImport
  rw [bind_assoc, bind_assoc]
  apply steady_get
  cases s.aliases.contains qualifier with
  | true =>
      refine steady_throw_bind hbase fun _ => ?_
      rw [Namespace.aliasDeclaredTwice, List.append_assoc]
      exact not_isExhaustion_of_append (by simp [otherStarts]) _ _
  | false => exact steady_step rfl (h _ (hbase.same rfl rfl))

theorem steady_importStatement (hkind : (s.peekAt 0).kind ≠ .endOfFile) :
    Steady s enough importStatement importStatement s fun _ t => s.Over 1 t := by
  unfold importStatement
  refine steady_advance_of_kind (.refl s) hkind fun start t ht => ?_
  apply steady_peek
  split
  · refine steady_advance ht fun path u hu => ?_
    refine steady_newAlias hu fun qualifier v hv => ?_
    exact steady_addImport hv fun w hw => steady_pure (hw.mono (by omega))
  · refine steady_expect ht (by decide) fun qualifier u hu => ?_
    refine steady_expect hu (by decide) fun _ v hv => ?_
    refine steady_expect hv (by decide) fun path w hw => ?_
    exact steady_addImport hw fun x hx => steady_pure (hx.mono (by omega))

theorem steady_entries (enum : Text) (h : fuel ≤ fuel') (seen : List Text) (s : State) :
    Steady s (s.rest.length + 1 ≤ fuel) (entries enum fuel seen) (entries enum fuel' seen) s
      fun _ t => s.Over 1 t :=
  (unrolls_entries enum).steady_of_turn (fun _ _ => ⟨_, rfl⟩) (fun _ => steady_entryTurn enum) h
    seen s

theorem steady_retainedNames (h : fuel ≤ fuel') (seen : List Text) (s : State) :
    Steady s (s.rest.length + 1 ≤ fuel) (retainedNames fuel seen) (retainedNames fuel' seen) s
      fun _ t => s.Over 1 t :=
  unrolls_retainedNames.steady_of_turn (fun _ _ => ⟨_, rfl⟩) (fun _ => steady_retainedTurn) h
    seen s

theorem steady_params (h : fuel ≤ fuel') (seen : List Param) (s : State) :
    Steady s (s.rest.length + 1 ≤ fuel) (params fuel seen) (params fuel' seen) s
      fun _ t => s.Over 1 t :=
  unrolls_params.steady_of_turn (fun _ _ => ⟨_, rfl⟩) (fun _ => steady_paramTurn) h seen s

theorem steady_enumStatement (s : State) :
    Steady s enough enumStatement enumStatement s fun _ t => s.Over 1 t := by
  unfold enumStatement
  refine steady_advance (.refl s) fun start t ht => ?_
  refine steady_expect ht (by decide) fun name u hu => ?_
  apply steady_get
  cases u.enums.contains name.text with
  | true =>
      refine steady_throw_bind hu fun _ => ?_
      have hlong : 12 ≤ (" is declared twice" : Text).length := by decide
      exact not_isExhaustion_enum hlong _
  | false =>
      refine steady_step rfl ?_
      have hv := hu.same (u := { u with
        enums := name.text :: u.enums
        declared := .enum name.text name.offset :: u.declared }) rfl rfl
      refine steady_expect hv (by decide) fun _ w hw => ?_
      apply steady_get
      refine (steady_entries name.text (Nat.le_refl _) [] w).part hw (fun _ => Nat.le_refl _) ?_
      exact fun names x hx => steady_pure (hx.mono (by omega))

theorem steady_retainStatement (s : State) :
    Steady s enough retainStatement retainStatement s fun _ t => s.Over 1 t := by
  unfold retainStatement
  refine steady_advance (.refl s) fun start t ht => ?_
  apply steady_get
  refine (steady_retainedNames (Nat.le_refl _) [] t).part ht (fun _ => Nat.le_refl _) ?_
  exact fun names u hu => steady_pure (hu.mono (by omega))

theorem steady_letStatement (h : fuel ≤ fuel') (s : State) :
    Steady s (10 * s.rest.length + 1 ≤ fuel) (letStatement fuel) (letStatement fuel') s
      fun _ t => s.Over 1 t := by
  unfold letStatement
  refine steady_advance (.refl s) fun start t ht => ?_
  refine steady_expect ht (by decide) fun name u hu => ?_
  refine steady_expect hu (by decide) fun _ v hv => ?_
  have := hv.count
  refine (steady_expression h v).part hv (fun _ => by omega) fun value w hw => ?_
  exact steady_newSymbol hw fun symbol x hx => steady_pure (hx.mono (by omega))

theorem steady_returnStatement (h : fuel ≤ fuel') (hkind : (s.peekAt 0).kind ≠ .endOfFile) :
    Steady s (10 * s.rest.length + 1 ≤ fuel) (returnStatement fuel) (returnStatement fuel') s
      fun _ t => s.Over 1 t := by
  unfold returnStatement
  refine steady_advance_of_kind (.refl s) hkind fun start t ht => ?_
  apply steady_peek
  split
  · exact steady_pure ht
  · exact steady_pure ht
  · exact steady_pure ht
  · have := ht.count
    refine (steady_expression h t).part ht (fun _ => by omega) fun value u hu => ?_
    exact steady_pure (hu.mono (by omega))

theorem exists_latestReference_eq (s : State) : ∃ spelling, latestReference s = .ok spelling s := by
  have hget : (get : Parser State) s = .ok s s := rfl
  rw [latestReference, bind_eq_of_eq_ok hget]
  generalize List.find? _ s.declared = found
  cases found with
  | none => exact ⟨_, rfl⟩
  | some d =>
      cases d with
      | reference qualifier name member offset => exact ⟨_, rfl⟩
      | _ => exact ⟨_, rfl⟩

def assignment (fuel : Nat) (x : Expr) (spelling : Text) : Parser Stmt := do
  if (← peek).kind != .assign then return .expr x
  let sign ← advance
  let value ← expression fuel
  match x with
  | .name offset name _ =>
      let symbol ← newSymbol name
      return .assign offset name symbol value none
  | .member offset target _ property _ => return .setMember offset target property value
  | .imported _ _ _ _ => failAt sign ("cannot assign to imported name " ++ spelling)
  | _ => failAt sign "invalid assignment target"

theorem steady_assignment (h : fuel ≤ fuel') (x : Expr) (spelling : Text) (s : State) :
    Steady s (10 * s.rest.length + 6 ≤ fuel) (assignment fuel x spelling)
      (assignment fuel' x spelling) s fun _ t => s.Over 0 t := by
  unfold assignment
  apply steady_peek
  split
  · exact steady_pure (.refl s)
  · refine steady_advance (.refl s) fun sign t ht => ?_
    have := ht.count
    refine (steady_expression h t).part ht (fun _ => by omega) fun value u hu => ?_
    cases x with
    | name offset name read =>
        exact steady_newSymbol hu fun symbol v hv => steady_pure (hv.mono (by omega))
    | member offset target name property entry => exact steady_pure (hu.mono (by omega))
    | imported offset reference member record =>
        refine steady_failAt hu fun _ => ?_
        exact not_isExhaustion_of_append (by simp [otherStarts]) _ _
    | _ => exact steady_failAt hu fun _ => not_isExhaustion (by simp [otherStarts]) _

theorem steady_simpleStatement (h : fuel ≤ fuel') (s : State) :
    Steady s (10 * s.rest.length + 6 ≤ fuel) (simpleStatement fuel) (simpleStatement fuel') s
      fun _ t => s.Over 1 t := by
  unfold simpleStatement
  refine (steady_expression h s).part (.refl s) id fun x t ht => ?_
  have := ht.count
  have hrest : ∀ spelling, Steady s (10 * s.rest.length + 6 ≤ fuel) (assignment fuel x spelling)
      (assignment fuel' x spelling) t fun _ u => s.Over 1 u :=
    fun spelling => (steady_assignment h x spelling t).last ht (fun _ => by omega) (by omega)
  cases x with
  | imported offset reference member record =>
      obtain ⟨spelling, hrun⟩ := exists_latestReference_eq t
      exact steady_step hrun (hrest spelling)
  | _ => exact steady_step rfl (hrest [])

/-! ## Blocks -/

def statementTurn (start : Token) (fuel : Nat) (seen : List Stmt) :
    Parser (List Stmt ⊕ List Stmt) := do
  if ← accept .closeBrace then return .inr seen
  if (← peek).kind == .endOfFile then failAt start "block is never closed"
  let s ← statement fuel false
  skipSemicolons
  return .inl (seen ++ [s])

theorem unrolls_blockRest (start : Token) :
    Unrolls (fun fuel => blockRest fuel start) (statementTurn start) := by
  intro fuel seen
  dsimp only
  rw [blockRest, statementTurn, bind_assoc]
  refine bind_congr fun closed => ?_
  cases closed with
  | true => rfl
  | false =>
      simp only [Bool.false_eq_true, if_false, bind_assoc]
      refine bind_congr fun tok => ?_
      cases tok.kind == .endOfFile with
      | true => rfl
      | false => simp

/-- What parsers of statements do, for two amounts of fuel.  A statement and a block come before the
expressions that they start with. -/
structure StmtSteady (fuel fuel' : Nat) : Prop where
  statement : ∀ top s, Steady s (10 * s.rest.length + 8 ≤ fuel) (statement fuel top)
    (statement fuel' top) s fun _ t => s.Over 1 t
  fnStatement : ∀ s, Steady s (10 * s.rest.length + 1 ≤ fuel) (fnStatement fuel)
    (fnStatement fuel') s fun _ t => s.Over 1 t
  ifStatement : ∀ s, (s.peekAt 0).kind ≠ .endOfFile → Steady s (10 * s.rest.length + 1 ≤ fuel)
    (ifStatement fuel) (ifStatement fuel') s fun _ t => s.Over 1 t
  block : ∀ s, Steady s (10 * s.rest.length + 1 ≤ fuel) (block fuel) (block fuel') s
    fun _ t => s.Over 1 t
  blockRest : ∀ start seen s, Steady s (10 * s.rest.length + 9 ≤ fuel)
    (blockRest fuel start seen) (blockRest fuel' start seen) s fun _ t => s.Over 1 t

theorem stmtSteady_zero (fuel' : Nat) : StmtSteady 0 fuel' where
  statement top s := steady_exhausted rfl (by omega)
  fnStatement s := steady_exhausted rfl (by omega)
  ifStatement s _ := steady_exhausted rfl (by omega)
  block s := steady_exhausted rfl (by omega)
  blockRest start seen s := steady_exhausted rfl (by omega)

theorem StmtSteady.statement_succ (h : StmtSteady fuel fuel') (hle : fuel ≤ fuel') (top : Bool) :
    Steady s (10 * s.rest.length + 8 ≤ fuel + 1) (Parser.statement (fuel + 1) top)
      (Parser.statement (fuel' + 1) top) s fun _ t => s.Over 1 t := by
  have hmisplaced : ∀ m ∈ otherStarts, Steady s (10 * s.rest.length + 8 ≤ fuel + 1)
      (failAt (s.peekAt 0) m : Parser Stmt) (failAt (s.peekAt 0) m) s fun _ t => s.Over 1 t :=
    fun m hm => steady_failAt (.refl s) fun _ => not_isExhaustion hm _
  rw [Parser.statement, Parser.statement]
  apply steady_peek
  split
  · next hkind =>
      cases top with
      | true => exact steady_importStatement (by simp [hkind])
      | false => exact hmisplaced _ (by simp [otherStarts])
  · cases top with
    | true => exact steady_enumStatement s
    | false => exact hmisplaced _ (by simp [otherStarts])
  · exact (steady_letStatement hle s).last (.refl s) (fun _ => by omega) (by omega)
  · exact (h.fnStatement s).last (.refl s) (fun _ => by omega) (by omega)
  · exact steady_retainStatement s
  · next hkind =>
      have hreturn := steady_returnStatement hle (s := s) (by simp [hkind])
      exact hreturn.last (.refl s) (fun _ => by omega) (by omega)
  · next hkind =>
      exact (h.ifStatement s (by simp [hkind])).last (.refl s) (fun _ => by omega) (by omega)
  · refine (h.block s).part (.refl s) (fun _ => by omega) fun body t ht => ?_
    exact steady_pure (ht.mono (by omega))
  · exact (steady_simpleStatement hle s).last (.refl s) (fun _ => by omega) (by omega)

theorem StmtSteady.fnStatement_succ (h : StmtSteady fuel fuel') :
    Steady s (10 * s.rest.length + 1 ≤ fuel + 1) (Parser.fnStatement (fuel + 1))
      (Parser.fnStatement (fuel' + 1)) s fun _ t => s.Over 1 t := by
  rw [Parser.fnStatement, Parser.fnStatement]
  refine steady_advance (.refl s) fun start t ht => ?_
  refine steady_expect ht (by decide) fun name u hu => ?_
  refine steady_newSymbol hu fun symbol v hv => ?_
  refine steady_expect hv (by decide) fun _ w hw => ?_
  apply steady_get
  refine (steady_params (Nat.le_refl _) [] w).part hw (fun _ => Nat.le_refl _) fun ps x hx => ?_
  apply steady_peek
  refine steady_check hx (by simp [otherStarts]) fun _ => ?_
  have := hx.count
  refine (h.block x).part hx (fun _ => by omega) fun body y hy => ?_
  exact steady_pure (hy.mono (by omega))

theorem StmtSteady.ifStatement_succ (h : StmtSteady fuel fuel') (hle : fuel ≤ fuel')
    (hkind : (s.peekAt 0).kind ≠ .endOfFile) :
    Steady s (10 * s.rest.length + 1 ≤ fuel + 1) (Parser.ifStatement (fuel + 1))
      (Parser.ifStatement (fuel' + 1)) s fun _ t => s.Over 1 t := by
  rw [Parser.ifStatement, Parser.ifStatement]
  refine steady_advance_of_kind (.refl s) hkind fun start t ht => ?_
  have := ht.count
  refine (steady_expression hle t).part ht (fun _ => by omega) fun condition u hu => ?_
  apply steady_peek
  refine steady_check hu (by simp [otherStarts]) fun _ => ?_
  have := hu.count
  refine (h.block u).part hu (fun _ => by omega) fun then_ v hv => ?_
  refine steady_accept hv (by decide) (fun w hw => ?_) (steady_pure (hv.mono (by omega)))
  have := hw.count
  apply steady_peek
  split
  · next hif =>
      refine (h.ifStatement w (by simp [hif])).part hw (fun _ => by omega) fun other x hx => ?_
      exact steady_pure (hx.mono (by omega))
  · refine (h.block w).part hw (fun _ => by omega) fun other x hx => ?_
    exact steady_pure (hx.mono (by omega))
  · refine steady_failAt hw fun _ => ?_
    exact not_isExhaustion_of_append (by simp [otherStarts]) _ _

theorem StmtSteady.block_succ (h : StmtSteady fuel fuel') :
    Steady s (10 * s.rest.length + 1 ≤ fuel + 1) (Parser.block (fuel + 1))
      (Parser.block (fuel' + 1)) s fun _ t => s.Over 1 t := by
  rw [Parser.block, Parser.block]
  refine steady_expect (.refl s) (by decide) fun start t ht => ?_
  refine steady_skipSemicolons ht fun u hu => ?_
  have := hu.count
  exact (h.blockRest start [] u).last hu (fun _ => by omega) (by omega)

theorem StmtSteady.statementTurn (h : StmtSteady fuel fuel') (start : Token) (seen : List Stmt) :
    Steady s (10 * s.rest.length + 9 ≤ fuel + 1) (statementTurn start fuel seen)
      (statementTurn start fuel' seen) s fun _ t => s.Over 1 t := by
  unfold Parser.statementTurn
  refine steady_accept (.refl s) (by decide) (fun t ht => steady_pure ht) ?_
  apply steady_peek
  cases (s.peekAt 0).kind == .endOfFile with
  | true => exact steady_throw_bind (.refl s) fun _ => not_isExhaustion (by simp [otherStarts]) _
  | false =>
      refine (h.statement false s).part (.refl s) (fun _ => by omega) fun statement t ht => ?_
      refine steady_skipSemicolons ht fun u hu => ?_
      exact steady_pure (hu.mono (by omega))

theorem stmtSteady (h : fuel ≤ fuel') : StmtSteady fuel fuel' := by
  induction fuel generalizing fuel' with
  | zero => exact stmtSteady_zero fuel'
  | succ fuel ih =>
      obtain ⟨fuel', rfl, hle⟩ := exists_eq_succ h
      have hless : StmtSteady fuel fuel' := ih hle
      have hneed : ∀ m n, m < n → 10 * m + 9 < 10 * n + 9 := by omega
      constructor
      · exact fun top s => hless.statement_succ hle top
      · exact fun s => hless.fnStatement_succ
      · exact fun s hkind => hless.ifStatement_succ hle hkind
      · exact fun s => hless.block_succ
      · exact fun start seen s => (unrolls_blockRest start).steady hneed
          (hless.statementTurn start seen) (hless.blockRest start)

theorem steady_fileRest (h : fuel ≤ fuel') (seen : List Stmt) (s : State) :
    Steady s (10 * s.rest.length + 9 ≤ fuel) (fileRest fuel seen) (fileRest fuel' seen) s
      fun _ t => s.Over 0 t ∧ (t.peekAt 0).kind = .endOfFile := by
  induction fuel generalizing fuel' seen s with
  | zero => exact steady_exhausted rfl (by omega)
  | succ fuel ih =>
      obtain ⟨fuel', rfl, hle⟩ := exists_eq_succ h
      rw [fileRest, fileRest]
      apply steady_peek
      by_cases hend : (s.peekAt 0).kind = .endOfFile
      · rw [if_pos (by simpa using hend), if_pos (by simpa using hend)]
        exact steady_pure ⟨.refl s, hend⟩
      · rw [if_neg (by simpa using hend), if_neg (by simpa using hend)]
        refine ((stmtSteady hle).statement true s).part (.refl s) (fun _ => by omega) ?_
        intro statement t ht
        refine steady_skipSemicolons ht fun u hu => ?_
        have := hu.count
        refine ((ih hle _ u).rebase hu fun _ => by omega).mono ?_
        rintro statements v ⟨hv, hlast⟩
        exact ⟨(hu.trans hv).mono (Nat.zero_le _), hlast⟩

end Splice.Parser

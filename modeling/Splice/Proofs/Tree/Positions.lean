import Splice.Proofs.Token.Tiling
import Splice.Proofs.Tree.Progress

/-!
# Positions of the parser

The tokens that are left stand for a position in the file, which is never behind the token that
ends it (`State.At`).  Whatever is read successfully takes the parser on to a later position, a
failure does not take it back, and what is read does not depend on the fuel once there is as much
as a file gets (`MakesProgress`).  A parser that is at the end can only fail, so no loop over a
closing bracket goes on there.
-/

namespace Splice.Parser

/-- The last token is the end of the file, and no other token is. -/
def EndsOnce (tokens : List Token) : Prop :=
  ∃ front last, tokens = front ++ [last] ∧ last.kind = .endOfFile ∧
    ∀ x ∈ front, x.kind ≠ .endOfFile

/-- The parser of a file stands in front of one of its tokens. -/
structure State.At (tokens : List Token) (i : Nat) (s : State) : Prop where
  lt : i < tokens.length
  rest : s.rest = tokens.dropLast.drop i
  finish : tokens.getLast?.map Token.offset = some s.finish

variable {tokens : List Token} {i j k : Nat} {s t : State}

/-- The tokens that are left, and the end of the file. -/
theorem State.At.length (h : s.At tokens i) : i + s.rest.length + 1 = tokens.length := by
  have := h.lt
  rw [h.rest, List.length_drop, List.length_dropLast]
  omega

/-- Stepping over tokens moves the position on. -/
theorem State.At.over (h : s.At tokens i) (hover : s.Over k t) :
    ∃ j, i + k ≤ j ∧ t.At tokens j := by
  obtain ⟨front, hfront⟩ := hover.rest
  have hlength := congrArg List.length hfront
  rw [List.length_append] at hlength
  have hcount := hover.count
  have hwhole := h.length
  refine ⟨i + front.length, by omega, by omega, ?_, by rw [hover.finish, h.finish]⟩
  rw [← List.drop_drop, ← h.rest, ← hfront, List.drop_left]

/-- The end of the file stands at the last position only. -/
theorem State.At.kind_eq_iff (h : s.At tokens i) (hends : EndsOnce tokens) :
    (s.peekAt 0).kind = .endOfFile ↔ i + 1 = tokens.length := by
  obtain ⟨front, last, rfl, -, hfront⟩ := hends
  have hlength := h.length
  have hrest := h.rest
  rw [List.dropLast_concat] at hrest
  cases hs : s.rest with
  | nil =>
      rw [hs] at hlength
      exact ⟨fun _ => by simpa using hlength, fun _ => by simp [State.peekAt, hs]⟩
  | cons x rest =>
      rw [hs] at hlength hrest
      have hx : x ∈ front := List.mem_of_mem_drop (hrest ▸ List.mem_cons_self)
      have hpeek : s.peekAt 0 = x := by simp [State.peekAt, hs]
      rw [hpeek]
      refine ⟨fun hkind => absurd hkind (hfront x hx), fun heq => ?_⟩
      rw [List.length_cons] at hlength
      omega

/-- At the last position `advance` does not move. -/
theorem State.At.exists_advance (h : s.At tokens i) (hends : EndsOnce tokens) :
    ∃ tok t, advance s = .ok tok t ∧ t.At tokens (min (i + 1) (tokens.length - 1)) ∧
      (tok.kind = .endOfFile ↔ i + 1 = tokens.length) := by
  have := h.lt
  refine ⟨_, _, rfl, ⟨by omega, ?_, h.finish⟩, h.kind_eq_iff hends⟩
  change s.rest.tail = _
  rw [h.rest, List.tail_drop]
  rcases Nat.le_total (i + 1) (tokens.length - 1) with hle | hle
  · rw [min_eq_left hle]
  · rw [min_eq_right hle, List.drop_eq_nil_of_le, List.drop_eq_nil_of_le]
    · rw [List.length_dropLast]
    · rwa [List.length_dropLast]

/-- The lexer ends a file once, and the parser of a namespace starts at its first token. -/
theorem at_parserState {p : Program} {n : NamespaceId}
    (h : (p.spaceAt n).unit.tokens = .ok tokens) :
    EndsOnce tokens ∧ (p.parserState n tokens).At tokens 0 := by
  have houtcome := isOutcome_lexFrom (Text.isRun_glyphs (p.spaceAt n).unit.text) 0
  rw [Text.ofGlyphs_glyphs] at houtcome
  rw [SourceUnit.tokens] at h
  cases hlex : lexFrom 0 0 (p.spaceAt n).unit.text.glyphs with
  | error e =>
      rw [hlex] at h
      cases h
  | ok read =>
      rw [hlex] at houtcome h
      cases h
      obtain ⟨front, rfl, hfront⟩ := Tiles.exists_front houtcome
      exact ⟨⟨front, _, rfl, rfl, hfront⟩, by simp, rfl, by simp [Program.parserState]⟩

/-- A parser that gets fuel.  Its successes move on and its failures do not go back; as much fuel
as a file gets is enough, so that more of it makes no difference and no failure is for want of
it. -/
structure MakesProgress {α : Type} (tokens : List Token) (action : Nat → Parser α) : Prop where
  moves : ∀ fuel i s, s.At tokens i →
    match action fuel s with
    | .ok _ t => ∃ j, i < j ∧ t.At tokens j
    | .error _ t => ∃ j, i ≤ j ∧ t.At tokens j
  settles : ∀ fuel i s, s.At tokens i → fuelFor s.rest.length ≤ fuel →
    action fuel s = action (fuelFor s.rest.length) s ∧
      ∀ e t, action fuel s = .error e t → ¬e.IsExhaustion

/-- A loop is made of turns that make progress, so at the end of the file its turn fails. -/
structure TakesTurns {β γ : Type} (tokens : List Token) (loop : Nat → β → Parser γ)
    (turn : Nat → β → Parser (β ⊕ γ)) : Prop where
  unrolls : Unrolls loop turn
  turns : ∀ b, MakesProgress tokens fun fuel => turn fuel b
  whole : ∀ b, MakesProgress tokens fun fuel => loop fuel b
  fails : ∀ fuel b s, s.At tokens (tokens.length - 1) → ∃ e t, turn fuel b s = .error e t

def object (fuel : Nat) : Parser Expr := do
  let start ← peek
  skip
  let (keys, values) ← fields fuel [] []
  return .object start.offset keys values

theorem primary_eq_object (fuel : Nat) (h : (s.peekAt 0).kind = .openBrace) :
    primary (fuel + 1) s = object fuel s := by
  have hpeek : peek s = .ok (s.peekAt 0) s := rfl
  rw [primary, object, bind_eq_of_eq_ok hpeek, bind_eq_of_eq_ok hpeek, h]

/-- What the parser of a file does to its position. -/
structure ReadsOn (tokens : List Token) : Prop where
  advance : ∀ i s, s.At tokens i →
    ∃ tok t, advance s = .ok tok t ∧ t.At tokens (min (i + 1) (tokens.length - 1)) ∧
      (tok.kind = .endOfFile ↔ i + 1 = tokens.length)
  statement : ∀ top, MakesProgress tokens fun fuel => statement fuel top
  block : MakesProgress tokens block
  expression : MakesProgress tokens expression
  primary : MakesProgress tokens primary
  args : ∀ seen, MakesProgress tokens fun fuel => args fuel seen
  object : MakesProgress tokens object
  objects : ∀ fuel s, (s.peekAt 0).kind = .openBrace →
    Parser.primary (fuel + 1) s = Parser.object fuel s
  enumStatement : MakesProgress tokens fun _ => enumStatement
  entries : ∀ enum, TakesTurns tokens (entries enum) fun _ => entryTurn enum
  params : TakesTurns tokens params fun _ => paramTurn
  arguments : TakesTurns tokens Parser.args argTurn
  fields : TakesTurns tokens (fun fuel seen => fields fuel seen.1 seen.2) fieldTurn
  statements : ∀ start, TakesTurns tokens (fun fuel => blockRest fuel start) (statementTurn start)
  file : ∀ s, s.At tokens 0 →
    (∀ fuel, fuelFor s.rest.length ≤ fuel →
      (do skipSemicolons; fileRest fuel []) s = Parser.file s) ∧
    match Parser.file s with
    | .ok _ t => t.At tokens (tokens.length - 1)
    | .error e t => ¬e.IsExhaustion ∧ ∃ j, t.At tokens j

section

variable {α β γ : Type}

theorem MakesProgress.of_steady {action : Nat → Parser α} {enough : Nat → State → Prop}
    (h : ∀ fuel fuel' s, fuel ≤ fuel' → Steady s (enough fuel s) (action fuel) (action fuel') s
      fun _ t => s.Over 1 t)
    (henough : ∀ fuel s, 10 * s.rest.length + 20 ≤ fuel → enough fuel s) :
    MakesProgress tokens action where
  moves fuel i s hat := by
    have hrun := (h fuel fuel s (Nat.le_refl _)).2
    cases haction : action fuel s with
    | ok a t =>
        rw [haction] at hrun
        exact hat.over hrun
    | error e t =>
        rw [haction] at hrun
        exact hat.over hrun.1
  settles fuel i s hat hfuel := by
    refine ⟨(h _ fuel s hfuel).1 (henough _ s (Nat.le_refl _)), fun e t herror => ?_⟩
    have hrun := (h fuel fuel s (Nat.le_refl _)).2
    rw [herror] at hrun
    exact hrun.2 (henough fuel s hfuel)

/-- There is no position behind the last one. -/
theorem MakesProgress.exists_error {action : Nat → Parser α} (h : MakesProgress tokens action)
    (fuel : Nat) (hat : s.At tokens (tokens.length - 1)) : ∃ e t, action fuel s = .error e t := by
  have hrun := h.moves fuel _ s hat
  cases haction : action fuel s with
  | error e t => exact ⟨e, t, rfl⟩
  | ok a t =>
      rw [haction] at hrun
      obtain ⟨j, hlt, ht⟩ := hrun
      have := ht.lt
      omega

theorem Unrolls.takesTurns {loop : Nat → β → Parser γ} {turn : Nat → β → Parser (β ⊕ γ)}
    (hunrolls : Unrolls loop turn) (hturn : ∀ b, MakesProgress tokens fun fuel => turn fuel b)
    (hwhole : ∀ b, MakesProgress tokens fun fuel => loop fuel b) :
    TakesTurns tokens loop turn :=
  ⟨hunrolls, hturn, hwhole, fun fuel b _ hat => (hturn b).exists_error fuel hat⟩

end

theorem steady_object {fuel fuel' : Nat} (h : fuel ≤ fuel') (s : State) :
    Steady s (10 * s.rest.length + 7 ≤ fuel) (object fuel) (object fuel') s
      fun _ t => s.Over 1 t := by
  unfold object
  apply steady_peek
  have hskip : skip s = .ok () { s with rest := s.rest.tail } := rfl
  have hcount := s.over_tail.count
  refine steady_step hskip ?_
  refine ((exprSteady h).fields [] [] _).part s.over_tail (fun _ => by omega) fun r t ht => ?_
  exact steady_pure (ht.mono (by omega))

/-- A file is read with enough fuel. -/
theorem file_spec (hends : EndsOnce tokens) (h : s.At tokens 0) :
    (∀ fuel, fuelFor s.rest.length ≤ fuel →
      (do skipSemicolons; fileRest fuel []) s = file s) ∧
    match file s with
    | .ok _ t => t.At tokens (tokens.length - 1)
    | .error e t => ¬e.IsExhaustion ∧ ∃ j, t.At tokens j := by
  have hsteady : ∀ fuel, fuelFor s.rest.length ≤ fuel →
      Steady s True (do skipSemicolons; fileRest (fuelFor s.rest.length) [])
        (do skipSemicolons; fileRest fuel []) s
        fun _ t => s.Over 0 t ∧ (t.peekAt 0).kind = .endOfFile := by
    intro fuel hfuel
    refine steady_skipSemicolons (.refl s) fun t ht => ?_
    have hcount := ht.count
    have henough : 10 * t.rest.length + 9 ≤ fuelFor s.rest.length := by
      unfold fuelFor
      omega
    refine ((steady_fileRest hfuel [] t).rebase ht fun _ => henough).mono ?_
    exact fun _ u hu => ⟨ht.trans hu.1, hu.2⟩
  have hfile : file s = (do skipSemicolons; fileRest (fuelFor s.rest.length) []) s := rfl
  rw [hfile]
  refine ⟨fun fuel hfuel => (hsteady fuel hfuel).1 trivial, ?_⟩
  have hrun := (hsteady _ (Nat.le_refl _)).2
  cases hread : (do skipSemicolons; fileRest (fuelFor s.rest.length) [] : Parser _) s with
  | ok statements t =>
      rw [hread] at hrun
      obtain ⟨j, -, ht⟩ := h.over hrun.1
      have hlast := (ht.kind_eq_iff hends).mp hrun.2
      change t.At tokens (tokens.length - 1)
      rwa [← hlast, Nat.add_sub_cancel]
  | error e t =>
      rw [hread] at hrun
      obtain ⟨j, -, ht⟩ := h.over hrun.1
      exact ⟨hrun.2 trivial, j, ht⟩

/-- The parser of a file that ends once moves on with all that it reads and comes to an end. -/
theorem parsing_proceeds (h : EndsOnce tokens) : ReadsOn tokens where
  advance _ _ hat := hat.exists_advance h
  statement top := .of_steady (fun _ _ s hle => (stmtSteady hle).statement top s) (by omega)
  block := .of_steady (fun _ _ s hle => (stmtSteady hle).block s) (by omega)
  expression := .of_steady (fun _ _ s hle => steady_expression hle s) (by omega)
  primary := .of_steady (fun _ _ s hle => (exprSteady hle).primary s) (by omega)
  args seen := .of_steady (fun _ _ s hle => (exprSteady hle).args seen s) (by omega)
  object := .of_steady (fun _ _ s hle => steady_object hle s) (by omega)
  objects fuel _ hbrace := primary_eq_object fuel hbrace
  enumStatement := .of_steady (fun _ _ s _ => steady_enumStatement s) (fun _ _ _ => trivial)
  entries enum := (unrolls_entries enum).takesTurns
    (fun seen => .of_steady (fun _ _ s _ => steady_entryTurn enum seen s) (fun _ _ _ => trivial))
    (fun seen => .of_steady (fun _ _ s hle => steady_entries enum hle seen s) (by omega))
  params := unrolls_params.takesTurns
    (fun seen => .of_steady (fun _ _ s _ => steady_paramTurn seen s) (fun _ _ _ => trivial))
    (fun seen => .of_steady (fun _ _ s hle => steady_params hle seen s) (by omega))
  arguments := unrolls_args.takesTurns
    (fun seen => .of_steady (fun _ _ s hle => (exprSteady hle).argTurn seen) (by omega))
    (fun seen => .of_steady (fun _ _ s hle => (exprSteady hle).args seen s) (by omega))
  fields := unrolls_fields.takesTurns
    (fun seen => .of_steady (fun _ _ s hle => (exprSteady hle).fieldTurn seen) (by omega))
    (fun seen => .of_steady (fun _ _ s hle => (exprSteady hle).fields seen.1 seen.2 s) (by omega))
  statements start := (unrolls_blockRest start).takesTurns
    (fun seen => .of_steady (fun _ _ s hle => (stmtSteady hle).statementTurn start seen)
      (by omega))
    (fun seen => .of_steady (fun _ _ s hle => (stmtSteady hle).blockRest start seen s) (by omega))
  file _ hat := file_spec h hat

def shortProgram : Program := (Program.register {} ⟨"let a = f({b: 1});\n", "/m.wv"⟩).2

/-- The short file is read to its end. -/
theorem parsing_proceeds_short :
    ∃ tokens, (shortProgram.spaceAt 0).unit.tokens = .ok tokens ∧ EndsOnce tokens ∧
      ∃ ss t, file (shortProgram.parserState 0 tokens) = .ok ss t ∧
        t.At tokens (tokens.length - 1) := by
  have hread : ((shortProgram.spaceAt 0).unit.tokens.toOption.map fun tokens =>
      file (shortProgram.parserState 0 tokens) matches .ok ..) = some true := by
    decide +kernel
  cases htokens : (shortProgram.spaceAt 0).unit.tokens with
  | error e =>
      rw [htokens] at hread
      cases hread
  | ok tokens =>
      rw [htokens] at hread
      obtain ⟨hends, hat⟩ := at_parserState htokens
      have hfile := ((parsing_proceeds hends).file _ hat).2
      refine ⟨tokens, rfl, hends, ?_⟩
      split at hfile
      · next ss t hok => exact ⟨ss, t, hok, hfile⟩
      · next e t herror =>
          simp only [Except.toOption, Option.map_some, herror] at hread
          cases hread

end Splice.Parser

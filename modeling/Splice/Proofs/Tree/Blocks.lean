import Splice.Proofs.Tree.Rereading

/-!
# Reading printed statements

A printed statement is read back in front of its semicolon, and a printed block wherever
it stands.  The enums of a file are taken down by the parser as it meets them, so a file is
read back if no two of them have the same name.
-/

namespace Splice.Parser

open Word (sign separated parens braces)

section

variable {base : Nat}

/-- The comma behind a name and the next names, if there are any. -/
theorem names_cons (text : Text) (texts : List Text) :
    Word.names (text :: texts) =
      Word.name text :: ((if texts.isEmpty then [] else [sign .comma]) ++ Word.names texts) := by
  rw [Word.names, List.map_cons, separated_cons, List.isEmpty_map, List.singleton_append]
  rfl

theorem length_le_length_names (texts : List Text) : texts.length ≤ (Word.names texts).length := by
  induction texts with
  | nil => exact Nat.zero_le _
  | cons text texts ih =>
      rw [names_cons, List.length_cons, List.length_cons, List.length_append]
      omega

/-- The words of a parameter list from a parameter on, with the comma in front of it if it
is not the first. -/
theorem itemsFrom_names_cons (first : Bool) (text : Text) (texts : List Text) :
    itemsFrom first ((text :: texts).map ([Word.name ·])) =
      (if first then [] else [sign .comma]) ++
        (Word.name text :: itemsFrom false (texts.map ([Word.name ·]))) := by
  cases first <;> rfl

theorem takes_params {texts : List Text} (fuel : Nat) (seen : List Param)
    (next : TokenKind → Prop) (hfuel : texts.length < fuel) :
    Takes base (itemsFrom seen.isEmpty (texts.map ([Word.name ·])) ++ [sign .closeParen]) next
      (params fuel seen)
      fun names ps => ∃ more, ps = seen ++ more ∧ more.map Param.name = texts ∧
        ∀ p ∈ more, names p.symbol = p.name := by
  induction texts generalizing fuel seen with
  | nil =>
      obtain ⟨fuel, rfl⟩ := Nat.exists_eq_add_of_lt hfuel
      have hwords : itemsFrom seen.isEmpty (([] : List Text).map ([Word.name ·])) = [] := by
        cases seen.isEmpty <;> rfl
      rw [hwords, params]
      refine takes_accept rfl (takes_pure fun names => ?_)
      exact ⟨[], by simp, rfl, by simp⟩
  | cons text texts ih =>
      obtain ⟨fuel, rfl⟩ : ∃ k, fuel = k + 1 := ⟨fuel - 1, by omega⟩
      have hitem : Takes base
          (Word.name text :: (itemsFrom false (texts.map ([Word.name ·])) ++ [sign .closeParen])) next
          (expect .identifier >>= fun name => newSymbol name.text >>= fun symbol =>
            params fuel (seen ++ [⟨name.text, symbol⟩]))
          fun names ps => ∃ more, ps = seen ++ more ∧ more.map Param.name = text :: texts ∧
            ∀ p ∈ more, names p.symbol = p.name := by
        refine takes_expect rfl fun name hname => takes_newSymbol fun symbol => ?_
        have hrest := ih fuel (seen ++ [⟨name.text, symbol⟩]) (by simpa using hfuel)
        rw [show (seen ++ [(⟨name.text, symbol⟩ : Param)]).isEmpty = false by simp] at hrest
        refine hrest.mono ?_
        rintro names ps ⟨more, rfl, hmore, hnames⟩ hsymbol
        refine ⟨⟨name.text, symbol⟩ :: more, by simp, ?_, ?_⟩
        · rw [List.map_cons, hmore, show name.text = text from congrArg Word.text hname]
        · exact List.forall_mem_cons.mpr ⟨hsymbol, hnames⟩
      rw [itemsFrom_names_cons, List.append_assoc, params]
      refine takes_accept_not (fun c _ => ?_) ?_
      · cases seen.isEmpty <;> simp [sign, Word.name]
      · cases hseen : seen.isEmpty with
        | true => exact hitem
        | false => exact takes_expect rfl fun _ _ => hitem

/-- The parameters of a function, up to the closing parenthesis. -/
theorem takes_allParams {texts : List Text} {fuel : Nat} (hfuel : texts.length < fuel) :
    Takes base (Word.names texts ++ [sign .closeParen]) (fun _ => True) (params fuel [])
      fun names ps => ps.map Param.name = texts ∧ ∀ p ∈ ps, names p.symbol = p.name := by
  refine (takes_params fuel [] _ hfuel).mono ?_
  rintro names ps ⟨more, rfl, hmore⟩
  exact hmore

/-- The entries of an enum are read back if they differ. -/
theorem takes_entries {texts : List Text} (enum : Text) (fuel : Nat) (seen : List Text)
    (next : TokenKind → Prop) (hfuel : texts.length < fuel) (hnodup : (seen ++ texts).Nodup) :
    Takes base (Word.names texts ++ [sign .closeBrace]) next (entries enum fuel seen)
      fun _ xs => xs = seen ++ texts := by
  induction texts generalizing fuel seen with
  | nil =>
      obtain ⟨fuel, rfl⟩ := Nat.exists_eq_add_of_lt hfuel
      rw [entries]
      exact takes_accept rfl (takes_pure fun _ => (List.append_nil seen).symm)
  | cons text texts ih =>
      obtain ⟨fuel, rfl⟩ : ∃ k, fuel = k + 1 := ⟨fuel - 1, by omega⟩
      rw [names_cons, List.cons_append, List.append_assoc, entries]
      refine takes_accept_not (fun _ _ => by simp [Word.name]) ?_
      refine takes_expect rfl fun name hname => ?_
      have hvalue : Takes base [] (· ≠ .assign) entryValue fun _ value => value = none := by
        rw [entryValue]
        exact takes_accept_not (fun _ hc => hc) (takes_pure fun _ => rfl)
      have htext : name.text = text := congrArg Word.text hname
      have hseen : seen.contains name.text = false := by
        rw [htext, List.contains_eq_mem, decide_eq_false_iff_not]
        intro hmem
        exact List.disjoint_of_nodup_append hnodup hmem List.mem_cons_self
      have hrest := ih fuel (seen ++ [name.text]) (by simpa using hfuel)
        (by rw [htext]; simpa using hnodup)
      rw [htext, List.append_assoc, List.singleton_append] at hrest
      refine hvalue.nil_bind (fun c _ => ?_) fun value _ => ?_
      · cases texts <;> simp [Word.names, separated, sign]
      · rw [hseen, if_neg Bool.false_ne_true]
        refine takes_declare rfl ?_
        rw [htext]
        cases texts with
        | nil =>
            refine takes_accept_not (fun _ _ => by simp [Word.names, separated, sign]) ?_
            exact hrest.mono fun _ _ hxs _ => hxs
        | cons other texts => exact takes_accept rfl (hrest.mono fun _ _ hxs _ => hxs)

/-- The names of a retain statement are read up to the first that no comma follows. -/
theorem takes_retainedNames {texts : List Text} (hne : texts ≠ []) (fuel : Nat)
    (seen : List Text) (hfuel : texts.length < fuel) :
    Takes base (Word.names texts) (· = .semicolon) (retainedNames fuel seen)
      fun _ xs => xs = seen ++ texts := by
  induction texts generalizing fuel seen with
  | nil => exact absurd rfl hne
  | cons text texts ih =>
      obtain ⟨fuel, rfl⟩ : ∃ k, fuel = k + 1 := ⟨fuel - 1, by omega⟩
      rw [names_cons, retainedNames]
      refine takes_expect rfl fun name hname => takes_declare rfl ?_
      have htext : name.text = text := congrArg Word.text hname
      cases texts with
      | nil =>
          refine takes_accept_not ?_ (takes_pure fun _ => by rw [htext])
          rintro c rfl
          simp [Word.names, separated]
      | cons other texts =>
          refine takes_accept rfl ?_
          refine (ih (by simp) fuel (seen ++ [name.text]) (by simpa using hfuel)).mono ?_
          rintro names xs rfl
          simp [htext]

def StmtSays (s : PlainStmt) (names : SymbolId → Text) (x : Stmt) : Prop := x.plain? names = some s

def RereadsStatement (base : Nat) (s : PlainStmt) : Prop :=
  ∀ top fuel, 10 * s.words.length + 10 ≤ fuel →
    Takes base s.words (· = .semicolon) (statement fuel top) (StmtSays s)

def RereadsBlock (base : Nat) (ss : List PlainStmt) : Prop :=
  ∀ fuel, 10 * (braces (PlainStmt.wordsOfAll ss)).length ≤ fuel →
    Takes base (braces (PlainStmt.wordsOfAll ss)) (fun _ => True) (block fuel)
      fun names xs => Stmt.plainOfAll? names xs = some ss

def RereadsIf (base : Nat) (s : PlainStmt) : Prop :=
  ∀ fuel, 10 * s.words.length ≤ fuel →
    Takes base s.words (· = .semicolon) (ifStatement fuel) (StmtSays s)

theorem takes_expression {e : PlainExpr} (he : e.isRegular = true) {fuel : Nat} {start : Bool}
    {next : TokenKind → Prop} (hnext : ∀ k, next k → Stops 0 k)
    (hfuel : 10 * (e.words 0 start).length + 4 ≤ fuel) :
    Takes base (e.words 0 start) next (expression fuel) (Says e) :=
  (rereads e he 0 (by omega) start).readsAt 0 (by omega) le_rfl fuel next hnext hfuel

theorem stops_semicolon : ∀ k, k = TokenKind.semicolon → Stops 0 k := by
  rintro k rfl
  exact stops_zero (by decide)

theorem rereads_let {value : PlainExpr} (text : Text) (hvalue : value.isRegular = true) :
    RereadsStatement base (.let_ text value) := by
  intro top fuel hfuel
  simp only [PlainStmt.words, List.length_cons] at hfuel ⊢
  obtain ⟨fuel, rfl⟩ : ∃ k, fuel = k + 1 := ⟨fuel - 1, by omega⟩
  rw [statement]
  refine takes_peek_cons fun t ht => ?_
  rw [show t.kind = .let_ from congrArg Word.kind ht]
  refine takes_advance fun start _ => takes_expect rfl fun name hname => takes_expect rfl fun _ _ => ?_
  refine (takes_expression hvalue stops_semicolon (by omega)).bind_nil (fun _ hk => hk) fun x _ => ?_
  refine takes_newSymbol fun symbol => takes_pure fun names hsymbol hx => ?_
  rw [StmtSays, Stmt.plain?, if_pos hsymbol, hx, show name.text = text from congrArg Word.text hname]
  rfl

theorem rereads_retain {texts : List Text} (hne : texts ≠ []) :
    RereadsStatement base (.retain texts) := by
  intro top fuel hfuel
  simp only [PlainStmt.words, List.length_cons] at hfuel ⊢
  obtain ⟨fuel, rfl⟩ : ∃ k, fuel = k + 1 := ⟨fuel - 1, by omega⟩
  rw [statement]
  refine takes_peek_cons fun t ht => ?_
  rw [show t.kind = .retain from congrArg Word.kind ht]
  refine takes_advance fun start _ => takes_get fun s hs => ?_
  have hle := length_le_length_names texts
  refine (takes_retainedNames hne _ [] (by omega)).bind_pure fun xs _ => ⟨_, rfl, ?_⟩
  rintro names rfl
  rfl

theorem rereads_return_none : RereadsStatement base (.return_ none) := by
  intro top fuel hfuel
  simp only [PlainStmt.words, List.length_cons] at hfuel ⊢
  obtain ⟨fuel, rfl⟩ : ∃ k, fuel = k + 1 := ⟨fuel - 1, by omega⟩
  rw [statement]
  refine takes_peek_cons fun t ht => ?_
  rw [show t.kind = .return_ from congrArg Word.kind ht]
  refine takes_advance fun start _ => takes_peek fun t c hc hkind => ?_
  rw [Word.headKind_nil, hc] at hkind
  rw [hkind]
  exact takes_pure fun _ => rfl

theorem rereads_return_some {value : PlainExpr} (hvalue : value.isRegular = true) :
    RereadsStatement base (.return_ (some value)) := by
  intro top fuel hfuel
  obtain ⟨w, ws, hw, hstart, -⟩ := value.opens_head 0 false
  simp only [PlainStmt.words, List.length_cons] at hfuel ⊢
  obtain ⟨fuel, rfl⟩ : ∃ k, fuel = k + 1 := ⟨fuel - 1, by omega⟩
  rw [statement]
  refine takes_peek_cons fun t ht => ?_
  rw [show t.kind = .return_ from congrArg Word.kind ht]
  refine takes_advance fun start _ => takes_peek fun t c _ hkind => ?_
  have hread : Takes base (value.words 0 false) (· = .semicolon)
      (expression fuel >>= fun x => pure (Stmt.return_ start.offset (some x)))
      (StmtSays (.return_ (some value))) := by
    refine (takes_expression hvalue stops_semicolon (by omega)).bind_pure fun x _ => ⟨_, rfl, ?_⟩
    intro names hx
    rw [StmtSays, Stmt.plain?, hx]
    rfl
  rw [hw, Word.headKind_cons] at hkind
  rw [hkind]
  split
  · next heq => exact absurd (heq ▸ hstart) (by decide)
  · next heq => exact absurd (heq ▸ hstart) (by decide)
  · next heq => exact absurd (heq ▸ hstart) (by decide)
  · exact hread

/-- Words that start with an expression are read as an expression or an assignment. -/
theorem takes_statement_simple (e : PlainExpr) {more : List Word} {fuel : Nat} {top : Bool}
    {next : TokenKind → Prop} {good : (SymbolId → Text) → Stmt → Prop}
    (h : Takes base (e.words 0 true ++ more) next (simpleStatement fuel) good) :
    Takes base (e.words 0 true ++ more) next (statement (fuel + 1) top) good := by
  obtain ⟨w, ws, hw, hmem, hbrace, -⟩ := e.opens_head 0 true
  rw [hw, List.cons_append] at h ⊢
  rw [statement]
  refine takes_peek_cons fun t ht => ?_
  rw [show t.kind = w.kind from congrArg Word.kind ht]
  split
  · next heq => exact absurd (heq ▸ hmem) (by decide)
  · next heq => exact absurd (heq ▸ hmem) (by decide)
  · next heq => exact absurd (heq ▸ hmem) (by decide)
  · next heq => exact absurd (heq ▸ hmem) (by decide)
  · next heq => exact absurd (heq ▸ hmem) (by decide)
  · next heq => exact absurd (heq ▸ hmem) (by decide)
  · next heq => exact absurd (heq ▸ hmem) (by decide)
  · next heq => exact absurd heq (hbrace rfl)
  · exact h

theorem rereads_expr {value : PlainExpr} (hvalue : value.isRegular = true) :
    RereadsStatement base (.expr value) := by
  intro top fuel hfuel
  simp only [PlainStmt.words] at hfuel ⊢
  obtain ⟨fuel, rfl⟩ : ∃ k, fuel = k + 1 := ⟨fuel - 1, by omega⟩
  rw [← List.append_nil (value.words 0 true)]
  refine takes_statement_simple value ?_
  rw [simpleStatement]
  refine (takes_expression hvalue (fun k hk => stops_semicolon k hk) (by omega)).bind
    (fun _ hk => hk) ?_
  rintro x ⟨names, hx⟩
  -- the answer is no imported name, whose spelling would be looked up
  cases x
  case imported => cases hx
  all_goals
    simp only [Bool.false_eq_true, if_false, pure_bind]
    refine takes_peek fun t c hc hkind => ?_
    rw [Word.headKind_nil, hc] at hkind
    rw [hkind]
    refine takes_pure fun names hsays => ?_
    rw [StmtSays, Stmt.plain?, hsays]
    rfl

theorem Says.exists_name {text : Text} {names : SymbolId → Text} {x : Expr}
    (h : Says (.name text) names x) : ∃ offset read, x = .name offset text read := by
  cases x
  case name offset text' read =>
    cases h
    exact ⟨offset, read, rfl⟩
  all_goals simp [Says, Expr.plain?] at h

theorem says_member {target : PlainExpr} {text text' : Text} {names : SymbolId → Text}
    {offset : Nat} {x : Expr} {property : SymbolId} {entry : Option EntryRead}
    (h : Says (.member target text) names (.member offset x text' property entry)) :
    names property = text ∧ Says target names x := by
  rw [Says, Expr.plain?] at h
  split at h
  · next hname =>
      obtain ⟨target', htarget, heq⟩ := Option.map_eq_some_iff.mp h
      cases heq
      exact ⟨hname, htarget⟩
  · cases h

theorem Says.exists_member {target : PlainExpr} {text : Text} {names : SymbolId → Text} {x : Expr}
    (h : Says (.member target text) names x) :
    ∃ offset x' text' property entry, x = .member offset x' text' property entry := by
  cases x
  case member offset x' text' property entry => exact ⟨offset, x', text', property, entry, rfl⟩
  all_goals simp [Says, Expr.plain?] at h

theorem stops_assign : ∀ k, k = TokenKind.assign → Stops 0 k := by
  rintro k rfl
  exact stops_zero (by decide)

theorem rereads_assign {text : Text} {value : PlainExpr} (htext : text.isIdentifier = true)
    (hvalue : value.isRegular = true) : RereadsStatement base (.assign text value) := by
  intro top fuel hfuel
  have hwords : (PlainStmt.assign text value).words =
      (PlainExpr.name text).words 0 true ++ sign .assign :: value.words 0 false := rfl
  rw [hwords, List.length_append, List.length_cons] at hfuel
  obtain ⟨fuel, rfl⟩ : ∃ k, fuel = k + 1 := ⟨fuel - 1, by omega⟩
  rw [hwords]
  refine takes_statement_simple _ ?_
  rw [simpleStatement]
  have hname : (PlainExpr.name text).isRegular = true := htext
  refine (takes_expression hname stops_assign (by omega)).bind (fun _ _ => rfl) ?_
  rintro x ⟨_, hx⟩
  obtain ⟨offset, read, rfl⟩ := hx.exists_name
  simp only [Bool.false_eq_true, if_false, pure_bind]
  refine takes_peek_cons fun t ht => ?_
  rw [show t.kind = .assign from congrArg Word.kind ht]
  refine takes_advance fun mark _ => ?_
  refine (takes_expression hvalue stops_semicolon (by omega)).bind_nil (fun _ hk => hk) fun y _ => ?_
  refine takes_newSymbol fun symbol => takes_pure fun names hsymbol hy _ => ?_
  rw [StmtSays, Stmt.plain?, if_pos hsymbol, hy]
  rfl

theorem rereads_setMember {target value : PlainExpr} {text : Text}
    (htarget : target.isRegular = true) (htext : text.isIdentifier = true)
    (hvalue : value.isRegular = true) :
    RereadsStatement base (.setMember target text value) := by
  intro top fuel hfuel
  have hmember : (PlainExpr.member target text).isRegular = true := by
    rw [PlainExpr.isRegular, htarget, htext, Bool.and_self]
  have hwords : (PlainStmt.setMember target text value).words =
      (PlainExpr.member target text).words 0 true ++ sign .assign :: value.words 0 false := by
    rw [PlainExpr.words_of_not_isEnclosed rfl, PlainExpr.bareWords_member, List.append_assoc]
    rfl
  rw [hwords, List.length_append, List.length_cons] at hfuel
  obtain ⟨fuel, rfl⟩ : ∃ k, fuel = k + 1 := ⟨fuel - 1, by omega⟩
  rw [hwords]
  refine takes_statement_simple _ ?_
  rw [simpleStatement]
  refine (takes_expression hmember stops_assign (by omega)).bind (fun _ _ => rfl) ?_
  rintro x ⟨_, hx⟩
  obtain ⟨offset, x, text', property, entry, rfl⟩ := hx.exists_member
  simp only [Bool.false_eq_true, if_false, pure_bind]
  refine takes_peek_cons fun t ht => ?_
  rw [show t.kind = .assign from congrArg Word.kind ht]
  refine takes_advance fun mark _ => ?_
  refine (takes_expression hvalue stops_semicolon (by omega)).bind_pure fun y _ => ⟨_, rfl, ?_⟩
  intro names hy hmember
  obtain ⟨hproperty, hx⟩ := says_member hmember
  rw [StmtSays, Stmt.plain?, hx, hy, hproperty]
  rfl

/-! ## Blocks -/

/-- What a statement starts with is neither the end of a block nor that of a file. -/
theorem head_words (s : PlainStmt) : ∃ w ws, s.words = w :: ws ∧
    w.kind ∉ [TokenKind.closeBrace, .endOfFile, .semicolon] := by
  have hopens : ∀ {w : Word} {start}, w.kind.Opens 0 start →
      w.kind ∉ [TokenKind.closeBrace, .endOfFile, .semicolon] := by
    rintro w start ⟨hmem, -⟩ hend
    simp only [List.mem_cons, List.not_mem_nil, or_false] at hend
    rcases hend with heq | heq | heq
    all_goals exact absurd (heq ▸ hmem) (by decide)
  cases s with
  | expr value =>
      obtain ⟨w, ws, hw, hstart⟩ := value.opens_head 0 true
      exact ⟨w, ws, hw, hopens hstart⟩
  | setMember target text value =>
      obtain ⟨w, ws, hw, hmem, hbrace, -⟩ := target.opens_head 4 true
      refine ⟨w, _, by rw [PlainStmt.words, hw]; rfl, hopens ⟨hmem, hbrace, by simp⟩⟩
  | return_ value => cases value <;> exact ⟨_, _, rfl, by decide⟩
  | if_ condition then_ else_ => cases else_ <;> exact ⟨_, _, rfl, by decide⟩
  | _ => exact ⟨_, _, rfl, by simp [sign, Word.name]⟩

/-- No semicolon stands in front of statements. -/
theorem headKind_wordsOfAll (ss : List PlainStmt) {c : TokenKind} (hc : c ≠ .semicolon) :
    Word.headKind (PlainStmt.wordsOfAll ss) c ≠ .semicolon := by
  cases ss with
  | nil => exact hc
  | cons s ss =>
      obtain ⟨w, ws, hw, hend⟩ := head_words s
      rw [PlainStmt.wordsOfAll, hw]
      simp_all

theorem takes_blockRest {ss : List PlainStmt} (hss : ∀ s ∈ ss, RereadsStatement base s)
    (fuel : Nat) (start : Token) (seen : List Stmt)
    (hfuel : 10 * (PlainStmt.wordsOfAll ss).length + 10 ≤ fuel) :
    Takes base (PlainStmt.wordsOfAll ss ++ [sign .closeBrace]) (fun _ => True)
      (blockRest fuel start seen)
      fun names xs => ∃ more, xs = seen ++ more ∧ Stmt.plainOfAll? names more = some ss := by
  induction ss generalizing fuel seen with
  | nil =>
      obtain ⟨fuel, rfl⟩ : ∃ k, fuel = k + 1 := ⟨fuel - 1, by omega⟩
      rw [blockRest]
      refine takes_accept rfl (takes_pure fun names => ?_)
      exact ⟨[], by simp, rfl⟩
  | cons s ss ih =>
      obtain ⟨w, ws, hw, hend⟩ := head_words s
      simp only [PlainStmt.wordsOfAll, List.length_append, List.length_cons] at hfuel ⊢
      obtain ⟨fuel, rfl⟩ : ∃ k, fuel = k + 1 := ⟨fuel - 1, by omega⟩
      have hread := hss s List.mem_cons_self false fuel (by omega)
      have hrest : Takes base (s.words ++ (sign .semicolon ::
            (PlainStmt.wordsOfAll ss ++ [sign .closeBrace]))) (fun _ => True)
          (statement fuel false >>= fun x => skipSemicolons >>= fun _ =>
            blockRest fuel start (seen ++ [x]))
          fun names xs => ∃ more, xs = seen ++ more ∧
            Stmt.plainOfAll? names more = some (s :: ss) := by
        refine hread.bind (fun _ _ => rfl) fun x _ => takes_semicolon (fun c _ => ?_) ?_
        · rw [Word.headKind_append]
          exact headKind_wordsOfAll ss (by simp [sign])
        · refine (ih (fun y hy => hss y (List.mem_cons_of_mem s hy)) fuel (seen ++ [x])
            (by omega)).mono ?_
          rintro names xs ⟨more, rfl, hmore⟩ hx
          exact ⟨x :: more, by simp, by rw [Stmt.plainOfAll?, hx, hmore]; rfl⟩
      rw [blockRest, List.append_assoc]
      refine takes_accept_not (fun c _ => ?_) (takes_peek fun t c _ hkind => ?_)
      · rw [hw]
        simp_all
      · have hne : (t.kind == TokenKind.endOfFile) = false := by
          rw [hkind, hw]
          simp_all
        rw [hne]
        exact hrest

theorem rereads_block {ss : List PlainStmt} (hss : ∀ s ∈ ss, RereadsStatement base s) :
    RereadsBlock base ss := by
  intro fuel hfuel
  simp only [braces, List.length_cons, List.length_append, List.length_nil] at hfuel ⊢
  obtain ⟨fuel, rfl⟩ : ∃ k, fuel = k + 1 := ⟨fuel - 1, by omega⟩
  rw [block]
  refine takes_expect rfl fun start _ => takes_skipSemicolons (fun c _ => ?_) ?_
  · rw [Word.headKind_append]
    exact headKind_wordsOfAll ss (by simp [sign])
  · refine (takes_blockRest hss fuel start [] (by omega)).mono ?_
    rintro names xs ⟨more, rfl, hmore⟩
    exact hmore

theorem RereadsBlock.statement {ss : List PlainStmt} (h : RereadsBlock base ss) :
    RereadsStatement base (.block ss) := by
  intro top fuel hfuel
  rw [PlainStmt.words] at hfuel ⊢
  obtain ⟨fuel, rfl⟩ : ∃ k, fuel = k + 1 := ⟨fuel - 1, by omega⟩
  rw [braces, Parser.statement]
  refine takes_peek_cons fun t ht => ?_
  rw [show t.kind = .openBrace from congrArg Word.kind ht]
  refine ((h fuel (by omega)).mono_next fun _ _ => trivial).bind_pure fun xs _ => ⟨_, rfl, ?_⟩
  intro names hxs
  rw [StmtSays, Stmt.plain?, hxs]
  rfl

theorem rereads_fn {text : Text} {texts : List Text} {body : List PlainStmt}
    (hbody : RereadsBlock base body) : RereadsStatement base (.fn text texts body) := by
  intro top fuel hfuel
  simp only [PlainStmt.words, parens, List.length_cons, List.length_append,
    List.length_nil] at hfuel
  obtain ⟨fuel, rfl⟩ : ∃ k, fuel = k + 2 := ⟨fuel - 2, by omega⟩
  rw [PlainStmt.words, Parser.statement]
  refine takes_peek_cons fun t ht => ?_
  rw [show t.kind = .fn from congrArg Word.kind ht]
  dsimp only
  rw [fnStatement, parens, List.cons_append]
  refine takes_advance fun start _ => takes_expect rfl fun name hname => takes_newSymbol fun symbol => ?_
  refine takes_expect rfl fun _ _ => takes_get fun s hs => ?_
  have hle := length_le_length_names texts
  rw [List.length_append, List.length_append] at hs
  refine (takes_allParams (by omega)).bind (fun _ _ => trivial) fun ps _ => ?_
  rw [braces]
  refine takes_peek_cons fun t ht => ?_
  rw [show t.kind = .openBrace from congrArg Word.kind ht]
  refine ((hbody fuel (by omega)).mono_next fun _ _ => trivial).bind_pure fun xs _ => ⟨_, rfl, ?_⟩
  rintro names hxs ⟨htexts, hps⟩ hsymbol
  rw [StmtSays, Stmt.plain?, if_pos ⟨hsymbol, hps⟩, hxs, htexts,
    show name.text = text from congrArg Word.text hname]
  rfl

theorem RereadsIf.statement {condition : PlainExpr} {then_ : List PlainStmt}
    {else_ : Option PlainStmt} (h : RereadsIf base (.if_ condition then_ else_)) :
    RereadsStatement base (.if_ condition then_ else_) := by
  intro top fuel hfuel
  obtain ⟨fuel, rfl⟩ : ∃ k, fuel = k + 1 := ⟨fuel - 1, by omega⟩
  have hread := h fuel (by omega)
  obtain ⟨ws, hws⟩ : ∃ ws, (PlainStmt.if_ condition then_ else_).words = sign .if_ :: ws := by
    cases else_ <;> exact ⟨_, rfl⟩
  rw [hws] at hread ⊢
  rw [Parser.statement]
  refine takes_peek_cons fun t ht => ?_
  rw [show t.kind = .if_ from congrArg Word.kind ht]
  exact hread

def elseBranch (fuel : Nat) (make : Option Stmt → Stmt) : Parser Stmt := do
  if ← accept .else_ then
    let e ← peek
    match e.kind with
    | .if_ =>
        let other ← ifStatement fuel
        return make (some other)
    | .openBrace =>
        let other ← block fuel
        return make (some (.block e.offset other))
    | _ => failAt e ("expected if or block after else, found " ++ e.describe)
  else return make none

def RereadsElse (base : Nat) (ws : List Word) (else_ : Option PlainStmt) : Prop :=
  ∀ fuel make, 10 * ws.length ≤ fuel → Takes base ws (· = .semicolon) (elseBranch fuel make)
    fun names x => ∃ other, x = make other ∧ other.map (Stmt.plain? names) = else_.map some

theorem rereadsElse_none : RereadsElse base [] none := by
  intro fuel make _
  rw [elseBranch]
  refine takes_accept_not ?_ (takes_pure fun _ => ⟨none, rfl, rfl⟩)
  rintro c rfl
  decide

theorem RereadsIf.rereadsElse {condition : PlainExpr} {then_ : List PlainStmt}
    {else_ : Option PlainStmt} (h : RereadsIf base (.if_ condition then_ else_)) :
    RereadsElse base (sign .else_ :: (PlainStmt.if_ condition then_ else_).words)
      (some (.if_ condition then_ else_)) := by
  intro fuel make hfuel
  rw [List.length_cons] at hfuel
  have hread := h fuel (by omega)
  obtain ⟨ws, hws⟩ : ∃ ws, (PlainStmt.if_ condition then_ else_).words = sign .if_ :: ws := by
    cases else_ <;> exact ⟨_, rfl⟩
  rw [hws] at hread ⊢
  rw [elseBranch]
  refine takes_accept rfl (takes_peek_cons fun t ht => ?_)
  rw [show t.kind = .if_ from congrArg Word.kind ht]
  refine hread.bind_pure fun other _ => ⟨_, rfl, fun names hother => ⟨some other, rfl, ?_⟩⟩
  exact congrArg some hother

theorem RereadsBlock.rereadsElse {body : List PlainStmt} (h : RereadsBlock base body) :
    RereadsElse base (sign .else_ :: (PlainStmt.block body).words) (some (.block body)) := by
  intro fuel make hfuel
  rw [PlainStmt.words, List.length_cons] at hfuel
  have hread := (h fuel (by omega)).mono_next fun k (_ : k = .semicolon) => trivial
  rw [PlainStmt.words, elseBranch]
  rw [braces] at hread ⊢
  refine takes_accept rfl (takes_peek_cons fun t ht => ?_)
  rw [show t.kind = .openBrace from congrArg Word.kind ht]
  refine hread.bind_pure fun other _ =>
    ⟨_, rfl, fun names hother => ⟨some (.block t.offset other), rfl, ?_⟩⟩
  rw [Option.map_some, Stmt.plain?, hother]
  rfl

def elseWords : Option PlainStmt → List Word
  | none => []
  | some other => sign .else_ :: other.words

theorem words_if (condition : PlainExpr) (then_ : List PlainStmt) (else_ : Option PlainStmt) :
    (PlainStmt.if_ condition then_ else_).words = sign .if_ :: (condition.words 0 false ++
      (braces (PlainStmt.wordsOfAll then_) ++ elseWords else_)) := by
  cases else_ with
  | none => rw [PlainStmt.words, elseWords, List.append_nil]
  | some other => rw [PlainStmt.words, elseWords]

theorem plain?_if {names : SymbolId → Text} {condition : PlainExpr} {then_ : List PlainStmt}
    {else_ : Option PlainStmt} {x : Expr} {xs : List Stmt} {other : Option Stmt} {o o' : Nat}
    (hx : Says condition names x) (hxs : Stmt.plainOfAll? names xs = some then_)
    (hother : other.map (Stmt.plain? names) = else_.map some) :
    StmtSays (.if_ condition then_ else_) names (.if_ o x o' xs other) := by
  cases other with
  | none =>
      obtain rfl : else_ = none := by simpa using hother.symm
      rw [StmtSays, Stmt.plain?, hx, hxs]
      rfl
  | some other =>
      obtain ⟨s, rfl, hs⟩ : ∃ s, else_ = some s ∧ some s = other.plain? names := by
        simpa using hother.symm
      rw [StmtSays, Stmt.plain?, hx, hxs, ← hs]
      rfl

theorem rereads_if {condition : PlainExpr} {then_ : List PlainStmt} {else_ : Option PlainStmt}
    (hcondition : condition.isRegular = true) (hthen : RereadsBlock base then_)
    (helse : RereadsElse base (elseWords else_) else_) :
    RereadsIf base (.if_ condition then_ else_) := by
  intro fuel hfuel
  rw [words_if] at hfuel ⊢
  rw [List.length_cons, List.length_append, List.length_append] at hfuel
  obtain ⟨fuel, rfl⟩ : ∃ k, fuel = k + 1 := ⟨fuel - 1, by omega⟩
  rw [ifStatement]
  refine takes_advance fun start _ => ?_
  refine (takes_expression hcondition (fun k (hk : k = .openBrace) => ?_) (by omega)).bind
    (fun _ _ => rfl) fun x _ => ?_
  · rw [hk]
    exact stops_zero (by decide)
  · have hblock := hthen fuel (by omega)
    rw [braces] at hblock ⊢
    refine takes_peek_cons fun t ht => ?_
    rw [show t.kind = .openBrace from congrArg Word.kind ht]
    refine hblock.bind (fun _ _ => trivial) fun xs _ => ?_
    refine (helse fuel (fun other => .if_ start.offset x t.offset xs other) (by omega)).mono ?_
    rintro names a ⟨other, rfl, hother⟩ hxs hx
    exact plain?_if hx hxs hother

/-- A statement that may stand in a block, and what it is behind `else`. -/
structure RereadsAll (base : Nat) (s : PlainStmt) : Prop where
  statement : RereadsStatement base s
  branch : s.isBranch = true → RereadsElse base (elseWords (some s)) (some s)

mutual

theorem rereads_statement (s : PlainStmt) (h : s.isRegular false = true) : RereadsAll base s := by
  match s with
  | .enum _ _ => simp [PlainStmt.isRegular] at h
  | .let_ text value =>
      rw [PlainStmt.isRegular, Bool.and_eq_true] at h
      exact ⟨rereads_let text h.2, by simp [PlainStmt.isBranch]⟩
  | .fn text params body =>
      rw [PlainStmt.isRegular, Bool.and_eq_true] at h
      exact ⟨rereads_fn (rereads_block (rereads_all_statements body h.2)), by simp [PlainStmt.isBranch]⟩
  | .retain texts =>
      rw [PlainStmt.isRegular, Bool.and_eq_true] at h
      refine ⟨rereads_retain ?_, by simp [PlainStmt.isBranch]⟩
      rintro rfl
      simp at h
  | .return_ none => exact ⟨rereads_return_none, by simp [PlainStmt.isBranch]⟩
  | .return_ (some value) =>
      rw [PlainStmt.isRegular] at h
      exact ⟨rereads_return_some h, by simp [PlainStmt.isBranch]⟩
  | .if_ condition then_ none =>
      rw [PlainStmt.isRegular, Bool.and_eq_true] at h
      have hif : RereadsIf base (.if_ condition then_ none) :=
        rereads_if h.1 (rereads_block (rereads_all_statements then_ h.2)) rereadsElse_none
      exact ⟨hif.statement, fun _ => hif.rereadsElse⟩
  | .if_ condition then_ (some other) =>
      rw [PlainStmt.isRegular, Bool.and_eq_true, Bool.and_eq_true, Bool.and_eq_true] at h
      have hif : RereadsIf base (.if_ condition then_ (some other)) :=
        rereads_if h.1.1.1 (rereads_block (rereads_all_statements then_ h.1.1.2)) ((rereads_statement other h.2).branch h.1.2)
      exact ⟨hif.statement, fun _ => hif.rereadsElse⟩
  | .block body =>
      rw [PlainStmt.isRegular] at h
      have hblock : RereadsBlock base body := rereads_block (rereads_all_statements body h)
      exact ⟨hblock.statement, fun _ => hblock.rereadsElse⟩
  | .assign text value =>
      rw [PlainStmt.isRegular, Bool.and_eq_true] at h
      exact ⟨rereads_assign h.1 h.2, by simp [PlainStmt.isBranch]⟩
  | .setMember target text value =>
      rw [PlainStmt.isRegular, Bool.and_eq_true, Bool.and_eq_true] at h
      exact ⟨rereads_setMember h.1.1 h.1.2 h.2, by simp [PlainStmt.isBranch]⟩
  | .expr value =>
      rw [PlainStmt.isRegular] at h
      exact ⟨rereads_expr h, by simp [PlainStmt.isBranch]⟩

theorem rereads_all_statements (ss : List PlainStmt) (h : PlainStmt.areRegular ss false = true) :
    ∀ s ∈ ss, RereadsStatement base s := by
  match ss with
  | [] => simp
  | s :: ss =>
      rw [PlainStmt.areRegular, Bool.and_eq_true] at h
      exact List.forall_mem_cons.mpr
        ⟨(rereads_statement s h.1).statement, rereads_all_statements ss h.2⟩

end

end

end Splice.Parser

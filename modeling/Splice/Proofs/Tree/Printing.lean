import Splice.Proofs.Tree.Plain

/-!
# Printing

The words of plain syntax.  Operators are grouped by levels: comparisons, sums, products,
unary operators, and what can stand in front of a member or a call.  An operand is put in
parentheses if its level is below the one that its place asks for, and so is an object
that would start a statement, where its brace would be taken for that of a block.  A
semicolon stands behind every statement.
-/

namespace Splice

namespace Word

def separated : List (List Word) → List Word
  | [] => []
  | ws :: more => ws ++ more.flatMap (sign .comma :: ·)

def parens (ws : List Word) : List Word := sign .openParen :: (ws ++ [sign .closeParen])

def braces (ws : List Word) : List Word := sign .openBrace :: (ws ++ [sign .closeBrace])

/-- Words that may stand in parentheses; those inside may differ, as a statement does not
start with them. -/
def enclosedIf (enclosed : Bool) (inside bare : List Word) : List Word :=
  if enclosed then parens inside else bare

def names (ts : List Text) : List Word := separated (ts.map ([name ·]))

end Word

open Word (sign separated parens braces enclosedIf)

namespace PlainExpr

/-- How tightly the parts of an expression hold together: 4 for what needs no
parentheses in any place. -/
def level : PlainExpr → Nat
  | binary op _ _ => op.level
  | unary _ _ => 3
  | _ => 4

def isObject : PlainExpr → Bool
  | object _ _ => true
  | _ => false

/-- Whether an expression stands in parentheses where a level is asked for; `start` tells
whether a statement starts there. -/
def isEnclosed (e : PlainExpr) (least : Nat) (start : Bool) : Bool :=
  e.level < least || (start && e.isObject)

mutual

/-- The words of an expression with no parentheses around it. -/
def bareWords : PlainExpr → (start : Bool) → List Word
  | number value, _ => [Word.number value.toInt.toNat]
  | string value, _ => [Word.string value]
  | bool value, _ => [sign (if value then .true else .false)]
  | nil, _ => [sign .nil]
  | name text, _ => [Word.name text]
  | member target text, start =>
      enclosedIf (target.isEnclosed 4 start) (target.bareWords false) (target.bareWords start) ++
        [sign .dot, Word.name text]
  | call callee args, start =>
      enclosedIf (callee.isEnclosed 4 start) (callee.bareWords false) (callee.bareWords start) ++
        parens (separated (itemWords args))
  | syscall text args, _ =>
      sign .dollar :: Word.name text :: parens (separated (itemWords args))
  | object keys values, _ => braces (separated (fieldWords keys values))
  | binary op left right, start =>
      enclosedIf (left.isEnclosed op.level start) (left.bareWords false) (left.bareWords start) ++
        sign op.token ::
          enclosedIf (right.isEnclosed (op.level + 1) false) (right.bareWords false)
            (right.bareWords false)
  | unary op operand, _ =>
      sign op.token ::
        enclosedIf (operand.isEnclosed 3 false) (operand.bareWords false) (operand.bareWords false)

def itemWords : List PlainExpr → List (List Word)
  | [] => []
  | e :: es => e.bareWords false :: itemWords es

/-- The words of each field; those without a value or a key are left out. -/
def fieldWords : (keys : List Text) → (values : List PlainExpr) → List (List Word)
  | key :: keys, e :: es =>
      (Word.name key :: sign .colon :: e.bareWords false) :: fieldWords keys es
  | _, _ => []

end

/-- The words of an expression in a place that asks for a level. -/
def words (e : PlainExpr) (least : Nat) (start : Bool) : List Word :=
  enclosedIf (e.isEnclosed least start) (e.bareWords false) (e.bareWords start)

end PlainExpr

namespace PlainStmt

mutual

def words : PlainStmt → List Word
  | enum text entries => sign .enum :: Word.name text :: braces (Word.names entries)
  | let_ text value => sign .let_ :: Word.name text :: sign .assign :: value.words 0 false
  | fn text params body =>
      sign .fn :: Word.name text :: (parens (Word.names params) ++ braces (wordsOfAll body))
  | retain texts => sign .retain :: Word.names texts
  | return_ none => [sign .return_]
  | return_ (some value) => sign .return_ :: value.words 0 false
  | if_ condition then_ none =>
      sign .if_ :: (condition.words 0 false ++ braces (wordsOfAll then_))
  | if_ condition then_ (some else_) =>
      sign .if_ :: (condition.words 0 false ++
        (braces (wordsOfAll then_) ++ sign .else_ :: else_.words))
  | block body => braces (wordsOfAll body)
  | assign text value => Word.name text :: sign .assign :: value.words 0 false
  | setMember target text value =>
      target.words 4 true ++ sign .dot :: Word.name text :: sign .assign :: value.words 0 false
  | expr value => value.words 0 true

def wordsOfAll : List PlainStmt → List Word
  | [] => []
  | s :: ss => s.words ++ sign .semicolon :: wordsOfAll ss

end

def print (ss : List PlainStmt) : Text := Word.line (wordsOfAll ss)

end PlainStmt

namespace PlainExpr

variable {e : PlainExpr} {least : Nat} {start : Bool}

theorem words_of_isEnclosed (h : e.isEnclosed least start = true) :
    e.words least start = parens (e.bareWords false) := by
  rw [words, enclosedIf, if_pos h]

theorem words_of_not_isEnclosed (h : e.isEnclosed least start = false) :
    e.words least start = e.bareWords start := by
  rw [words, enclosedIf, h, if_neg Bool.false_ne_true]

theorem isEnclosed_eq_false_iff : e.isEnclosed least start = false ↔
    least ≤ e.level ∧ (start = true → e.isObject = false) := by
  simp [isEnclosed]

theorem words_zero : e.words 0 false = e.bareWords false :=
  words_of_not_isEnclosed (isEnclosed_eq_false_iff.mpr ⟨Nat.zero_le _, by simp⟩)

theorem bareWords_member (target : PlainExpr) (text : Text) :
    (member target text).bareWords start =
      target.words 4 start ++ [sign .dot, Word.name text] := rfl

theorem bareWords_call (callee : PlainExpr) (args : List PlainExpr) :
    (call callee args).bareWords start =
      callee.words 4 start ++ parens (separated (itemWords args)) := rfl

theorem bareWords_binary (op : BinaryOp) (left right : PlainExpr) :
    (binary op left right).bareWords start =
      left.words op.level start ++ sign op.token :: right.words (op.level + 1) false := rfl

theorem bareWords_unary (op : UnaryOp) (operand : PlainExpr) :
    (unary op operand).bareWords start = sign op.token :: operand.words 3 false := rfl

end PlainExpr

theorem BinaryOp.level_le (op : BinaryOp) : op.level ≤ 2 := by
  cases op <;> decide

/-- The kinds of word that an expression can start with in a place: a brace not at the
start of a statement, and an operator not where a member could be accessed. -/
def TokenKind.Opens (least : Nat) (start : Bool) (k : TokenKind) : Prop :=
  k ∈ [number, string, true, false, nil, identifier, dollar, openParen, openBrace, minus, not] ∧
    (start = Bool.true → k ≠ openBrace) ∧ (least = 4 → UnaryOp.ofToken? k = none)

namespace PlainExpr

theorem opens_head (e : PlainExpr) (least : Nat) (start : Bool) :
    ∃ w ws, e.words least start = w :: ws ∧ w.kind.Opens least start := by
  cases henclosed : e.isEnclosed least start with
  | true =>
      refine ⟨sign .openParen, _, words_of_isEnclosed henclosed, ?_⟩
      simp [TokenKind.Opens, sign, UnaryOp.ofToken?]
  | false =>
      obtain ⟨hlevel, hobject⟩ := isEnclosed_eq_false_iff.mp henclosed
      rw [words_of_not_isEnclosed henclosed]
      cases e with
      | bool value =>
          refine ⟨_, _, rfl, ?_⟩
          cases value <;> simp [TokenKind.Opens, sign, UnaryOp.ofToken?]
      | object keys values =>
          refine ⟨_, _, rfl, ?_⟩
          have hstart : start = false := by simpa [isObject] using hobject
          simp [TokenKind.Opens, sign, UnaryOp.ofToken?, hstart]
      | member target text =>
          obtain ⟨w, ws, hw, hmem, hbrace, hsign⟩ := opens_head target 4 start
          rw [bareWords_member, hw]
          exact ⟨w, _, rfl, hmem, hbrace, fun _ => hsign rfl⟩
      | call callee args =>
          obtain ⟨w, ws, hw, hmem, hbrace, hsign⟩ := opens_head callee 4 start
          rw [bareWords_call, hw]
          exact ⟨w, _, rfl, hmem, hbrace, fun _ => hsign rfl⟩
      | binary op left right =>
          obtain ⟨w, ws, hw, hmem, hbrace, -⟩ := opens_head left op.level start
          have hop := op.level_le
          simp only [level] at hlevel
          rw [bareWords_binary, hw]
          exact ⟨w, _, rfl, hmem, hbrace, fun _ => by omega⟩
      | unary op operand =>
          simp only [level] at hlevel
          refine ⟨_, _, rfl, ?_, ?_, fun _ => by omega⟩
          · cases op <;> decide
          · cases op <;> simp [sign, UnaryOp.token]
      | _ =>
          refine ⟨_, _, rfl, ?_⟩
          simp [TokenKind.Opens, sign, Word.number, Word.string, Word.name, UnaryOp.ofToken?]

theorem length_words_pos (e : PlainExpr) (least : Nat) (start : Bool) :
    0 < (e.words least start).length := by
  obtain ⟨w, ws, hw, -⟩ := opens_head e least start
  simp [hw]

end PlainExpr

/-! ## The words of regular syntax -/

namespace Word

variable {ws inside bare : List Word}

def AreLexical (ws : List Word) : Prop := ∀ w ∈ ws, w.IsLexical

theorem areLexical_cons {w : Word} : AreLexical (w :: ws) ↔ w.IsLexical ∧ AreLexical ws := by
  simp [AreLexical]

theorem areLexical_append {more : List Word} :
    AreLexical (ws ++ more) ↔ AreLexical ws ∧ AreLexical more := by
  simp only [AreLexical, List.forall_mem_append]

theorem areLexical_nil : AreLexical [] := by simp [AreLexical]

theorem isLexical_sign {k : TokenKind}
    (h : k ∉ [TokenKind.endOfFile, .identifier, .number, .string]) : (sign k).IsLexical := by
  have hkinds : ∀ k ∈ TokenKind.all, k ∉ [TokenKind.endOfFile, .identifier, .number, .string] →
      k ∈ TokenKind.keywords ∨ k ∈ TokenKind.punctuation ∨
        k ∈ [TokenKind.assign, .equal, .not, .notEqual] := by decide
  rcases hkinds k (by cases k <;> decide) h with h | h | h
  · exact .keyword h
  · exact .mark h
  · exact .compound h

theorem areLexical_parens (h : AreLexical ws) : AreLexical (parens ws) := by
  rw [parens, areLexical_cons, areLexical_append, areLexical_cons]
  exact ⟨isLexical_sign (by decide), h, isLexical_sign (by decide), areLexical_nil⟩

theorem areLexical_braces (h : AreLexical ws) : AreLexical (braces ws) := by
  rw [braces, areLexical_cons, areLexical_append, areLexical_cons]
  exact ⟨isLexical_sign (by decide), h, isLexical_sign (by decide), areLexical_nil⟩

theorem areLexical_separated {items : List (List Word)} (h : ∀ ws ∈ items, AreLexical ws) :
    AreLexical (separated items) := by
  cases items with
  | nil => exact areLexical_nil
  | cons ws more =>
      rw [separated, areLexical_append]
      refine ⟨h ws List.mem_cons_self, ?_⟩
      intro w hw
      obtain ⟨item, hitem, hmem⟩ := List.mem_flatMap.mp hw
      rcases List.mem_cons.mp hmem with rfl | hmem
      · exact isLexical_sign (by decide)
      · exact h item (List.mem_cons_of_mem ws hitem) w hmem

theorem areLexical_names {ts : List Text} (h : ts.all Text.isIdentifier = true) :
    AreLexical (names ts) := by
  apply areLexical_separated
  intro ws hws
  obtain ⟨t, ht, rfl⟩ := List.mem_map.mp hws
  exact areLexical_cons.mpr ⟨.name (List.all_eq_true.mp h t ht), areLexical_nil⟩

end Word

open Word (AreLexical areLexical_cons areLexical_append areLexical_nil areLexical_parens
  areLexical_braces areLexical_separated areLexical_names isLexical_sign)

namespace PlainExpr

variable {e : PlainExpr} {least : Nat} {start : Bool}

theorem areLexical_words (h : ∀ start, AreLexical (e.bareWords start)) :
    AreLexical (e.words least start) := by
  cases henclosed : e.isEnclosed least start with
  | true =>
      rw [words_of_isEnclosed henclosed]
      exact areLexical_parens (h false)
  | false =>
      rw [words_of_not_isEnclosed henclosed]
      exact h start

theorem isLexical_number (value : Int64) :
    (Word.number value.toInt.toNat).IsLexical := by
  have hlt := value.toInt_lt
  refine .number ?_
  rw [Lexeme.maxNumber]
  omega

mutual

theorem areLexical_bareWords (e : PlainExpr) (h : e.isRegular = true) (start : Bool) :
    AreLexical (e.bareWords start) := by
  match e with
  | .number value =>
      exact areLexical_cons.mpr ⟨isLexical_number value, areLexical_nil⟩
  | .string value => exact areLexical_cons.mpr ⟨.string value, areLexical_nil⟩
  | .bool value =>
      refine areLexical_cons.mpr ⟨isLexical_sign ?_, areLexical_nil⟩
      cases value <;> decide
  | .nil => exact areLexical_cons.mpr ⟨isLexical_sign (by decide), areLexical_nil⟩
  | .name text => exact areLexical_cons.mpr ⟨.name h, areLexical_nil⟩
  | .member target text =>
      rw [isRegular, Bool.and_eq_true] at h
      rw [bareWords_member, areLexical_append]
      refine ⟨areLexical_words (areLexical_bareWords target h.1), ?_⟩
      exact areLexical_cons.mpr ⟨isLexical_sign (by decide),
        areLexical_cons.mpr ⟨.name h.2, areLexical_nil⟩⟩
  | .call callee args =>
      rw [isRegular, Bool.and_eq_true] at h
      rw [bareWords_call, areLexical_append]
      exact ⟨areLexical_words (areLexical_bareWords callee h.1),
        areLexical_parens (areLexical_separated (areLexical_itemWords args h.2))⟩
  | .syscall text args =>
      rw [isRegular, Bool.and_eq_true] at h
      rw [bareWords, areLexical_cons, areLexical_cons]
      exact ⟨isLexical_sign (by decide), .name h.1,
        areLexical_parens (areLexical_separated (areLexical_itemWords args h.2))⟩
  | .object keys values =>
      rw [isRegular, Bool.and_eq_true, Bool.and_eq_true] at h
      exact areLexical_braces (areLexical_separated (areLexical_fieldWords keys values h.1.2 h.2))
  | .binary op left right =>
      rw [isRegular, Bool.and_eq_true] at h
      rw [bareWords_binary, areLexical_append, areLexical_cons]
      refine ⟨areLexical_words (areLexical_bareWords left h.1), isLexical_sign ?_,
        areLexical_words (areLexical_bareWords right h.2)⟩
      cases op <;> decide
  | .unary op operand =>
      rw [isRegular] at h
      rw [bareWords_unary, areLexical_cons]
      refine ⟨isLexical_sign ?_, areLexical_words (areLexical_bareWords operand h)⟩
      cases op <;> decide

theorem areLexical_itemWords (es : List PlainExpr) (h : areRegular es = true) :
    ∀ ws ∈ itemWords es, AreLexical ws := by
  match es with
  | [] => simp [itemWords]
  | e :: es =>
      rw [areRegular, Bool.and_eq_true] at h
      rw [itemWords, List.forall_mem_cons]
      exact ⟨areLexical_bareWords e h.1 false, areLexical_itemWords es h.2⟩

theorem areLexical_fieldWords (keys : List Text) (es : List PlainExpr)
    (hkeys : keys.all Text.isIdentifier = true) (h : areRegular es = true) :
    ∀ ws ∈ fieldWords keys es, AreLexical ws := by
  match keys, es with
  | [], _ => simp [fieldWords]
  | _ :: _, [] => simp [fieldWords]
  | key :: keys, e :: es =>
      rw [areRegular, Bool.and_eq_true] at h
      rw [List.all_cons, Bool.and_eq_true] at hkeys
      rw [fieldWords, List.forall_mem_cons]
      refine ⟨?_, areLexical_fieldWords keys es hkeys.2 h.2⟩
      exact areLexical_cons.mpr ⟨.name hkeys.1, areLexical_cons.mpr
        ⟨isLexical_sign (by decide), areLexical_bareWords e h.1 false⟩⟩

end

theorem areLexical_words_of_isRegular (h : e.isRegular = true) :
    AreLexical (e.words least start) :=
  areLexical_words (areLexical_bareWords e h)

end PlainExpr

namespace PlainStmt

mutual

theorem areLexical_words (s : PlainStmt) (top : Bool) (h : s.isRegular top = true) :
    AreLexical s.words := by
  match s with
  | .enum text entries =>
      rw [isRegular, Bool.and_eq_true, Bool.and_eq_true, Bool.and_eq_true] at h
      rw [words, areLexical_cons, areLexical_cons]
      exact ⟨isLexical_sign (by decide), .name h.1.1.2,
        areLexical_braces (areLexical_names h.1.2)⟩
  | .let_ text value =>
      rw [isRegular, Bool.and_eq_true] at h
      rw [words, areLexical_cons, areLexical_cons, areLexical_cons]
      exact ⟨isLexical_sign (by decide), .name h.1, isLexical_sign (by decide),
        PlainExpr.areLexical_words_of_isRegular h.2⟩
  | .fn text params body =>
      rw [isRegular, Bool.and_eq_true, Bool.and_eq_true] at h
      rw [words, areLexical_cons, areLexical_cons, areLexical_append]
      exact ⟨isLexical_sign (by decide), .name h.1.1, areLexical_parens (areLexical_names h.1.2),
        areLexical_braces (areLexical_wordsOfAll body false h.2)⟩
  | .retain texts =>
      rw [isRegular, Bool.and_eq_true] at h
      rw [words, areLexical_cons]
      exact ⟨isLexical_sign (by decide), areLexical_names h.2⟩
  | .return_ none =>
      exact areLexical_cons.mpr ⟨isLexical_sign (by decide), areLexical_nil⟩
  | .return_ (some value) =>
      rw [isRegular] at h
      exact areLexical_cons.mpr ⟨isLexical_sign (by decide),
        PlainExpr.areLexical_words_of_isRegular h⟩
  | .if_ condition then_ none =>
      rw [isRegular, Bool.and_eq_true] at h
      rw [words, areLexical_cons, areLexical_append]
      exact ⟨isLexical_sign (by decide), PlainExpr.areLexical_words_of_isRegular h.1,
        areLexical_braces (areLexical_wordsOfAll then_ false h.2)⟩
  | .if_ condition then_ (some else_) =>
      rw [isRegular, Bool.and_eq_true, Bool.and_eq_true, Bool.and_eq_true] at h
      rw [words, areLexical_cons, areLexical_append, areLexical_append, areLexical_cons]
      exact ⟨isLexical_sign (by decide), PlainExpr.areLexical_words_of_isRegular h.1.1.1,
        areLexical_braces (areLexical_wordsOfAll then_ false h.1.1.2), isLexical_sign (by decide),
        areLexical_words else_ false h.2⟩
  | .block body =>
      rw [isRegular] at h
      exact areLexical_braces (areLexical_wordsOfAll body false h)
  | .assign text value =>
      rw [isRegular, Bool.and_eq_true] at h
      rw [words, areLexical_cons, areLexical_cons]
      exact ⟨.name h.1, isLexical_sign (by decide), PlainExpr.areLexical_words_of_isRegular h.2⟩
  | .setMember target text value =>
      rw [isRegular, Bool.and_eq_true, Bool.and_eq_true] at h
      rw [words, areLexical_append, areLexical_cons, areLexical_cons, areLexical_cons]
      exact ⟨PlainExpr.areLexical_words_of_isRegular h.1.1, isLexical_sign (by decide),
        .name h.1.2, isLexical_sign (by decide), PlainExpr.areLexical_words_of_isRegular h.2⟩
  | .expr value =>
      rw [isRegular] at h
      exact PlainExpr.areLexical_words_of_isRegular h

theorem areLexical_wordsOfAll (ss : List PlainStmt) (top : Bool)
    (h : areRegular ss top = true) : AreLexical (wordsOfAll ss) := by
  match ss with
  | [] => exact areLexical_nil
  | s :: ss =>
      rw [areRegular, Bool.and_eq_true] at h
      rw [wordsOfAll, areLexical_append, areLexical_cons]
      exact ⟨areLexical_words s top h.1, isLexical_sign (by decide),
        areLexical_wordsOfAll ss top h.2⟩

end

/-- What is printed spells the words of the statements. -/
theorem spells_print {ss : List PlainStmt} (h : areRegular ss true = true) :
    Spells (wordsOfAll ss) (print ss) :=
  spells_line (areLexical_wordsOfAll ss true h)

end PlainStmt

end Splice

import Splice.Proofs.Action
import Splice.Proofs.Token.Spelling
import Splice.Tree.Parser

/-!
# Parsers and the words they take

`Takes base ws next action good` says of a parser that in front of the words `ws` it
succeeds, takes these words and no others, and gives a good answer, whatever stands behind
them as long as its kind satisfies `next`.  What is good may depend on the names of the
symbols that the parser makes up; they are numbered on from `base`.  The rules below take
a parser apart from its first step on, and the words from the front.
-/

namespace Splice

def Declaration.symbolName? : Declaration → Option Text
  | symbol name => some name
  | property name => some name
  | _ => none

def Word.headKind (ws : List Word) (next : TokenKind) : TokenKind :=
  (ws.head?.map Word.kind).getD next

@[simp] theorem Word.headKind_nil (next : TokenKind) : headKind [] next = next := rfl

@[simp] theorem Word.headKind_cons (w : Word) (ws : List Word) (next : TokenKind) :
    headKind (w :: ws) next = w.kind := rfl

@[simp] theorem Word.headKind_append (ws more : List Word) (next : TokenKind) :
    headKind (ws ++ more) next = headKind ws (headKind more next) := by
  cases ws with
  | nil => rfl
  | cons w ws => rfl

namespace Parser

def State.made (s : State) : List Text := s.declared.reverse.filterMap Declaration.symbolName?

def State.Names (base : Nat) (s : State) (names : SymbolId → Text) : Prop :=
  ∀ i text, s.made[i]? = some text → names (base + i) = text

/-- A parser of a file without imports, whose symbols are numbered on from `base`. -/
structure Ready (base : Nat) (s : State) : Prop where
  aliases : s.aliases = []
  next : s.nextSymbol = base + s.made.length

structure Onward (s s' : State) : Prop where
  enums : s'.enums = s.enums
  made : s.made <+: s'.made

theorem Onward.refl (s : State) : Onward s s := ⟨rfl, List.prefix_rfl⟩

theorem Onward.trans {s s' s'' : State} (h : Onward s s') (h' : Onward s' s'') : Onward s s'' :=
  ⟨h'.enums.trans h.enums, h.made.trans h'.made⟩

/-- A naming of more symbols names the earlier ones too. -/
theorem State.Names.of_prefix {base : Nat} {s s' : State} {names : SymbolId → Text}
    (h : s'.Names base names) (hearlier : s.made <+: s'.made) : s.Names base names := by
  intro i text hi
  obtain ⟨more, hmade⟩ := hearlier
  apply h
  obtain ⟨hlt, -⟩ := List.getElem?_eq_some_iff.mp hi
  rw [← hmade, List.getElem?_append_left hlt, hi]

theorem State.exists_names (base : Nat) (s : State) : ∃ names, s.Names base names := by
  refine ⟨fun j => (s.made[j - base]?).getD [], ?_⟩
  intro i text hi
  dsimp only
  rw [Nat.add_sub_cancel_left, hi, Option.getD_some]

def headKind (ts : List Token) : TokenKind := (ts.head?.map Token.kind).getD .endOfFile

theorem headKind_append {ts tail : List Token} :
    headKind (ts ++ tail) = Word.headKind (ts.map Token.word) (headKind tail) := by
  cases ts with
  | nil => rfl
  | cons t ts => rfl

theorem headKind_eq_of_words {ts : List Token} {ws : List Word} (h : ts.map Token.word = ws) :
    headKind ts = Word.headKind ws .endOfFile := by
  subst h
  cases ts with
  | nil => rfl
  | cons t ts => rfl

theorem State.kind_peekAt (s : State) : (s.peekAt 0).kind = headKind s.rest := by
  cases h : s.rest with
  | nil => simp [State.peekAt, h, headKind]
  | cons t ts => simp [State.peekAt, h, headKind]

/-- In front of the words `ws`, with a word of a suitable kind behind them, a parser takes
exactly these words and gives a good answer. -/
def Takes {α : Type} (base : Nat) (ws : List Word) (next : TokenKind → Prop) (action : Parser α)
    (good : (SymbolId → Text) → α → Prop) : Prop :=
  ∀ s used tail, s.rest = used ++ tail → used.map Token.word = ws → next (headKind tail) →
    Ready base s → ∃ a s', action s = .ok a s' ∧ s'.rest = tail ∧ Onward s s' ∧ Ready base s' ∧
      ∀ names, s'.Names base names → good names a

section

variable {α β : Type} {base : Nat} {ws more : List Word} {w : Word}
  {next : TokenKind → Prop} {good : (SymbolId → Text) → α → Prop}

theorem Takes.mono {action : Parser α} {better : (SymbolId → Text) → α → Prop}
    (h : Takes base ws next action good) (himp : ∀ names a, good names a → better names a) :
    Takes base ws next action better := by
  intro s used tail hrest hused hnext hready
  obtain ⟨a, s', hrun, htail, honward, hready', hgood⟩ := h s used tail hrest hused hnext hready
  exact ⟨a, s', hrun, htail, honward, hready', fun names hn => himp names a (hgood names hn)⟩

theorem Takes.mono_next {action : Parser α} {fewer : TokenKind → Prop}
    (h : Takes base ws next action good) (himp : ∀ k, fewer k → next k) :
    Takes base ws fewer action good :=
  fun s used tail hrest hused hnext => h s used tail hrest hused (himp _ hnext)

theorem takes_pure {a : α} (h : ∀ names, good names a) :
    Takes base [] next (pure a) good := by
  intro s used tail hrest hused _ hready
  obtain rfl := List.map_eq_nil_iff.mp hused
  exact ⟨a, s, rfl, hrest, .refl s, hready, fun names _ => h names⟩

/-- One parser after another. -/
theorem Takes.bind {action : Parser β} {f : β → Parser α} {between : TokenKind → Prop}
    {fine : (SymbolId → Text) → β → Prop} (h : Takes base ws between action fine)
    (hbetween : ∀ k, next k → between (Word.headKind more k))
    (hf : ∀ b, (∃ names, fine names b) →
      Takes base more next (f b) fun names a => fine names b → good names a) :
    Takes base (ws ++ more) next (action >>= f) good := by
  intro s used tail hrest hused hnext hready
  obtain ⟨front, back, rfl, hfront, hback⟩ := List.map_eq_append_iff.mp hused
  rw [List.append_assoc] at hrest
  have hkind : between (headKind (back ++ tail)) := by
    rw [headKind_append, hback]
    exact hbetween _ hnext
  obtain ⟨b, t, hrun, htail, honward, hready', hfine⟩ := h s front _ hrest hfront hkind hready
  obtain ⟨names, hnames⟩ := t.exists_names base
  obtain ⟨a, u, hrun', htail', honward', hready'', hgood⟩ :=
    hf b ⟨names, hfine names hnames⟩ t back tail htail hback hnext hready'
  refine ⟨a, u, (bind_eq_of_eq_ok hrun f).trans hrun', htail', honward.trans honward', hready'', ?_⟩
  intro names hnames
  exact hgood names hnames (hfine names (hnames.of_prefix honward'.made))

/-- A parser that takes all words, and one behind it that takes none. -/
theorem Takes.bind_nil {action : Parser β} {f : β → Parser α} {between : TokenKind → Prop}
    {fine : (SymbolId → Text) → β → Prop} (h : Takes base ws between action fine)
    (hbetween : ∀ k, next k → between k)
    (hf : ∀ b, (∃ names, fine names b) →
      Takes base [] next (f b) fun names a => fine names b → good names a) :
    Takes base ws next (action >>= f) good := by
  have hbind : Takes base (ws ++ []) next (action >>= f) good := h.bind hbetween hf
  rwa [List.append_nil] at hbind

/-- A parser that takes no words, and one behind it that takes them all. -/
theorem Takes.nil_bind {action : Parser β} {f : β → Parser α} {between : TokenKind → Prop}
    {fine : (SymbolId → Text) → β → Prop} (h : Takes base [] between action fine)
    (hbetween : ∀ k, next k → between (Word.headKind ws k))
    (hf : ∀ b, (∃ names, fine names b) →
      Takes base ws next (f b) fun names a => fine names b → good names a) :
    Takes base ws next (action >>= f) good :=
  h.bind hbetween hf

/-- A parser that takes all words, and what is made of its answer. -/
theorem Takes.bind_pure {action : Parser β} {f : β → Parser α}
    {fine : (SymbolId → Text) → β → Prop} (h : Takes base ws next action fine)
    (hf : ∀ b, (∃ names, fine names b) → ∃ a, f b = pure a ∧ ∀ names, fine names b → good names a) :
    Takes base ws next (action >>= f) good := by
  refine h.bind_nil (fun _ hk => hk) fun b hb => ?_
  obtain ⟨a, heq, hgood⟩ := hf b hb
  rw [heq]
  exact takes_pure hgood

/-- A first step that takes no words and changes nothing. -/
theorem takes_of_reads {action : Parser β} {f : β → Parser α} {seen : State → β}
    (hread : ∀ s, action s = .ok (seen s) s)
    (h : ∀ s used tail, s.rest = used ++ tail → used.map Token.word = ws → next (headKind tail) →
      Ready base s → Takes base ws next (f (seen s)) good) :
    Takes base ws next (action >>= f) good := by
  intro s used tail hrest hused hnext hready
  rw [bind_eq_of_eq_ok (hread s)]
  exact h s used tail hrest hused hnext hready s used tail hrest hused hnext hready

/-- A first step that takes one word. -/
theorem takes_of_advances {action : Parser β} {f : β → Parser α} (seen : Token → β)
    (hread : ∀ s t rest, s.rest = t :: rest → t.word = w →
      action s = .ok (seen t) { s with rest := rest })
    (h : ∀ t, t.word = w → Takes base ws next (f (seen t)) good) :
    Takes base (w :: ws) next (action >>= f) good := by
  intro s used tail hrest hused hnext hready
  obtain ⟨t, others, rfl, ht, hothers⟩ := List.map_eq_cons_iff.mp hused
  obtain ⟨a, s', hrun, htail, honward, hready', hgood⟩ :=
    h t ht { s with rest := others ++ tail } others tail rfl hothers hnext
      ⟨hready.aliases, hready.next⟩
  refine ⟨a, s', ?_, htail, ⟨honward.enums, honward.made⟩, hready', hgood⟩
  rw [bind_eq_of_eq_ok (hread s t (others ++ tail) hrest ht)]
  exact hrun

theorem peek_eq (s : State) : peek s = .ok (s.peekAt 0) s := rfl

theorem takes_peek {f : Token → Parser α}
    (h : ∀ t c, next c → t.kind = Word.headKind ws c → Takes base ws next (f t) good) :
    Takes base ws next (peek >>= f) good := by
  apply takes_of_reads peek_eq
  intro s used tail hrest hused hnext _
  apply h _ _ hnext
  rw [s.kind_peekAt, hrest, headKind_append, hused]

theorem takes_peek_cons {f : Token → Parser α}
    (h : ∀ t, t.word = w → Takes base (w :: ws) next (f t) good) :
    Takes base (w :: ws) next (peek >>= f) good := by
  apply takes_of_reads peek_eq
  intro s used tail hrest hused _ _
  obtain ⟨t, others, rfl, ht, -⟩ := List.map_eq_cons_iff.mp hused
  apply h
  rw [State.peekAt, hrest]
  exact ht

theorem takes_get {f : State → Parser α}
    (h : ∀ s, ws.length ≤ s.rest.length → Takes base ws next (f s) good) :
    Takes base ws next (get >>= f) good := by
  have hget : ∀ s : State, (get : Parser State) s = .ok s s := fun _ => rfl
  apply takes_of_reads hget
  intro s used tail hrest hused _ _
  apply h
  rw [hrest, ← hused, List.length_append, List.length_map]
  exact Nat.le_add_right _ _

/-- Without imports no name leads to one. -/
theorem takes_startsImported {f : Bool → Parser α} (h : Takes base ws next (f false) good) :
    Takes base ws next (startsImported >>= f) good := by
  intro s used tail hrest hused hnext hready
  have hread : startsImported s = .ok false s := by
    change EStateM.Result.ok _ s = _
    rw [hready.aliases]
    simp
  rw [bind_eq_of_eq_ok hread]
  exact h s used tail hrest hused hnext hready

theorem takes_nextOperator {f : Option BinaryOp → Parser α} {level : Nat}
    (found : Option BinaryOp)
    (hfound : ∀ c, next c →
      (BinaryOp.ofToken? (Word.headKind ws c)).filter (·.level == level) = found)
    (h : Takes base ws next (f found) good) :
    Takes base ws next (nextOperator? level >>= f) good := by
  intro s used tail hrest hused hnext hready
  have hkind : (s.peekAt 0).kind = Word.headKind ws (headKind tail) := by
    rw [s.kind_peekAt, hrest, headKind_append, hused]
  have hread : nextOperator? level s = .ok found s := by
    have hop := hfound _ hnext
    rw [← hkind] at hop
    rw [nextOperator?, bind_eq_of_eq_ok (peek_eq s)]
    cases hof : BinaryOp.ofToken? (s.peekAt 0).kind with
    | none =>
        rw [hof] at hop
        rw [← hop]
        rfl
    | some op =>
        rw [hof, Option.filter_some] at hop
        rw [← hop]
        dsimp only
        split <;> rfl
  rw [bind_eq_of_eq_ok hread]
  exact h s used tail hrest hused hnext hready

/-! ## Taking a word -/

theorem takes_skip {f : Unit → Parser α} (h : Takes base ws next (f ()) good) :
    Takes base (w :: ws) next (skip >>= f) good := by
  apply takes_of_advances (fun _ => ()) _ fun _ _ => h
  intro s t rest hrest _
  change EStateM.Result.ok () { s with rest := s.rest.tail } = _
  rw [hrest, List.tail_cons]

theorem advance_eq {s : State} {t : Token} {rest : List Token} (h : s.rest = t :: rest) :
    advance s = .ok t { s with rest := rest } := by
  change EStateM.Result.ok (s.peekAt 0) { s with rest := s.rest.tail } = _
  rw [State.peekAt, h, List.tail_cons]
  rfl

theorem takes_advance {f : Token → Parser α}
    (h : ∀ t, t.word = w → Takes base ws next (f t) good) :
    Takes base (w :: ws) next (advance >>= f) good :=
  takes_of_advances id (fun _ _ _ hrest _ => advance_eq hrest) h

theorem expect_eq {s : State} {t : Token} {rest : List Token} {kind : TokenKind}
    (h : s.rest = t :: rest) (hkind : t.kind = kind) :
    expect kind s = .ok t { s with rest := rest } := by
  have hpeek : s.peekAt 0 = t := by
    rw [State.peekAt, h]
    rfl
  rw [expect, bind_eq_of_eq_ok (peek_eq s), hpeek, if_pos (beq_iff_eq.mpr hkind)]
  exact advance_eq h

theorem takes_expect {f : Token → Parser α} {kind : TokenKind} (hkind : w.kind = kind)
    (h : ∀ t, t.word = w → Takes base ws next (f t) good) :
    Takes base (w :: ws) next (expect kind >>= f) good := by
  apply takes_of_advances id _ h
  intro s t rest hrest ht
  exact expect_eq hrest ((congrArg Word.kind ht).trans hkind)

theorem takes_accept {f : Bool → Parser α} {kind : TokenKind} (hkind : w.kind = kind)
    (h : Takes base ws next (f true) good) :
    Takes base (w :: ws) next (accept kind >>= f) good := by
  apply takes_of_advances (fun _ => true) _ fun _ _ => h
  intro s t rest hrest ht
  have hpeek : s.peekAt 0 = t := by
    rw [State.peekAt, hrest]
    rfl
  have hof : (t.kind == kind) = true := by
    rw [← hkind, ← ht]
    exact beq_self_eq_true _
  rw [accept, bind_eq_of_eq_ok (peek_eq s), hpeek, if_pos hof]
  change EStateM.Result.ok true { s with rest := s.rest.tail } = _
  rw [hrest, List.tail_cons]

theorem takes_accept_not {f : Bool → Parser α} {kind : TokenKind}
    (hkind : ∀ c, next c → Word.headKind ws c ≠ kind) (h : Takes base ws next (f false) good) :
    Takes base ws next (accept kind >>= f) good := by
  intro s used tail hrest hused hnext hready
  have hread : accept kind s = .ok false s := by
    have hpeek : ((s.peekAt 0).kind == kind) = false := by
      rw [s.kind_peekAt, hrest, headKind_append, hused]
      exact beq_false_of_ne (hkind _ hnext)
    rw [accept, bind_eq_of_eq_ok (peek_eq s), hpeek]
    rfl
  rw [bind_eq_of_eq_ok hread]
  exact h s used tail hrest hused hnext hready

theorem dropWhile_semicolons {ts : List Token} (h : headKind ts ≠ .semicolon) :
    ts.dropWhile (·.kind == .semicolon) = ts := by
  cases ts with
  | nil => rfl
  | cons t ts =>
      have hne : (t.kind == TokenKind.semicolon) = false := beq_false_of_ne h
      simp [hne]

theorem skipSemicolons_eq {s : State} (h : headKind s.rest ≠ .semicolon) :
    skipSemicolons s = .ok () s := by
  change EStateM.Result.ok () { s with rest := s.rest.dropWhile (·.kind == TokenKind.semicolon) } = _
  rw [dropWhile_semicolons h]

theorem skipSemicolons_cons {s : State} {t : Token} {rest : List Token} (h : s.rest = t :: rest)
    (ht : t.kind = .semicolon) : skipSemicolons s = skipSemicolons { s with rest := rest } := by
  change EStateM.Result.ok () { s with rest := s.rest.dropWhile (·.kind == TokenKind.semicolon) } = _
  rw [h, List.dropWhile_cons, if_pos (beq_iff_eq.mpr ht)]
  rfl

theorem takes_skipSemicolons {f : Unit → Parser α}
    (hws : ∀ c, next c → Word.headKind ws c ≠ .semicolon) (h : Takes base ws next (f ()) good) :
    Takes base ws next (skipSemicolons >>= f) good := by
  intro s used tail hrest hused hnext hready
  have hread : skipSemicolons s = .ok () s := by
    apply skipSemicolons_eq
    rw [hrest, headKind_append, hused]
    exact hws _ hnext
  rw [bind_eq_of_eq_ok hread]
  exact h s used tail hrest hused hnext hready

theorem takes_semicolon {f : Unit → Parser α}
    (hws : ∀ c, next c → Word.headKind ws c ≠ .semicolon) (h : Takes base ws next (f ()) good) :
    Takes base (Word.sign .semicolon :: ws) next (skipSemicolons >>= f) good := by
  intro s used tail hrest hused hnext hready
  obtain ⟨t, others, rfl, ht, hothers⟩ := List.map_eq_cons_iff.mp hused
  have hread : skipSemicolons s = .ok () { s with rest := others ++ tail } := by
    have hkind : headKind (others ++ tail) ≠ .semicolon := by
      rw [headKind_append, hothers]
      exact hws _ hnext
    exact (skipSemicolons_cons hrest (congrArg Word.kind ht)).trans (skipSemicolons_eq hkind)
  obtain ⟨a, s', hrun, htail, honward, hready', hgood⟩ :=
    h { s with rest := others ++ tail } others tail rfl hothers hnext
      ⟨hready.aliases, hready.next⟩
  exact ⟨a, s', (bind_eq_of_eq_ok hread f).trans hrun, htail, ⟨honward.enums, honward.made⟩,
    hready', hgood⟩

/-- A first step that makes up a symbol. -/
theorem takes_of_makes {action : Parser SymbolId} {f : SymbolId → Parser α} {d : Declaration}
    {name : Text} (hname : d.symbolName? = some name)
    (hrun : ∀ s, action s = .ok s.nextSymbol
      { s with nextSymbol := s.nextSymbol + 1, declared := d :: s.declared })
    (h : ∀ i, Takes base ws next (f i) fun names a => names i = name → good names a) :
    Takes base ws next (action >>= f) good := by
  intro s used tail hrest hused hnext hready
  let s₁ : State := { s with nextSymbol := s.nextSymbol + 1, declared := d :: s.declared }
  have hmade : s₁.made = s.made ++ [name] := by
    simp [State.made, s₁, List.filterMap_append, hname]
  have hready₁ : Ready base s₁ := by
    refine ⟨hready.aliases, ?_⟩
    rw [hmade, List.length_append, List.length_singleton, ← Nat.add_assoc, ← hready.next]
  obtain ⟨a, s', hrun', htail, honward, hready', hgood⟩ :=
    h s.nextSymbol s₁ used tail hrest hused hnext hready₁
  refine ⟨a, s', (bind_eq_of_eq_ok (hrun s) f).trans hrun', htail, ⟨honward.enums, ?_⟩, hready', ?_⟩
  · exact (hmade ▸ List.prefix_append s.made [name]).trans honward.made
  · intro names hnames
    apply hgood names hnames
    rw [hready.next]
    apply hnames.of_prefix honward.made
    simp [hmade]

theorem takes_newSymbol {f : SymbolId → Parser α} {name : Text}
    (h : ∀ i, Takes base ws next (f i) fun names a => names i = name → good names a) :
    Takes base ws next (newSymbol name >>= f) good :=
  takes_of_makes rfl (fun _ => rfl) h

theorem takes_newProperty {f : SymbolId → Parser α} {name : Text}
    (h : ∀ i, Takes base ws next (f i) fun names a => names i = name → good names a) :
    Takes base ws next (newProperty name >>= f) good :=
  takes_of_makes rfl (fun _ => rfl) h

/-- A declaration that makes no symbol. -/
theorem takes_declare {f : Unit → Parser α} {d : Declaration} (hd : d.symbolName? = none)
    (h : Takes base ws next (f ()) good) :
    Takes base ws next (declare d >>= f) good := by
  intro s used tail hrest hused hnext hready
  let s₁ : State := { s with declared := d :: s.declared }
  have hmade : s₁.made = s.made := by
    simp [State.made, s₁, List.filterMap_append, hd]
  obtain ⟨a, s', hrun, htail, honward, hready', hgood⟩ :=
    h s₁ used tail hrest hused hnext ⟨hready.aliases, by rw [hmade]; exact hready.next⟩
  exact ⟨a, s', hrun, htail, ⟨honward.enums, hmade ▸ honward.made⟩, hready', hgood⟩

end

end Parser

end Splice

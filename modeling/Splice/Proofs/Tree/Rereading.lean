import Splice.Proofs.Tree.Printing
import Splice.Proofs.Tree.Taking

/-!
# Reading printed expressions

A printed expression is read back in every place that asks for its level or a lower one.
The loop of a level meets the operands of that level from the left, so the statement for
such a loop (`Continues`, `Chains`) is about the words of an expression and whatever the
loop goes on with behind them; reading the expression alone (`ReadsAt`) is the case in
which it stops there.  Every word allows for ten nested calls.
-/

namespace Splice.Parser

open Word (sign separated parens braces)

def Says (e : PlainExpr) (names : SymbolId → Text) (x : Expr) : Prop := x.plain? names = some e

/-- A kind that ends the operations of a level: no member, no call, and only operators of
lower levels. -/
def Stops (level : Nat) (k : TokenKind) : Prop :=
  k ≠ .dot ∧ k ≠ .openParen ∧ ∀ op, BinaryOp.ofToken? k = some op → op.level < level

theorem Stops.mono {level higher : Nat} {k : TokenKind} (h : Stops level k)
    (hle : level ≤ higher) : Stops higher k :=
  ⟨h.1, h.2.1, fun op hop => (h.2.2 op hop).trans_le hle⟩

section

variable (base : Nat) (ws : List Word) (e : PlainExpr)

/-- The words are read as the expression in a place of a level. -/
def ReadsAt (level : Nat) : Prop :=
  ∀ fuel next, (∀ k, next k → Stops level k) → 10 * ws.length + (4 - level) ≤ fuel →
    Takes base ws next (binary fuel level) (Says e)

/-- The words are read as the operand of a unary operator. -/
def ReadsOperand : Prop :=
  ∀ fuel next, (∀ k, next k → Stops 3 k) → 10 * ws.length ≤ fuel →
    Takes base ws next (unary fuel) (Says e)

/-- The words are read as the first operands of a level, and the loop of the level goes on
behind them. -/
def Continues (level : Nat) : Prop :=
  ∀ fuel more next good, (∀ k, next k → Stops (level + 1) (Word.headKind more k)) →
    10 * (ws.length + more.length) + (3 - level) ≤ fuel →
    (∀ fuel' x, 10 * more.length + 1 ≤ fuel' →
      Takes base more next (binaryRest fuel' level x) fun names y => Says e names x → good names y) →
    Takes base (ws ++ more) next (binary fuel (level + 1) >>= binaryRest fuel level) good

/-- The words are read as what stands in front of members and calls, and the loop over
these goes on behind them. -/
def Chains : Prop :=
  ∀ fuel more next good, 10 * (ws.length + more.length) ≤ fuel + 1 →
    (∀ fuel' x, 10 * more.length + 1 ≤ fuel' →
      Takes base more next (postfixed fuel' x) fun names y => Says e names x → good names y) →
    Takes base (ws ++ more) next (primary fuel >>= postfixed fuel) good

end

section

variable {base : Nat} {ws : List Word} {e : PlainExpr} {level : Nat}

theorem takes_binaryRest_stops {fuel : Nat} {next : TokenKind → Prop} {x : Expr}
    (hnext : ∀ k, next k → Stops level k) (hfuel : 0 < fuel)
    {good : (SymbolId → Text) → Expr → Prop} (hgood : ∀ names, good names x) :
    Takes base [] next (binaryRest fuel level x) good := by
  obtain ⟨fuel, rfl⟩ := Nat.exists_eq_add_of_lt hfuel
  rw [Nat.zero_add, binaryRest]
  refine takes_nextOperator none ?_ (takes_pure hgood)
  intro c hc
  rw [Word.headKind_nil, Option.filter_eq_none_iff]
  intro op hop
  have hlt := (hnext c hc).2.2 op hop
  simpa using hlt.ne

theorem takes_postfixed_stops {fuel : Nat} {next : TokenKind → Prop} {x : Expr}
    (hnext : ∀ k, next k → Stops 3 k) (hfuel : 0 < fuel)
    {good : (SymbolId → Text) → Expr → Prop} (hgood : ∀ names, good names x) :
    Takes base [] next (postfixed fuel x) good := by
  obtain ⟨fuel, rfl⟩ := Nat.exists_eq_add_of_lt hfuel
  rw [Nat.zero_add, postfixed]
  refine takes_peek fun t c hc hkind => ?_
  obtain ⟨hdot, hparen, -⟩ := hnext c hc
  rw [Word.headKind_nil] at hkind
  rw [hkind]
  split
  · exact absurd rfl hdot
  · exact absurd rfl hparen
  · exact takes_pure hgood

/-- What is read in front of members and calls is read as an operand. -/
theorem Chains.readsOperand (h : Chains base ws e)
    (hhead : ∀ c, UnaryOp.ofToken? (Word.headKind ws c) = none) (hpos : 0 < ws.length) :
    ReadsOperand base ws e := by
  intro fuel next hnext hfuel
  obtain ⟨fuel, rfl⟩ : ∃ k, fuel = k + 1 := ⟨fuel - 1, by omega⟩
  rw [unary]
  refine takes_peek fun t c _ hkind => ?_
  rw [hkind, hhead]
  have hchain := h fuel [] next (Says e) (by simpa using hfuel) fun fuel' x hfuel' =>
    takes_postfixed_stops hnext (by omega) fun _ hx => hx
  rwa [List.append_nil] at hchain

theorem ReadsOperand.readsAt (h : ReadsOperand base ws e) : ReadsAt base ws e 3 := by
  intro fuel next hnext hfuel
  obtain ⟨fuel, rfl⟩ : ∃ k, fuel = k + 1 := ⟨fuel - 1, by omega⟩
  rw [binary, if_pos le_rfl]
  exact h fuel next hnext (by omega)

/-- A first operand that is read alone. -/
theorem ReadsAt.continues (h : ReadsAt base ws e (level + 1)) (hlevel : level ≤ 2)
    (hpos : 0 < ws.length) : Continues base ws e level := by
  intro fuel more next good hnext hfuel hmore
  refine (h fuel _ (fun k hk => hk) (by omega)).bind hnext fun x _ => ?_
  exact hmore fuel x (by omega)

theorem Continues.readsAt (h : Continues base ws e level) (hlevel : level ≤ 2) :
    ReadsAt base ws e level := by
  intro fuel next hnext hfuel
  obtain ⟨fuel, rfl⟩ : ∃ k, fuel = k + 1 := ⟨fuel - 1, by omega⟩
  rw [binary, if_neg (by omega)]
  have hcontinues := h fuel [] next (Says e) (fun k hk => (hnext k hk).mono (Nat.le_succ _))
    (by rw [List.length_nil]; omega) fun fuel' x hfuel' =>
      takes_binaryRest_stops hnext (by omega) fun _ hx => hx
  rwa [List.append_nil] at hcontinues

/-- What is read at a level is read at every lower one. -/
theorem ReadsAt.of_le {lower : Nat} (h : ReadsAt base ws e level) (hlevel : level ≤ 3)
    (hpos : 0 < ws.length) (hle : lower ≤ level) : ReadsAt base ws e lower := by
  induction level, hle using Nat.le_induction with
  | base => exact h
  | succ level _ ih => exact ih ((h.continues (by omega) hpos).readsAt (by omega)) (by omega)

/-- What is read by itself in front of members and calls. -/
theorem chains_of_primary (hpos : 0 < ws.length)
    (h : ∀ fuel, 10 * ws.length ≤ fuel + 1 →
      Takes base ws (fun _ => True) (primary fuel) (Says e)) : Chains base ws e := by
  intro fuel more next good hfuel hmore
  refine (h fuel (by omega)).bind (fun _ _ => trivial) fun x _ => ?_
  exact hmore fuel x (by omega)

/-- The kinds that stand behind a whole expression. -/
theorem stops_zero {k : TokenKind}
    (h : k ∈ [TokenKind.comma, .closeParen, .closeBrace, .semicolon, .openBrace, .assign]) :
    Stops 0 k := by
  simp only [List.mem_cons, List.not_mem_nil, or_false] at h
  rcases h with rfl | rfl | rfl | rfl | rfl | rfl
  all_goals exact ⟨by decide, by decide, fun op hop => by cases hop⟩

/-- Parentheses around what is read anywhere. -/
theorem ReadsAt.chains_parens (h : ReadsAt base ws e 0) : Chains base (parens ws) e := by
  apply chains_of_primary (by simp [parens])
  intro fuel hfuel
  rw [parens, List.length_cons, List.length_append, List.length_singleton] at hfuel
  obtain ⟨fuel, rfl⟩ : ∃ k, fuel = k + 1 := ⟨fuel - 1, by omega⟩
  rw [primary]
  refine takes_peek_cons fun t ht => ?_
  rw [show t.kind = .openParen from congrArg Word.kind ht]
  refine takes_skip ((h fuel (· = .closeParen) ?_ (by omega)).bind (fun _ _ => rfl) fun x _ => ?_)
  · rintro k rfl
    exact stops_zero (by decide)
  · exact takes_expect rfl fun _ _ => takes_pure fun _ hx => hx

/-! ## Expressions in all places -/

/-- The words are read as the expression in every place up to a level. -/
structure ReadsUpTo (base : Nat) (ws : List Word) (e : PlainExpr) (level : Nat) : Prop where
  readsAt : ∀ lower ≤ 3, lower ≤ level → ReadsAt base ws e lower
  readsOperand : 3 ≤ level → ReadsOperand base ws e
  continues : ∀ lower ≤ 2, lower ≤ level → Continues base ws e lower
  chains : 4 ≤ level → Chains base ws e

theorem ReadsUpTo.mono {lower : Nat} (h : ReadsUpTo base ws e level) (hle : lower ≤ level) :
    ReadsUpTo base ws e lower where
  readsAt k hk hlower := h.readsAt k hk (hlower.trans hle)
  readsOperand hlower := h.readsOperand (hlower.trans hle)
  continues k hk hlower := h.continues k hk (hlower.trans hle)
  chains hlower := h.chains (hlower.trans hle)

theorem Continues.upTo (h : Continues base ws e level) (hlevel : level ≤ 2)
    (hpos : 0 < ws.length) : ReadsUpTo base ws e level where
  readsAt lower _ hle := (h.readsAt hlevel).of_le (by omega) hpos hle
  readsOperand hle := by omega
  continues lower _ hle := by
    obtain rfl | hlt := hle.eq_or_lt
    · exact h
    · exact ((h.readsAt hlevel).of_le (by omega) hpos hlt).continues (by omega) hpos
  chains hle := by omega

theorem ReadsOperand.upTo (h : ReadsOperand base ws e) (hpos : 0 < ws.length) :
    ReadsUpTo base ws e 3 where
  readsAt lower _ hle := h.readsAt.of_le le_rfl hpos hle
  readsOperand _ := h
  continues lower hlower _ := (h.readsAt.of_le le_rfl hpos (by omega)).continues hlower hpos
  chains hle := by omega

theorem Chains.upTo (h : Chains base ws e)
    (hhead : ∀ c, UnaryOp.ofToken? (Word.headKind ws c) = none) (hpos : 0 < ws.length) :
    ReadsUpTo base ws e 4 where
  readsAt lower hlower _ := ((h.readsOperand hhead hpos).upTo hpos).readsAt lower hlower hlower
  readsOperand _ := h.readsOperand hhead hpos
  continues lower hlower _ :=
    ((h.readsOperand hhead hpos).upTo hpos).continues lower hlower (by omega)
  chains _ := h

def Rereads (base : Nat) (e : PlainExpr) : Prop :=
  ∀ level ≤ 4, ∀ start, ReadsUpTo base (e.words level start) e level

/-- An expression that is read without parentheses is read with parentheses as well. -/
theorem rereads_of_bareWords
    (h : ∀ start, (start = true → e.isObject = false) →
      ReadsUpTo base (e.words e.level start) e e.level) : Rereads base e := by
  intro level hlevel start
  cases henclosed : e.isEnclosed level start with
  | true =>
      have hbare := h false (by simp)
      rw [PlainExpr.words_of_not_isEnclosed
        (PlainExpr.isEnclosed_eq_false_iff.mpr ⟨le_rfl, by simp⟩)] at hbare
      rw [PlainExpr.words_of_isEnclosed henclosed]
      have hchains := (hbare.readsAt 0 (by omega) (Nat.zero_le _)).chains_parens
      exact (hchains.upTo (fun _ => rfl) (by simp [parens])).mono hlevel
  | false =>
      obtain ⟨hle, hobject⟩ := PlainExpr.isEnclosed_eq_false_iff.mp henclosed
      have hwords : e.words level start = e.words e.level start := by
        rw [PlainExpr.words_of_not_isEnclosed henclosed, PlainExpr.words_of_not_isEnclosed
          (PlainExpr.isEnclosed_eq_false_iff.mpr ⟨le_rfl, hobject⟩)]
      rw [hwords]
      exact (h start hobject).mono hle

/-- What needs no parentheses, unless it is an object that starts a statement. -/
theorem rereads_of_chains (hlevel : e.level = 4)
    (h : ∀ start, (start = true → e.isObject = false) → Chains base (e.bareWords start) e) :
    Rereads base e := by
  apply rereads_of_bareWords
  intro start hobject
  obtain ⟨w, ws, hw, -, -, hsign⟩ := e.opens_head 4 start
  have hbare : e.words 4 start = e.bareWords start :=
    PlainExpr.words_of_not_isEnclosed
      (PlainExpr.isEnclosed_eq_false_iff.mpr ⟨hlevel.ge, hobject⟩)
  rw [hlevel]
  refine Chains.upTo (hbare ▸ h start hobject) (fun c => ?_) (by rw [hw]; simp)
  rw [hw]
  exact hsign rfl

end

section

variable {base : Nat}

def itemsFrom (first : Bool) (items : List (List Word)) : List Word :=
  if first then separated items else items.flatMap (sign .comma :: ·)

/-- The words of an argument list from an item on, with the comma in front of it if it is
not the first. -/
theorem itemsFrom_cons (first : Bool) (e : PlainExpr) (es : List PlainExpr) :
    itemsFrom first (PlainExpr.itemWords (e :: es)) =
      (if first then [] else [sign .comma]) ++
        (e.words 0 false ++ itemsFrom false (PlainExpr.itemWords es)) := by
  rw [PlainExpr.words_zero]
  cases first <;> rfl

/-- An item of a list is read in front of a comma or the end of the list. -/
theorem Rereads.takes_item {e : PlainExpr} (h : Rereads base e) {fuel : Nat}
    (hfuel : 10 * (e.words 0 false).length + 4 ≤ fuel) :
    Takes base (e.words 0 false) (· ∈ [.comma, .closeParen, .closeBrace]) (binary fuel 0)
      (Says e) := by
  refine (h 0 (by omega) false).readsAt 0 (by omega) le_rfl fuel _ (fun k hk => stops_zero ?_) hfuel
  simp only [List.mem_cons, List.not_mem_nil, or_false] at hk ⊢
  tauto

theorem takes_args {es : List PlainExpr} (hes : ∀ e ∈ es, Rereads base e) (fuel : Nat)
    (seen : List Expr) (next : TokenKind → Prop)
    (hfuel : 10 * (itemsFrom seen.isEmpty (PlainExpr.itemWords es)).length + 10 ≤ fuel) :
    Takes base (itemsFrom seen.isEmpty (PlainExpr.itemWords es) ++ [sign .closeParen]) next
      (args fuel seen)
      fun names xs => ∃ more, xs = seen ++ more ∧ Expr.plainOfAll? names more = some es := by
  induction es generalizing fuel seen with
  | nil =>
      obtain ⟨fuel, rfl⟩ : ∃ k, fuel = k + 1 := ⟨fuel - 1, by omega⟩
      have hwords : itemsFrom seen.isEmpty (PlainExpr.itemWords []) = [] := by
        cases seen.isEmpty <;> rfl
      rw [hwords, args]
      refine takes_accept rfl (takes_pure fun names => ?_)
      exact ⟨[], by simp, rfl⟩
  | cons e es ih =>
      obtain ⟨fuel, rfl⟩ : ∃ k, fuel = k + 1 := ⟨fuel - 1, by omega⟩
      obtain ⟨w, ws, hw, hstart, -⟩ := e.opens_head 0 false
      have hpos := e.length_words_pos 0 false
      rw [itemsFrom_cons, List.length_append, List.length_append] at hfuel
      -- the item itself, behind the comma if there is one
      have hitem : Takes base
          (e.words 0 false ++ (itemsFrom false (PlainExpr.itemWords es) ++ [sign .closeParen])) next
          (binary fuel 0 >>= fun arg => args fuel (seen ++ [arg]))
          fun names xs => ∃ more, xs = seen ++ more ∧
            Expr.plainOfAll? names more = some (e :: es) := by
        have hread := (hes e List.mem_cons_self).takes_item (show _ ≤ fuel by omega)
        refine hread.bind (fun c _ => ?_) fun x _ => ?_
        · cases es <;> simp [itemsFrom, PlainExpr.itemWords, sign]
        · have hempty : (seen ++ [x]).isEmpty = false := by simp
          have hrest := ih (fun y hy => hes y (List.mem_cons_of_mem e hy)) fuel (seen ++ [x])
          rw [hempty] at hrest
          refine (hrest (by omega)).mono ?_
          rintro names xs ⟨more, rfl, hmore⟩ hx
          exact ⟨x :: more, by simp, by rw [Expr.plainOfAll?, hx, hmore]; rfl⟩
      rw [itemsFrom_cons, List.append_assoc, List.append_assoc, args]
      refine takes_accept_not (fun c _ => ?_) ?_
      · cases seen.isEmpty
        · simp [sign]
        · rw [hw]
          rintro heq
          rw [show w.kind = .closeParen from heq] at hstart
          exact absurd hstart (by decide)
      · cases hseen : seen.isEmpty with
        | true => exact hitem
        | false => exact takes_expect rfl fun _ _ => hitem

/-- The arguments of a call, up to the closing parenthesis. -/
theorem takes_allArgs {es : List PlainExpr} (hes : ∀ e ∈ es, Rereads base e) {fuel : Nat}
    (hfuel : 10 * (separated (PlainExpr.itemWords es)).length + 10 ≤ fuel) :
    Takes base (separated (PlainExpr.itemWords es) ++ [sign .closeParen]) (fun _ => True)
      (args fuel []) fun names xs => Expr.plainOfAll? names xs = some es := by
  refine (takes_args hes fuel [] _ hfuel).mono ?_
  rintro names xs ⟨more, rfl, hmore⟩
  exact hmore

/-- The comma behind an item and the words of the next ones, if there are any. -/
theorem separated_cons (ws : List Word) (items : List (List Word)) :
    separated (ws :: items) =
      ws ++ ((if items.isEmpty then [] else [sign .comma]) ++ separated items) := by
  cases items with
  | nil => simp [separated]
  | cons => simp [separated]

theorem takes_fields {keys : List Text} {es : List PlainExpr} (hlength : keys.length = es.length)
    (hes : ∀ e ∈ es, Rereads base e) (fuel : Nat) (seenKeys : List SymbolId)
    (seenValues : List Expr) (next : TokenKind → Prop)
    (hfuel : 10 * (separated (PlainExpr.fieldWords keys es)).length + 10 ≤ fuel) :
    Takes base (separated (PlainExpr.fieldWords keys es) ++ [sign .closeBrace]) next
      (fields fuel seenKeys seenValues)
      fun names r => ∃ ks vs, r = (seenKeys ++ ks, seenValues ++ vs) ∧ ks.map names = keys ∧
        Expr.plainOfAll? names vs = some es := by
  induction es generalizing keys fuel seenKeys seenValues with
  | nil =>
      obtain rfl := List.length_eq_zero_iff.mp hlength
      obtain ⟨fuel, rfl⟩ : ∃ k, fuel = k + 1 := ⟨fuel - 1, by omega⟩
      rw [fields]
      refine takes_accept rfl (takes_pure fun names => ?_)
      exact ⟨[], [], by simp, rfl, rfl⟩
  | cons e es ih =>
      obtain ⟨key, keys, rfl⟩ := List.exists_cons_of_length_eq_add_one hlength
      obtain ⟨fuel, rfl⟩ : ∃ k, fuel = k + 1 := ⟨fuel - 1, by omega⟩
      have hlength' : keys.length = es.length := by simpa using hlength
      have he := hes e List.mem_cons_self
      rw [PlainExpr.fieldWords, separated_cons, ← PlainExpr.words_zero] at hfuel ⊢
      simp only [List.cons_append, List.append_assoc, List.length_cons, List.length_append] at hfuel ⊢
      rw [fields]
      refine takes_accept_not (fun _ _ => by simp [Word.name]) ?_
      refine takes_expect rfl fun name hname => takes_expect rfl fun _ _ => ?_
      refine (he.takes_item (by omega)).bind (fun c _ => ?_) fun x _ => ?_
      · cases hitems : PlainExpr.fieldWords keys es <;> simp [separated, sign]
      · refine takes_newProperty fun property => ?_
        have hkey : name.text = key := congrArg Word.text hname
        have hrest : Takes base (separated (PlainExpr.fieldWords keys es) ++ [sign .closeBrace]) next
            (fields fuel (seenKeys ++ [property]) (seenValues ++ [x]))
            fun names r => names property = name.text → Says e names x →
              ∃ ks vs, r = (seenKeys ++ ks, seenValues ++ vs) ∧ ks.map names = key :: keys ∧
                Expr.plainOfAll? names vs = some (e :: es) := by
          refine (ih hlength' (fun y hy => hes y (List.mem_cons_of_mem e hy)) fuel _ _
            (by omega)).mono ?_
          rintro names r ⟨ks, vs, rfl, hks, hvs⟩ hproperty hx
          refine ⟨property :: ks, x :: vs, by simp, ?_, ?_⟩
          · rw [List.map_cons, hproperty, hkey, hks]
          · rw [Expr.plainOfAll?, hx, hvs]
            rfl
        cases hitems : PlainExpr.fieldWords keys es with
        | nil =>
            rw [hitems] at hrest
            exact takes_accept_not (fun _ _ => by simp [separated, sign]) hrest
        | cons ws items =>
            rw [hitems] at hrest
            exact takes_accept rfl hrest

theorem valueOf_number {t : Token} {value : Int64} (h : 0 ≤ value)
    (ht : t.word = Word.number value.toInt.toNat) : valueOf t = value := by
  have hpos : 0 ≤ value.toInt := Int64.le_iff_toInt_le.mp h
  have htext : t.text = Text.ofNat value.toInt.toNat := congrArg Word.text ht
  rw [valueOf, htext, Text.toNat?_ofNat, Option.getD_some]
  change Int64.ofInt (value.toInt.toNat : Int) = value
  rw [Int.toNat_of_nonneg hpos, Int64.ofInt_toInt]

/-- An expression of one word. -/
theorem rereads_of_word {e : PlainExpr} {w : Word} (hlevel : e.level = 4)
    (hword : ∀ start, e.bareWords start = [w])
    (h : ∀ fuel, Takes base [w] (fun _ => True) (primary (fuel + 1)) (Says e)) :
    Rereads base e := by
  apply rereads_of_chains hlevel
  intro start _
  rw [hword]
  apply chains_of_primary (by simp)
  intro fuel hfuel
  rw [List.length_singleton] at hfuel
  obtain ⟨fuel, rfl⟩ : ∃ k, fuel = k + 1 := ⟨fuel - 1, by omega⟩
  exact h fuel

theorem rereads_number {value : Int64} (h : 0 ≤ value) : Rereads base (.number value) := by
  refine rereads_of_word rfl (fun _ => rfl) fun fuel => ?_
  rw [primary]
  refine takes_peek_cons fun t ht => ?_
  rw [show t.kind = .number from congrArg Word.kind ht]
  refine takes_skip (takes_pure fun names => ?_)
  rw [Says, Expr.plain?, valueOf_number h ht]

theorem rereads_string (value : Text) : Rereads base (.string value) := by
  refine rereads_of_word rfl (fun _ => rfl) fun fuel => ?_
  rw [primary]
  refine takes_peek_cons fun t ht => ?_
  rw [show t.kind = .string from congrArg Word.kind ht]
  refine takes_skip (takes_pure fun names => ?_)
  rw [Says, Expr.plain?, show t.text = value from congrArg Word.text ht]

theorem rereads_bool (value : Bool) : Rereads base (.bool value) := by
  refine rereads_of_word rfl (fun _ => rfl) fun fuel => ?_
  rw [primary]
  refine takes_peek_cons fun t ht => ?_
  cases value with
  | true =>
      rw [show t.kind = .true from congrArg Word.kind ht]
      exact takes_skip (takes_pure fun _ => rfl)
  | false =>
      rw [show t.kind = .false from congrArg Word.kind ht]
      exact takes_skip (takes_pure fun _ => rfl)

theorem rereads_nil : Rereads base .nil := by
  refine rereads_of_word rfl (fun _ => rfl) fun fuel => ?_
  rw [primary]
  refine takes_peek_cons fun t ht => ?_
  rw [show t.kind = .nil from congrArg Word.kind ht]
  exact takes_skip (takes_pure fun _ => rfl)

theorem rereads_name (text : Text) : Rereads base (.name text) := by
  refine rereads_of_word rfl (fun _ => rfl) fun fuel => ?_
  rw [primary]
  refine takes_peek_cons fun t ht => ?_
  rw [show t.kind = .identifier from congrArg Word.kind ht]
  refine takes_startsImported (takes_skip (takes_pure fun names => ?_))
  rw [Says, Expr.plain?, show t.text = text from congrArg Word.text ht]

theorem Rereads.member {target : PlainExpr} (h : Rereads base target) (text : Text) :
    Rereads base (.member target text) := by
  apply rereads_of_chains rfl
  intro start _ fuel more next good hfuel hmore
  rw [PlainExpr.bareWords_member, List.append_assoc]
  rw [PlainExpr.bareWords_member, List.length_append] at hfuel
  refine (h 4 le_rfl start).chains le_rfl fuel _ next good ?_ fun fuel' x hfuel' => ?_
  · simp only [List.length_append, List.length_cons, List.length_nil] at hfuel ⊢
    omega
  · simp only [List.cons_append, List.nil_append, List.length_cons] at hfuel' ⊢
    obtain ⟨fuel', rfl⟩ : ∃ k, fuel' = k + 1 := ⟨fuel' - 1, by omega⟩
    rw [postfixed]
    refine takes_peek_cons fun t ht => ?_
    rw [show t.kind = .dot from congrArg Word.kind ht]
    refine takes_skip (takes_expect rfl fun name hname => takes_newProperty fun property => ?_)
    have hname' : name.text = text := congrArg Word.text hname
    refine (hmore fuel' _ (by omega)).mono fun names y hy hproperty hx => hy ?_
    rw [Says, Expr.plain?, if_pos hproperty, hx, hname']
    rfl

theorem Rereads.call {callee : PlainExpr} {args : List PlainExpr} (h : Rereads base callee)
    (hargs : ∀ e ∈ args, Rereads base e) : Rereads base (.call callee args) := by
  apply rereads_of_chains rfl
  intro start _ fuel more next good hfuel hmore
  rw [PlainExpr.bareWords_call, List.append_assoc]
  rw [PlainExpr.bareWords_call, List.length_append] at hfuel
  refine (h 4 le_rfl start).chains le_rfl fuel _ next good ?_ fun fuel' x hfuel' => ?_
  · rw [List.length_append]
    omega
  · rw [parens, List.cons_append] at hfuel' ⊢
    simp only [List.length_cons, List.length_append, List.length_nil] at hfuel'
    obtain ⟨fuel', rfl⟩ : ∃ k, fuel' = k + 1 := ⟨fuel' - 1, by omega⟩
    rw [postfixed]
    refine takes_peek_cons fun t ht => ?_
    rw [show t.kind = .openParen from congrArg Word.kind ht]
    refine takes_advance fun paren _ => ?_
    refine (takes_allArgs hargs (by omega)).bind (fun _ _ => trivial) fun xs _ => ?_
    refine (hmore fuel' _ (by omega)).mono fun names y hy hxs hx => hy ?_
    rw [Says, Expr.plain?, hx, hxs]
    rfl

theorem rereads_syscall {args : List PlainExpr} (text : Text)
    (hargs : ∀ e ∈ args, Rereads base e) : Rereads base (.syscall text args) := by
  apply rereads_of_chains rfl
  intro start _
  apply chains_of_primary (by simp [PlainExpr.bareWords])
  intro fuel hfuel
  simp only [PlainExpr.bareWords, parens, List.length_cons, List.length_append,
    List.length_nil] at hfuel ⊢
  obtain ⟨fuel, rfl⟩ : ∃ k, fuel = k + 1 := ⟨fuel - 1, by omega⟩
  rw [primary]
  refine takes_peek_cons fun t ht => ?_
  rw [show t.kind = .dollar from congrArg Word.kind ht]
  refine takes_skip (takes_expect rfl fun name hname => takes_expect rfl fun _ _ => ?_)
  refine (takes_allArgs hargs (by omega)).bind_pure fun xs _ => ⟨_, rfl, fun names hxs => ?_⟩
  rw [Says, Expr.plain?, hxs, show name.text = text from congrArg Word.text hname]
  rfl

theorem rereads_object {keys : List Text} {values : List PlainExpr}
    (hlength : keys.length = values.length) (hvalues : ∀ e ∈ values, Rereads base e) :
    Rereads base (.object keys values) := by
  apply rereads_of_chains rfl
  intro start _
  apply chains_of_primary (by simp [PlainExpr.bareWords, braces])
  intro fuel hfuel
  simp only [PlainExpr.bareWords, braces, List.length_cons, List.length_append,
    List.length_nil] at hfuel ⊢
  obtain ⟨fuel, rfl⟩ : ∃ k, fuel = k + 1 := ⟨fuel - 1, by omega⟩
  rw [primary]
  refine takes_peek_cons fun t ht => ?_
  rw [show t.kind = .openBrace from congrArg Word.kind ht]
  refine takes_skip ?_
  have hread := takes_fields hlength hvalues fuel [] [] (fun _ => True) (by omega)
  refine hread.bind_pure ?_
  rintro ⟨ks, vs⟩ _
  refine ⟨_, rfl, ?_⟩
  rintro names ⟨ks', vs', heq, hks, hvs⟩
  obtain ⟨rfl, rfl⟩ := Prod.mk.inj heq
  rw [Says, Expr.plain?, hvs, hks]
  rfl

theorem ofToken?_token (op : BinaryOp) : BinaryOp.ofToken? op.token = some op := by
  cases op <;> rfl

theorem stops_token (op : BinaryOp) : Stops (op.level + 1) op.token := by
  refine ⟨by cases op <;> decide, by cases op <;> decide, fun op' hop' => ?_⟩
  rw [ofToken?_token, Option.some.injEq] at hop'
  rw [hop']
  exact Nat.lt_succ_self _

theorem Rereads.binary {left right : PlainExpr} (op : BinaryOp) (hleft : Rereads base left)
    (hright : Rereads base right) : Rereads base (.binary op left right) := by
  have hop := op.level_le
  apply rereads_of_bareWords
  intro start _
  have hlevel : (PlainExpr.binary op left right).level = op.level := rfl
  have hwords : (PlainExpr.binary op left right).words op.level start = _ :=
    PlainExpr.words_of_not_isEnclosed
      (PlainExpr.isEnclosed_eq_false_iff.mpr ⟨le_rfl, fun _ => rfl⟩)
  rw [hlevel, hwords, PlainExpr.bareWords_binary]
  refine Continues.upTo ?_ hop (by simp)
  intro fuel more next good hnext hfuel hmore
  rw [List.length_append, List.length_cons] at hfuel
  rw [List.append_assoc, List.cons_append]
  -- the loop goes on with the operator and the right operand behind the left one
  refine (hleft op.level (by omega) start).continues op.level hop le_rfl fuel _ next good
    (fun k _ => ?_) ?_ fun fuel' x hfuel' => ?_
  · exact stops_token op
  · simp only [List.length_cons, List.length_append]
    omega
  · simp only [List.length_cons, List.length_append] at hfuel'
    obtain ⟨fuel', rfl⟩ : ∃ k, fuel' = k + 1 := ⟨fuel' - 1, by omega⟩
    rw [binaryRest]
    refine takes_nextOperator (some op) (fun c _ => ?_) ?_
    · rw [Word.headKind_cons, show (sign op.token).kind = op.token from rfl, ofToken?_token]
      simp
    · refine takes_advance fun mark _ => ?_
      have hread := (hright (op.level + 1) (by omega) false).readsAt _ (by omega) le_rfl
      refine (hread fuel' _ (fun k hk => hk) (by omega)).bind hnext fun y _ => ?_
      refine (hmore fuel' _ (by omega)).mono fun names z hz hy hx => hz ?_
      rw [Says, Expr.plain?, hx, hy]
      rfl

theorem Rereads.unary {operand : PlainExpr} (op : UnaryOp) (h : Rereads base operand) :
    Rereads base (.unary op operand) := by
  apply rereads_of_bareWords
  intro start _
  have hwords : (PlainExpr.unary op operand).words 3 start = _ :=
    PlainExpr.words_of_not_isEnclosed
      (PlainExpr.isEnclosed_eq_false_iff.mpr ⟨le_rfl, fun _ => rfl⟩)
  rw [show (PlainExpr.unary op operand).level = 3 from rfl, hwords, PlainExpr.bareWords_unary]
  refine ReadsOperand.upTo ?_ (by simp)
  intro fuel next hnext hfuel
  rw [List.length_cons] at hfuel
  obtain ⟨fuel, rfl⟩ : ∃ k, fuel = k + 1 := ⟨fuel - 1, by omega⟩
  rw [Parser.unary]
  refine takes_peek_cons fun t ht => ?_
  have hof : UnaryOp.ofToken? t.kind = some op := by
    rw [show t.kind = op.token from congrArg Word.kind ht]
    cases op <;> rfl
  rw [hof]
  refine takes_advance fun mark _ => ?_
  have hread := (h 3 (by omega) false).readsOperand le_rfl fuel next hnext (by omega)
  refine hread.bind_pure fun x _ => ⟨_, rfl, fun names hx => ?_⟩
  rw [Says, Expr.plain?, hx]
  rfl

mutual

theorem rereads (e : PlainExpr) (h : e.isRegular = true) : Rereads base e := by
  match e with
  | .number value =>
      rw [PlainExpr.isRegular, decide_eq_true_eq] at h
      exact rereads_number h
  | .string value => exact rereads_string value
  | .bool value => exact rereads_bool value
  | .nil => exact rereads_nil
  | .name text => exact rereads_name text
  | .member target text =>
      rw [PlainExpr.isRegular, Bool.and_eq_true] at h
      exact (rereads target h.1).member text
  | .call callee args =>
      rw [PlainExpr.isRegular, Bool.and_eq_true] at h
      exact (rereads callee h.1).call (rereads_all args h.2)
  | .syscall text args =>
      rw [PlainExpr.isRegular, Bool.and_eq_true] at h
      exact rereads_syscall text (rereads_all args h.2)
  | .object keys values =>
      rw [PlainExpr.isRegular, Bool.and_eq_true, Bool.and_eq_true, beq_iff_eq] at h
      exact rereads_object h.1.1 (rereads_all values h.2)
  | .binary op left right =>
      rw [PlainExpr.isRegular, Bool.and_eq_true] at h
      exact (rereads left h.1).binary op (rereads right h.2)
  | .unary op operand => exact (rereads operand h).unary op

theorem rereads_all (es : List PlainExpr) (h : PlainExpr.areRegular es = true) :
    ∀ e ∈ es, Rereads base e := by
  match es with
  | [] => simp
  | e :: es =>
      rw [PlainExpr.areRegular, Bool.and_eq_true] at h
      exact List.forall_mem_cons.mpr ⟨rereads e h.1, rereads_all es h.2⟩

end

end

end Splice.Parser

import Splice.Proofs.Text.Quoting
import Splice.Token.Lexer

/-!
# Words and their spelling

A word is a token without its place.  `Spells ws t` says that the text `t` is the words
`ws` one after another, with white space between them wherever two would run together.
The tokens of such a text are these words and the end of the file
(`Spells.exists_tokens`): every lexeme reaches as far as its word and no further.
-/

namespace Splice

namespace Text

def asciiGlyph (b : UInt8) : Glyph := ⟨b.toNat, [b]⟩

theorem glyphs_ascii_append {s : Text} (h : ∀ b ∈ s, b < 0x80) (t : Text) :
    glyphs (s ++ t) = s.map asciiGlyph ++ glyphs t := by
  induction s with
  | nil => rfl
  | cons b s ih =>
      have hhead : headGlyph b (s ++ t) = asciiGlyph b := by
        have hb := h b List.mem_cons_self
        rw [headGlyph_short hb, shortGlyph, if_pos hb, asciiGlyph]
      have hread : glyphs (b :: (s ++ t)) = headGlyph b (s ++ t) ::
          glyphsFrom ((headGlyph b (s ++ t)).bytes.length - 1) (s ++ t) := rfl
      rw [List.cons_append, hread, hhead, List.map_cons, List.cons_append,
        ← ih fun x hx => h x (List.mem_cons_of_mem b hx)]
      rfl

theorem ofGlyphs_ascii (s : Text) : ofGlyphs (s.map asciiGlyph) = s := by
  induction s with
  | nil => rfl
  | cons b s ih => exact congrArg (b :: ·) ih

def blanks : List Nat :=
  [9, 10, 11, 12, 13, 32, 0x85, 0xA0, 0x1680, 0x2000, 0x2001, 0x2002, 0x2003, 0x2004, 0x2005,
    0x2006, 0x2007, 0x2008, 0x2009, 0x200A, 0x2028, 0x2029, 0x202F, 0x205F, 0x3000]

theorem mem_blanks {n : Nat} (h : isBlank n = true) : n ∈ blanks := by
  simp only [isBlank, Bool.or_eq_true, Bool.and_eq_true, decide_eq_true_eq, beq_iff_eq] at h
  simp only [blanks, List.mem_cons, List.not_mem_nil, or_false]
  omega

theorem isBlank_of_isLetter {n : Nat} (h : isLetter n = true) : isBlank n = false := by
  have hblanks : ∀ m ∈ blanks, isLetter m = false := by
    simp only [isLetter, inRanges, ← Array.any_toList]
    decide +kernel
  by_contra hblank
  rw [hblanks n (mem_blanks (by simpa using hblank))] at h
  cases h

/-- A text that can stand as the name of a binding or a member. -/
def isIdentifier (t : Text) : Bool :=
  t.glyphs.head?.any Lexeme.startsWord && t.glyphs.all (fun g => isWord g.point) &&
    TokenKind.ofWord t == .identifier

end Text

/-- A token without its place. -/
structure Word where
  kind : TokenKind
  text : Text
deriving DecidableEq, Repr

def Token.word (t : Token) : Word := ⟨t.kind, t.text⟩

namespace Word

def sign (k : TokenKind) : Word := ⟨k, k.name⟩

def name (t : Text) : Word := ⟨.identifier, t⟩

def number (n : Nat) : Word := ⟨.number, Text.ofNat n⟩

def string (t : Text) : Word := ⟨.string, t⟩

def endOfFile : Word := ⟨.endOfFile, []⟩

def spelling (w : Word) : Text := if w.kind == .string then Text.quote w.text else w.text

/-- The words that the lexer tells apart. -/
inductive IsLexical : Word → Prop
  | keyword {k : TokenKind} (h : k ∈ TokenKind.keywords) : IsLexical (sign k)
  | mark {k : TokenKind} (h : k ∈ TokenKind.punctuation) : IsLexical (sign k)
  | compound {k : TokenKind} (h : k ∈ [.assign, .equal, .not, .notEqual]) : IsLexical (sign k)
  | name {t : Text} (h : t.isIdentifier = true) : IsLexical (name t)
  | number {n : Nat} (h : n ≤ Lexeme.maxNumber) : IsLexical (number n)
  | string (t : Text) : IsLexical (string t)

/-- Whether the lexeme of a word ends in front of a character. -/
def endsBefore (w : Word) (g : Glyph) : Bool :=
  match w.kind with
  | .string => true
  | .number => !Lexeme.isDecimal g && !Lexeme.startsWord g
  | .assign => g.point != 61
  | .not => g.point != 61
  | .slash => g.point != 47
  | .identifier => !Text.isWord g.point
  | k => !(TokenKind.keywords.contains k && Text.isWord g.point)

/-- The characters of a word are scanned as that word. -/
structure Scans (w : Word) (g : Glyph) (more rest : List Glyph) : Prop where
  spelled : ∀ t, Text.glyphs (w.spelling ++ t) = g :: (more ++ Text.glyphs t)
  not_blank : Text.isBlank g.point = false
  not_comment : startsComment g (more ++ rest) = false
  scanned : Lexeme.scan g (more ++ rest) = .ok ⟨w.kind, w.text, more.length + 1⟩

end Word

namespace Lexeme

variable {g : Glyph} {more rest : List Glyph}

theorem isBlank_of_startsWord (h : startsWord g = true) : Text.isBlank g.point = false := by
  simp only [startsWord, Bool.or_eq_true, beq_iff_eq] at h
  rcases h with h | h
  · rw [h]
    decide
  · exact Text.isBlank_of_isLetter h

theorem startsComment_eq_false (h : g.point ≠ 47) : startsComment g rest = false := by
  simp [startsComment, h]

/-- The longest word ends where no word character follows. -/
theorem takeWhile_append_of_head? {p : Glyph → Bool} (hmore : ∀ x ∈ more, p x = true)
    (hrest : ∀ x, rest.head? = some x → p x = false) : (more ++ rest).takeWhile p = more := by
  rw [List.takeWhile_append_of_pos hmore]
  cases rest with
  | nil => simp
  | cons x rest => simp [hrest x rfl]

theorem dropWhile_append_of_head? {p : Glyph → Bool} (hmore : ∀ x ∈ more, p x = true)
    (hrest : ∀ x, rest.head? = some x → p x = false) : (more ++ rest).dropWhile p = rest := by
  rw [List.dropWhile_append_of_pos hmore]
  cases rest with
  | nil => simp
  | cons x rest => simp [hrest x rfl]

theorem scan_word (hstart : startsWord g = true) (hmore : ∀ x ∈ g :: more, Text.isWord x.point = true)
    (hrest : ∀ x, rest.head? = some x → Text.isWord x.point = false) :
    scan g (more ++ rest) = .ok ⟨TokenKind.ofWord (Text.ofGlyphs (g :: more)),
      Text.ofGlyphs (g :: more), more.length + 1⟩ := by
  have htake := takeWhile_append_of_head? hmore hrest
  rw [List.cons_append] at htake
  rw [scan, if_pos hstart, scanWord, htake, List.length_cons]

theorem bounds_of_isDecimal (h : isDecimal g = true) : 48 ≤ g.point ∧ g.point ≤ 57 := by
  simpa [isDecimal] using h

theorem startsWord_of_isDecimal (h : isDecimal g = true) : startsWord g = false := by
  have hbounds := bounds_of_isDecimal h
  simp only [startsWord, Text.isLetter, Bool.or_eq_false_iff, beq_eq_false_iff_ne]
  rw [if_pos (by omega)]
  simp only [Bool.or_eq_false_iff, Bool.and_eq_false_iff, decide_eq_false_iff_not]
  omega

theorem isBlank_of_isDecimal (h : isDecimal g = true) : Text.isBlank g.point = false := by
  have hdigits : ∀ n < 58, 48 ≤ n → Text.isBlank n = false := by decide +kernel
  have hbounds := bounds_of_isDecimal h
  exact hdigits g.point (by omega) hbounds.1

theorem scan_number {n : Nat} (hmore : ∀ x ∈ g :: more, isDecimal x = true)
    (hrest : ∀ x, rest.head? = some x → isDecimal x = false ∧ startsWord x = false)
    (hvalue : Text.toNat? (Text.ofGlyphs (g :: more)) = some n) (hn : n ≤ maxNumber) :
    scan g (more ++ rest) =
      .ok ⟨.number, Text.ofGlyphs (g :: more), more.length + 1⟩ := by
  have hg := hmore g List.mem_cons_self
  have htake := takeWhile_append_of_head? hmore fun x hx => (hrest x hx).1
  have hdrop := dropWhile_append_of_head? hmore fun x hx => (hrest x hx).1
  rw [List.cons_append] at htake hdrop
  have hnext : (rest.head?.map startsWord) ≠ some true := by
    intro heq
    obtain ⟨x, hx, htrue⟩ := Option.map_eq_some_iff.mp heq
    rw [(hrest x hx).2] at htrue
    cases htrue
  rw [scan, startsWord_of_isDecimal hg, if_neg (by decide), if_pos hg, scanNumber, htake, hdrop,
    hvalue, Option.getD_some, if_pos hn]
  split
  · next htrue => exact absurd htrue hnext
  · rfl

end Lexeme

namespace Word

variable {rest : List Glyph}

theorem scans_word {k : TokenKind} {t : Text} (hk : TokenKind.ofWord t = k) (hstring : k ≠ .string)
    (hstart : t.glyphs.head?.any Lexeme.startsWord = true) (hword : Text.IsName t)
    (hrest : ∀ x, rest.head? = some x → Text.isWord x.point = false) :
    ∃ g more, Scans ⟨k, t⟩ g more rest := by
  have hspelling : spelling ⟨k, t⟩ = t := by simp [spelling, hstring]
  cases hglyphs : t.glyphs with
  | nil => simp [hglyphs] at hstart
  | cons g more =>
      have hg : Lexeme.startsWord g = true := by simpa [hglyphs] using hstart
      have hall : ∀ x ∈ g :: more, Text.isWord x.point = true := by
        rw [← hglyphs]
        exact hword
      have htext : Text.ofGlyphs (g :: more) = t := by rw [← hglyphs, Text.ofGlyphs_glyphs]
      refine ⟨g, more, ?_, Lexeme.isBlank_of_startsWord hg, ?_, ?_⟩
      · intro u
        rw [hspelling, hword.glyphs_append, hglyphs, List.cons_append]
      · apply Lexeme.startsComment_eq_false
        intro hpoint
        simp [Lexeme.startsWord, hpoint, Text.isLetter] at hg
      · rw [Lexeme.scan_word hg hall hrest, htext, hk]

theorem digit_of_mem_ofNat {n : Nat} {b : UInt8} (h : b ∈ Text.ofNat n) :
    48 ≤ b.toNat ∧ b.toNat ≤ 57 := by
  rw [Text.ofNat_eq_map] at h
  obtain ⟨c, hc, rfl⟩ := List.mem_map.mp h
  rw [Text.toNat_digit hc]
  exact Text.digit_bounds hc

theorem scans_number {n : Nat} (hn : n ≤ Lexeme.maxNumber)
    (hrest : ∀ x, rest.head? = some x →
      Lexeme.isDecimal x = false ∧ Lexeme.startsWord x = false) :
    ∃ g more, Scans (number n) g more rest := by
  have hdigit : ∀ x ∈ (Text.ofNat n).map Text.asciiGlyph, Lexeme.isDecimal x = true := by
    intro x hx
    obtain ⟨b, hb, rfl⟩ := List.mem_map.mp hx
    have hbounds := digit_of_mem_ofNat hb
    simp [Lexeme.isDecimal, Text.asciiGlyph, hbounds.1, hbounds.2]
  have hascii : ∀ b ∈ Text.ofNat n, b < 0x80 := by
    intro b hb
    have hle := (digit_of_mem_ofNat hb).2
    exact UInt8.lt_iff_toNat_lt.mpr (show b.toNat < 0x80 by omega)
  have htext := Text.ofGlyphs_ascii (Text.ofNat n)
  have hread := Text.glyphs_ascii_append hascii
  cases hglyphs : (Text.ofNat n).map Text.asciiGlyph with
  | nil =>
      have hvalue := Text.toNat?_ofNat n
      rw [List.map_eq_nil_iff.mp hglyphs] at hvalue
      cases hvalue
  | cons g more =>
      rw [hglyphs] at hdigit htext hread
      have hg := hdigit g List.mem_cons_self
      have hpoint := Lexeme.bounds_of_isDecimal hg
      refine ⟨g, more, hread, Lexeme.isBlank_of_isDecimal hg,
        Lexeme.startsComment_eq_false (by omega), ?_⟩
      rw [Lexeme.scan_number hdigit hrest (by rw [htext, Text.toNat?_ofNat]) hn, htext]
      rfl

def Passed (gs : List Glyph) : Prop :=
  ∀ tail, Lexeme.stringLength? false (gs ++ tail) =
    (Lexeme.stringLength? false tail).map (· + gs.length)

theorem passed_append {gs hs : List Glyph} (h : Passed gs) (h' : Passed hs) :
    Passed (gs ++ hs) := by
  intro tail
  rw [List.append_assoc, h, h', Option.map_map, List.length_append]
  congr 1
  funext k
  simp only [Function.comp_apply]
  omega

theorem passed_singleton {g : Glyph} (h : g.point ≠ 10 ∧ g.point ≠ 34 ∧ g.point ≠ 92) :
    Passed [g] := by
  have hslash : (g.point == 92) = false := beq_false_of_ne h.2.2
  intro tail
  simp [Lexeme.stringLength?, h.1, h.2.1, hslash]

theorem passed_inner {t : Text} (h : ∀ x ∈ t, Text.IsInner x) :
    Passed (t.map Text.asciiGlyph) := by
  induction t with
  | nil =>
      intro tail
      simp
  | cons b t ih =>
      obtain ⟨-, hline, hquote, hslash⟩ := h b List.mem_cons_self
      have hb : Passed [Text.asciiGlyph b] := by
        apply passed_singleton
        refine ⟨fun heq => hline ?_, fun heq => hquote ?_, fun heq => hslash ?_⟩
        all_goals exact UInt8.toNat_inj.mp heq
      exact passed_append hb (ih fun x hx => h x (List.mem_cons_of_mem b hx))

/-- How a character is written between quotes is read as characters of its own, among
which there is no closing quote. -/
theorem exists_passed_of_escaped {g : Glyph} {s : Text} (h : Text.Escaped g s) :
    ∃ gs, Passed gs ∧ ∀ t, Text.glyphs (s ++ t) = gs ++ Text.glyphs t := by
  cases h with
  | plain hwhole _ hpoint => exact ⟨[g], passed_singleton hpoint, hwhole⟩
  | @escape c more hc hmore _ =>
      refine ⟨(Text.backslash :: c :: more).map Text.asciiGlyph, ?_, ?_⟩
      · intro tail
        have hpair : ∀ x xs, Lexeme.stringLength? false (Text.asciiGlyph Text.backslash :: x :: xs) =
            ((Lexeme.stringLength? false xs).map (· + 1)).map (· + 1) := fun _ _ => rfl
        simp only [List.map_cons, List.cons_append]
        rw [hpair, passed_inner hmore]
        simp [Function.comp_def, Nat.add_assoc]
      · apply Text.glyphs_ascii_append
        intro b hb
        rcases List.mem_cons.mp hb with rfl | hb
        · decide
        · rcases List.mem_cons.mp hb with rfl | hb
          · exact hc
          · exact (hmore b hb).1

theorem exists_passed_of_forall {gs : List Glyph}
    (h : ∀ g ∈ gs, Text.Escaped g (Text.escapeGlyph 34 g)) :
    ∃ hs, Passed hs ∧
      ∀ t, Text.glyphs (gs.flatMap (Text.escapeGlyph 34) ++ t) = hs ++ Text.glyphs t := by
  induction gs with
  | nil => exact ⟨[], fun tail => by simp, fun t => rfl⟩
  | cons g gs ih =>
      obtain ⟨first, hfirst, hread⟩ := exists_passed_of_escaped (h g List.mem_cons_self)
      obtain ⟨others, hothers, hreads⟩ := ih fun x hx => h x (List.mem_cons_of_mem g hx)
      refine ⟨first ++ others, passed_append hfirst hothers, fun t => ?_⟩
      rw [List.flatMap_cons, List.append_assoc, hread, hreads, List.append_assoc]

theorem scans_string (t : Text) : ∃ g more, Scans (string t) g more rest := by
  obtain ⟨body, hpassed, hread⟩ :=
    exists_passed_of_forall fun g hg => Text.escaped_escapeGlyph (t := t) hg
  let mark := Text.asciiGlyph Text.quoteByte
  have hquote : ∀ u, Text.glyphs (Text.quote t ++ u) = mark :: (body ++ mark :: Text.glyphs u) := by
    intro u
    have hclose : Text.glyphs ([Text.quoteByte] ++ u) = [mark] ++ Text.glyphs u :=
      Text.glyphs_ascii_append (by decide +kernel) u
    have hopen := Text.glyphs_ascii_append (s := [Text.quoteByte]) (by decide +kernel)
      (t.glyphs.flatMap (Text.escapeGlyph 34) ++ ([Text.quoteByte] ++ u))
    rw [hread, hclose] at hopen
    simpa [Text.quote] using hopen
  have htaken : Text.ofGlyphs (mark :: (body ++ [mark])) = Text.quote t := by
    have hread := hquote []
    rw [List.append_nil] at hread
    rw [← Text.ofGlyphs_glyphs (Text.quote t), hread]
    rfl
  have hlength : Lexeme.stringLength? false (body ++ mark :: rest) = some (body.length + 1) := by
    rw [hpassed]
    simp [Lexeme.stringLength?, mark, Text.asciiGlyph, Text.quoteByte, Nat.add_comm]
  refine ⟨mark, body ++ [mark], ?_, by decide, Lexeme.startsComment_eq_false (by decide), ?_⟩
  · intro u
    simpa [spelling, string] using hquote u
  · have hscan : Lexeme.scan mark (body ++ [mark] ++ rest) =
        Lexeme.scanString (mark :: (body ++ mark :: rest)) := by
      rw [List.append_assoc, List.singleton_append]
      rfl
    have htake : (mark :: (body ++ mark :: rest)).take (body.length + 1 + 1) =
        mark :: (body ++ [mark]) := by
      have hsplit : mark :: (body ++ mark :: rest) = (mark :: (body ++ [mark])) ++ rest := by simp
      rw [hsplit]
      exact List.take_left' (by simp)
    rw [hscan, Lexeme.scanString, List.tail_cons, hlength]
    dsimp only
    rw [htake, htaken, Text.unquote?_quote]
    simp [string]

/-! ## Marks -/

/-- A mark of one character is scanned as itself, and starts no comment. -/
structure IsMark (k : TokenKind) (b : UInt8) : Prop where
  name_eq : k.name = [b]
  ascii : b < 0x80
  not_blank : Text.isBlank (Text.asciiGlyph b).point = false
  not_word : Lexeme.startsWord (Text.asciiGlyph b) = false
  not_decimal : Lexeme.isDecimal (Text.asciiGlyph b) = false
  not_quote : ((Text.asciiGlyph b).point == 34) = false
  not_assign : ((Text.asciiGlyph b).point == 61) = false
  not_not : ((Text.asciiGlyph b).point == 33) = false
  found : TokenKind.ofPunctuation? (Text.asciiGlyph b) = some k
  slash : (Text.asciiGlyph b).point = 47 → k = .slash

theorem exists_isMark {k : TokenKind} (hk : k ∈ TokenKind.punctuation) : ∃ b, IsMark k b := by
  have hmarks : ∀ k ∈ TokenKind.punctuation, ∀ b ∈ k.name.head?, k.name = [b] ∧ b < 0x80 ∧
      Text.isBlank (Text.asciiGlyph b).point = false ∧
      Lexeme.startsWord (Text.asciiGlyph b) = false ∧
      Lexeme.isDecimal (Text.asciiGlyph b) = false ∧
      ((Text.asciiGlyph b).point == 34) = false ∧ ((Text.asciiGlyph b).point == 61) = false ∧
      ((Text.asciiGlyph b).point == 33) = false ∧
      TokenKind.ofPunctuation? (Text.asciiGlyph b) = some k ∧
      ((Text.asciiGlyph b).point = 47 → k = .slash) := by decide +kernel
  have hsome : ∀ k ∈ TokenKind.punctuation, k.name.head?.isSome = true := by decide
  obtain ⟨b, hb⟩ := Option.isSome_iff_exists.mp (hsome k hk)
  obtain ⟨h₁, h₂, h₃, h₄, h₅, h₆, h₇, h₈, h₉, h₁₀⟩ := hmarks k hk b hb
  exact ⟨b, h₁, h₂, h₃, h₄, h₅, h₆, h₇, h₈, h₉, h₁₀⟩

theorem scans_mark {k : TokenKind} (hk : k ∈ TokenKind.punctuation)
    (hrest : ∀ x, rest.head? = some x → (sign k).endsBefore x = true) :
    ∃ g more, Scans (sign k) g more rest := by
  obtain ⟨b, h⟩ := exists_isMark hk
  have hstring : k ≠ .string := by
    rintro rfl
    exact absurd hk (by decide)
  have hspelling : spelling (sign k) = [b] := by simp [spelling, sign, hstring, h.name_eq]
  refine ⟨Text.asciiGlyph b, [], ?_, h.not_blank, ?_, ?_⟩
  · intro t
    rw [hspelling, Text.glyphs_ascii_append (by simpa using h.ascii)]
    rfl
  · by_cases hslash : (Text.asciiGlyph b).point = 47
    · obtain rfl := h.slash hslash
      cases rest with
      | nil => simp [startsComment]
      | cons x rest =>
          have hx : (x.point != 47) = true := hrest x rfl
          rw [bne_iff_ne] at hx
          simp [startsComment, hx]
    · exact Lexeme.startsComment_eq_false hslash
  · simp only [List.nil_append, Lexeme.scan, h.not_word, h.not_decimal, h.not_quote, h.not_assign,
      h.not_not, Bool.false_eq_true, if_false, h.found]
    simp [sign, h.name_eq, Text.asciiGlyph]

/-- A sign that may be doubled is scanned as the shorter form only if no equals sign
follows. -/
theorem scans_compound {k : TokenKind} (hk : k ∈ [TokenKind.assign, .equal, .not, .notEqual])
    (hrest : ∀ x, rest.head? = some x → (sign k).endsBefore x = true) :
    ∃ g more, Scans (sign k) g more rest := by
  have hread : ∀ k ∈ [TokenKind.assign, .equal, .not, .notEqual],
      (sign k).spelling = k.name ∧ ∀ b ∈ k.name, b < 0x80 := by decide +kernel
  have hspelled : ∀ t, Text.glyphs ((sign k).spelling ++ t) =
      k.name.map Text.asciiGlyph ++ Text.glyphs t := by
    intro t
    rw [(hread k hk).1, Text.glyphs_ascii_append (hread k hk).2]
  have hsingle : ∀ single double, (∀ x, rest.head? = some x → x.point ≠ 61) →
      Lexeme.scanSign single double rest = ⟨single, single.name, 1⟩ := by
    intro single double h
    cases rest with
    | nil => rfl
    | cons x rest => simp [Lexeme.scanSign, h x rfl]
  simp only [List.mem_cons, List.not_mem_nil, or_false] at hk
  rcases hk with rfl | rfl | rfl | rfl
  · have hscan : Lexeme.scan (Text.asciiGlyph 61) rest =
        .ok (Lexeme.scanSign .assign .equal rest) := rfl
    refine ⟨Text.asciiGlyph 61, [], hspelled, by decide, Lexeme.startsComment_eq_false (by decide),
      ?_⟩
    rw [List.nil_append, hscan, hsingle _ _ fun x hx => by simpa [endsBefore, sign] using hrest x hx]
    rfl
  · exact ⟨Text.asciiGlyph 61, [Text.asciiGlyph 61], hspelled, by decide,
      Lexeme.startsComment_eq_false (by decide), rfl⟩
  · have hscan : Lexeme.scan (Text.asciiGlyph 33) rest =
        .ok (Lexeme.scanSign .not .notEqual rest) := rfl
    refine ⟨Text.asciiGlyph 33, [], hspelled, by decide, Lexeme.startsComment_eq_false (by decide),
      ?_⟩
    rw [List.nil_append, hscan, hsingle _ _ fun x hx => by simpa [endsBefore, sign] using hrest x hx]
    rfl
  · exact ⟨Text.asciiGlyph 33, [Text.asciiGlyph 61], hspelled, by decide,
      Lexeme.startsComment_eq_false (by decide), rfl⟩

theorem isName_of_isIdentifier {t : Text} (h : t.isIdentifier = true) : Text.IsName t := by
  simp only [Text.isIdentifier, Bool.and_eq_true, List.all_eq_true] at h
  exact h.1.2

theorem endsBefore_keyword {k : TokenKind} (hk : k ∈ TokenKind.keywords) :
    (sign k).endsBefore = fun g => !Text.isWord g.point := by
  simp only [TokenKind.keywords, List.mem_cons, List.not_mem_nil, or_false] at hk
  rcases hk with rfl | rfl | rfl | rfl | rfl | rfl | rfl | rfl | rfl | rfl | rfl | rfl
  all_goals rfl

/-- A word that ends in front of what follows is scanned as itself. -/
theorem IsLexical.exists_scans {w : Word} (h : w.IsLexical)
    (hrest : ∀ x, rest.head? = some x → w.endsBefore x = true) :
    ∃ g more, Scans w g more rest := by
  cases h with
  | mark hk => exact scans_mark hk hrest
  | compound hk => exact scans_compound hk hrest
  | string t => exact scans_string t
  | number hn =>
      refine scans_number hn fun x hx => ?_
      have hends : (!Lexeme.isDecimal x && !Lexeme.startsWord x) = true := hrest x hx
      simpa using hends
  | @name t ht =>
      have hname := isName_of_isIdentifier ht
      simp only [Text.isIdentifier, Bool.and_eq_true, beq_iff_eq] at ht
      refine scans_word ht.2 (by decide) ht.1.1 hname fun x hx => ?_
      have hends : (!Text.isWord x.point) = true := hrest x hx
      simpa using hends
  | @keyword k hk =>
      have hword : ∀ k ∈ TokenKind.keywords, TokenKind.ofWord k.name = k ∧ k ≠ .string ∧
          k.name.glyphs.head?.any Lexeme.startsWord = true ∧
          (k.name.all fun x => x < 0x80 && Text.isWord x.toNat) = true := by decide
      obtain ⟨hof, hstring, hstart, hascii⟩ := hword k hk
      refine scans_word hof hstring hstart (Text.isName_of_ascii hascii) fun x hx => ?_
      rw [endsBefore_keyword hk] at hrest
      simpa using hrest x hx

end Word

def Text.IsGap (t : Text) : Prop := ∀ g ∈ t.glyphs, isBlank g.point = true

theorem Text.IsGap.glyphs_append {s : Text} (h : s.IsGap) (t : Text) :
    glyphs (s ++ t) = glyphs s ++ glyphs t := by
  apply glyphs_append_of_isWellFormed
  rw [isWellFormed, List.all_eq_true]
  intro g hg
  by_contra hbroken
  have hpoint : g.point = replacement := by
    simp only [Glyph.isBroken, Bool.not_eq_true, Bool.not_eq_false', Bool.and_eq_true,
      beq_iff_eq] at hbroken
    exact hbroken.1
  have hblank := h g hg
  rw [hpoint] at hblank
  exact absurd hblank (by decide)

/-- The text is the words one after another, with white space between them wherever two
would run together. -/
inductive Spells : List Word → Text → Prop
  | nil {gap : Text} (hgap : gap.IsGap) : Spells [] gap
  | cons {gap rest : Text} {w : Word} {ws : List Word} (hgap : gap.IsGap) (hw : w.IsLexical)
      (hends : ∀ g, rest.glyphs.head? = some g → w.endsBefore g = true)
      (hrest : Spells ws rest) : Spells (w :: ws) (gap ++ (w.spelling ++ rest))

section

variable {offset : Nat} {more rest : List Glyph}

/-- The characters of a lexeme that is dealt with are stepped over. -/
theorem exists_lexFrom_length (more rest : List Glyph) (offset : Nat) :
    ∃ o, lexFrom more.length offset (more ++ rest) = lexFrom 0 o rest := by
  induction more generalizing offset with
  | nil => exact ⟨offset, rfl⟩
  | cons g more ih => exact ih (offset + g.bytes.length)

theorem exists_lexFrom_blanks (hblank : ∀ g ∈ more, Text.isBlank g.point = true)
    (offset : Nat) : ∃ o, lexFrom 0 offset (more ++ rest) = lexFrom 0 o rest := by
  induction more generalizing offset with
  | nil => exact ⟨offset, rfl⟩
  | cons g more ih =>
      have hskip : lexFrom 0 offset (g :: (more ++ rest)) =
          lexFrom 0 (offset + g.bytes.length) (more ++ rest) := by
        rw [lexFrom, if_pos (hblank g List.mem_cons_self)]
      rw [List.cons_append, hskip]
      exact ih (fun x hx => hblank x (List.mem_cons_of_mem g hx)) _

theorem Word.Scans.exists_lexFrom {w : Word} {g : Glyph} (h : w.Scans g more rest)
    {ws : List Word}
    (hrest : ∀ o, ∃ tokens, lexFrom 0 o rest = .ok tokens ∧ tokens.map Token.word = ws)
    (offset : Nat) :
    ∃ tokens, lexFrom 0 offset (g :: (more ++ rest)) = .ok tokens ∧
      tokens.map Token.word = w :: ws := by
  obtain ⟨o, hskip⟩ := exists_lexFrom_length more rest (offset + g.bytes.length)
  obtain ⟨tokens, htokens, hwords⟩ := hrest o
  refine ⟨⟨w.kind, w.text, offset⟩ :: tokens, ?_, by rw [List.map_cons, hwords]; rfl⟩
  rw [lexFrom, h.not_blank, h.not_comment, h.scanned]
  simp [hskip, htokens]

end

theorem Spells.exists_lexFrom {ws : List Word} {t : Text} (h : Spells ws t) (offset : Nat) :
    ∃ tokens, lexFrom 0 offset t.glyphs = .ok tokens ∧
      tokens.map Token.word = ws ++ [Word.endOfFile] := by
  induction h generalizing offset with
  | @nil gap hgap =>
      have hblanks : ∃ o, lexFrom 0 offset (gap.glyphs ++ []) = lexFrom 0 o [] :=
        exists_lexFrom_blanks hgap offset
      obtain ⟨o, hlex⟩ := hblanks
      rw [List.append_nil] at hlex
      exact ⟨[⟨.endOfFile, [], o⟩], by rw [hlex, lexFrom], rfl⟩
  | @cons gap rest w ws hgap hw hends _ ih =>
      obtain ⟨g, more, hscans⟩ := hw.exists_scans hends
      obtain ⟨o, hlex⟩ := exists_lexFrom_blanks hgap offset
      rw [hgap.glyphs_append, hlex, hscans.spelled]
      exact hscans.exists_lexFrom ih o

/-- The tokens of a text of words are these words and the end of the file. -/
theorem Spells.exists_tokens {ws : List Word} {u : SourceUnit} (h : Spells ws u.text) :
    ∃ tokens, u.tokens = .ok tokens ∧ tokens.map Token.word = ws ++ [Word.endOfFile] := by
  obtain ⟨tokens, hlex, hwords⟩ := h.exists_lexFrom 0
  exact ⟨tokens, by rw [SourceUnit.tokens, hlex]; rfl, hwords⟩

def Word.line (ws : List Word) : Text := Text.join " " (ws.map spelling)

theorem Word.endsBefore_space (w : Word) : w.endsBefore (Text.asciiGlyph 32) = true := by
  obtain ⟨k, t⟩ := w
  cases k <;> rfl

theorem isGap_nil : Text.IsGap [] := by
  intro g hg
  cases hg

theorem isGap_space : Text.IsGap [32] := by
  intro g hg
  rw [List.mem_singleton.mp (show g ∈ [Text.asciiGlyph 32] from hg)]
  decide

theorem spells_line {ws : List Word} (h : ∀ w ∈ ws, w.IsLexical) : Spells ws (Word.line ws) := by
  suffices hgaps : ∀ gap : Text, gap.IsGap → Spells ws (gap ++ Word.line ws) from
    hgaps [] isGap_nil
  induction ws with
  | nil =>
      intro gap hgap
      rw [show Word.line [] = [] from rfl, List.append_nil]
      exact .nil hgap
  | cons w ws ih =>
      intro gap hgap
      have hw := h w List.mem_cons_self
      have hothers := ih fun x hx => h x (List.mem_cons_of_mem w hx)
      cases ws with
      | nil =>
          have hend : Spells [w] (gap ++ (w.spelling ++ [])) :=
            .cons hgap hw (by simp [Text.glyphs, Text.glyphsFrom]) (.nil isGap_nil)
          rwa [List.append_nil] at hend
      | cons v ws =>
          have hline : Word.line (w :: v :: ws) = w.spelling ++ ([32] ++ Word.line (v :: ws)) := by
            rw [← List.append_assoc]
            rfl
          rw [hline]
          refine .cons hgap hw ?_ (hothers [32] isGap_space)
          intro g hg
          rw [Text.glyphs_ascii_append (by decide +kernel)] at hg
          rw [← Option.some.inj (show some (Text.asciiGlyph 32) = some g from hg)]
          exact w.endsBefore_space

end Splice

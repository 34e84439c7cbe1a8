import Splice.Proofs.Token.Scanning

/-!
# Tokens tile their source

The tokens of a unit are read from lexemes that cover its text, with only white space and comments
between them (`Tiles`).  The lexer either finds such a tiling or reports a place inside the text,
and this is kept at every step of `lexFrom` (`isOutcome_lexFrom`).
-/

namespace Splice

namespace Text

/-- White space, and comments that are closed by a line end. -/
inductive IsTrivia : Text → Prop
  | nil : IsTrivia []
  | blank {n : Nat} {rest : Text} (hn : isBlank n = true) (hrest : IsTrivia rest) :
      IsTrivia (encodePoint n ++ rest)
  | comment {body rest : Text} (hbody : IsLine body) (hrest : IsTrivia rest) :
      IsTrivia (("//" : Text) ++ (body ++ newline :: rest))

variable {s t : Text}

theorem IsTrivia.append (hs : IsTrivia s) (ht : IsTrivia t) : IsTrivia (s ++ t) := by
  induction hs with
  | nil => exact ht
  | blank hn _ ih =>
      rw [List.append_assoc]
      exact .blank hn ih
  | comment hbody _ ih =>
      rw [List.append_assoc, List.append_assoc, List.cons_append]
      exact .comment hbody ih

theorem isTrivia_newline : IsTrivia [newline] := .blank (n := 10) (by decide) .nil

end Text

/-- A word reaches as far as it can: what stands behind its lexeme does not continue it, and no
letter, digit or underscore stands behind a number. -/
def Word.EndsAt (w : Word) (rest : Text) : Prop :=
  ∀ x ∈ rest.glyphs.head?, w.endsBefore x = true ∧ (w.kind = .number → Text.isWord x.point = false)

/-- The text that starts at an offset is trivia and lexemes by turns, and the tokens are read from
the lexemes.  The last comment may be open: a line end behind the text would close it. -/
inductive Tiles : (offset : Nat) → Text → List Token → Prop
  | last {offset : Nat} {trivia : Text} (htrivia : (trivia ++ [Text.newline]).IsTrivia) :
      Tiles offset trivia [⟨.endOfFile, [], offset + trivia.length⟩]
  | token {offset : Nat} {trivia lexeme rest : Text} {w : Word} {tokens : List Token}
      (htrivia : trivia.IsTrivia) (hreading : w.IsReading lexeme) (hends : w.EndsAt rest)
      (hrest : Tiles (offset + trivia.length + lexeme.length) rest tokens) :
      Tiles offset (trivia ++ (lexeme ++ rest))
        (⟨w.kind, w.text, offset + trivia.length⟩ :: tokens)

theorem Word.IsReading.ne_nil {w : Word} {lexeme : Text} (h : w.IsReading lexeme) :
    lexeme ≠ [] := by
  intro hnil
  cases h with
  | word hstart =>
      rw [hnil] at hstart
      cases hstart
  | number hvalue =>
      rw [hnil] at hvalue
      cases hvalue
  | string _ hvalue =>
      rw [hnil] at hvalue
      cases hvalue
  | sign hk =>
      have hnames : ∀ k ∈ TokenKind.punctuation ++ [.assign, .equal, .not, .notEqual],
          k.name ≠ [] := by decide
      exact hnames _ hk hnil

/-- No lexeme is read as the end of the file. -/
theorem Word.IsReading.kind_ne {w : Word} {lexeme : Text} (h : w.IsReading lexeme) :
    w.kind ≠ .endOfFile := by
  cases h with
  | word => exact Lexeme.ofWord_ne (by decide) lexeme
  | number => exact TokenKind.noConfusion
  | string => exact TokenKind.noConfusion
  | sign hk =>
      rintro rfl
      exact absurd hk (by decide)

theorem Word.IsReading.text_eq {w : Word} {lexeme : Text} (h : w.IsReading lexeme)
    (hkind : w.kind ≠ .string) : w.text = lexeme := by
  cases h with
  | word => rfl
  | number => rfl
  | string => exact absurd rfl hkind
  | sign => rfl

theorem Word.IsReading.literal {w : Word} {lexeme : Text} (h : w.IsReading lexeme)
    (hkind : w.kind = .string) : lexeme.IsLine ∧ lexeme.unquote? = some w.text := by
  cases h with
  | word => exact absurd hkind (Lexeme.ofWord_ne (by decide) lexeme)
  | number => cases hkind
  | string hline hvalue => exact ⟨hline, hvalue⟩
  | sign hk =>
      dsimp only [Word.sign] at hkind
      rw [hkind] at hk
      exact absurd hk (by decide)

namespace Tiles

variable {offset : Nat} {s t : Text} {tokens : List Token}

/-- Trivia in front of a text is part of its tiling. -/
theorem append_trivia (hs : s.IsTrivia) (h : Tiles (offset + s.length) t tokens) :
    Tiles offset (s ++ t) tokens := by
  cases h with
  | last htrivia =>
      have hplace : offset + s.length + t.length = offset + (s ++ t).length := by
        rw [List.length_append, Nat.add_assoc]
      rw [hplace]
      refine .last ?_
      rw [List.append_assoc]
      exact hs.append htrivia
  | @token _ trivia lexeme rest w tokens htrivia hreading hends hrest =>
      have hplace : offset + s.length + trivia.length = offset + (s ++ trivia).length := by
        rw [List.length_append, Nat.add_assoc]
      rw [hplace] at hrest ⊢
      rw [← List.append_assoc]
      exact .token (hs.append htrivia) hreading hends hrest

theorem le_offset (h : Tiles offset t tokens) {x : Token} (hx : x ∈ tokens) :
    offset ≤ x.offset := by
  induction h with
  | last =>
      rw [List.mem_singleton.mp hx]
      exact Nat.le_add_right _ _
  | token _ _ _ _ ih =>
      rcases List.mem_cons.mp hx with rfl | hx
      · exact Nat.le_add_right _ _
      · have hle := ih hx
        omega

theorem ascending (h : Tiles offset t tokens) : (tokens.map Token.offset).Pairwise (· < ·) := by
  induction h with
  | last => exact List.pairwise_singleton _ _
  | token _ hreading _ hrest ih =>
      refine List.pairwise_cons.mpr ⟨?_, ih⟩
      intro place hplace
      obtain ⟨x, hx, rfl⟩ := List.mem_map.mp hplace
      have hle := hrest.le_offset hx
      have hpos := List.length_pos_of_ne_nil hreading.ne_nil
      dsimp only
      omega

/-- The file ends once, at the end of the text. -/
theorem exists_front (h : Tiles offset t tokens) :
    ∃ front, tokens = front ++ [⟨.endOfFile, [], offset + t.length⟩] ∧
      ∀ x ∈ front, x.kind ≠ .endOfFile := by
  induction h with
  | last => exact ⟨[], rfl, by simp⟩
  | @token offset trivia lexeme rest w tokens _ hreading _ _ ih =>
      obtain ⟨front, rfl, hfront⟩ := ih
      refine ⟨⟨w.kind, w.text, offset + trivia.length⟩ :: front, ?_, ?_⟩
      · simp [Nat.add_assoc]
      · exact List.forall_mem_cons.mpr ⟨hreading.kind_ne, hfront⟩

theorem length_le (h : Tiles offset t tokens) : tokens.length ≤ t.length + 1 := by
  induction h with
  | last => simp
  | token _ hreading _ _ ih =>
      have hpos := List.length_pos_of_ne_nil hreading.ne_nil
      simp only [List.length_cons, List.length_append]
      omega

/-- Every token but the last is read from the text at its offset. -/
theorem exists_lexeme (h : Tiles offset t tokens) {x : Token} (hx : x ∈ tokens)
    (hkind : x.kind ≠ .endOfFile) :
    ∃ before lexeme rest, t = before ++ (lexeme ++ rest) ∧ x.offset = offset + before.length ∧
      x.word.IsReading lexeme ∧ x.word.EndsAt rest := by
  induction h with
  | last =>
      rw [List.mem_singleton.mp hx] at hkind
      exact absurd rfl hkind
  | @token offset trivia lexeme rest w tokens _ hreading hends _ ih =>
      rcases List.mem_cons.mp hx with rfl | hx
      · exact ⟨trivia, lexeme, rest, rfl, rfl, hreading, hends⟩
      · obtain ⟨before, found, behind, rfl, hplace, hfound⟩ := ih hx
        refine ⟨trivia ++ (lexeme ++ before), found, behind, ?_, ?_, hfound⟩
        · simp only [List.append_assoc]
        · rw [hplace]
          simp only [List.length_append]
          omega

end Tiles

section

variable {offset : Nat} {g : Glyph} {taken gs rest : List Glyph} {tokens : List Token}

theorem lexFrom_length (taken rest : List Glyph) (offset : Nat) :
    lexFrom taken.length offset (taken ++ rest) =
      lexFrom 0 (offset + (Text.ofGlyphs taken).length) rest := by
  induction taken generalizing offset with
  | nil => rfl
  | cons g taken ih =>
      have hstep : lexFrom (g :: taken).length offset (g :: taken ++ rest) =
          lexFrom taken.length (offset + g.bytes.length) (taken ++ rest) := rfl
      rw [hstep, ih, Text.ofGlyphs_cons, List.length_append, Nat.add_assoc]

theorem lexFrom_blank (h : Text.isBlank g.point = true) (offset : Nat) (rest : List Glyph) :
    lexFrom 0 offset (g :: rest) = lexFrom 0 (offset + g.bytes.length) rest := by
  rw [lexFrom, if_pos h]

/-- A comment reaches to the end of its line. -/
theorem lexFrom_comment (hblank : Text.isBlank g.point = false)
    (h : startsComment g rest = true) (offset : Nat) :
    lexFrom 0 offset (g :: rest) =
      lexFrom 0 (offset + (Text.ofGlyphs (g :: rest.takeWhile (·.point != 10))).length)
        (rest.dropWhile (·.point != 10)) := by
  rw [lexFrom, hblank, if_neg (by decide), if_pos h]
  have hskip := lexFrom_length (rest.takeWhile (·.point != 10)) (rest.dropWhile (·.point != 10))
    (offset + g.bytes.length)
  rw [List.takeWhile_append_dropWhile] at hskip
  rw [hskip, Text.ofGlyphs_cons, List.length_append, Nat.add_assoc]

theorem lexFrom_error {distance : Nat} {e : LexError} (hblank : Text.isBlank g.point = false)
    (hcomment : startsComment g rest = false) (h : Lexeme.scan g rest = .error (distance, e))
    (offset : Nat) : lexFrom 0 offset (g :: rest) = .error (offset + distance, e) := by
  rw [lexFrom, hblank, if_neg (by decide), hcomment, if_neg (by decide), h]

/-- A lexeme is one token, and the next one is sought behind the characters it takes. -/
theorem lexFrom_lexeme {lexeme : Lexeme} (hblank : Text.isBlank g.point = false)
    (hcomment : startsComment g (taken ++ rest) = false)
    (h : Lexeme.scan g (taken ++ rest) = .ok lexeme) (hlength : taken.length + 1 = lexeme.length)
    (offset : Nat) :
    lexFrom 0 offset (g :: (taken ++ rest)) =
      (lexFrom 0 (offset + (Text.ofGlyphs (g :: taken)).length) rest).map
        (⟨lexeme.kind, lexeme.text, offset⟩ :: ·) := by
  have hskip := lexFrom_length taken rest (offset + g.bytes.length)
  have hplace : offset + g.bytes.length + (Text.ofGlyphs taken).length =
      offset + (Text.ofGlyphs (g :: taken)).length := by
    rw [Text.ofGlyphs_cons, List.length_append, Nat.add_assoc]
  rw [hplace] at hskip
  rw [lexFrom, hblank, if_neg (by decide), hcomment, if_neg (by decide), h]
  dsimp only
  rw [← hlength, Nat.add_sub_cancel, hskip]
  cases lexFrom 0 (offset + (Text.ofGlyphs (g :: taken)).length) rest with
  | error e => rfl
  | ok tokens => rfl

end

/-! ## Outcomes -/

/-- What the lexer makes of the text from an offset on: tokens that tile it, or an error at a place
inside it. -/
def IsOutcome (offset : Nat) (t : Text) : Except (Nat × LexError) (List Token) → Prop
  | .ok tokens => Tiles offset t tokens
  | .error (place, _) => offset ≤ place ∧ place < offset + t.length

theorem IsOutcome.append_trivia {offset : Nat} {s t : Text}
    {result : Except (Nat × LexError) (List Token)} (hs : s.IsTrivia)
    (h : IsOutcome (offset + s.length) t result) : IsOutcome offset (s ++ t) result := by
  cases result with
  | ok tokens => exact Tiles.append_trivia hs h
  | error e =>
      have hplace : offset + s.length ≤ e.1 ∧ e.1 < offset + s.length + t.length := h
      change offset ≤ e.1 ∧ e.1 < offset + (s ++ t).length
      rw [List.length_append]
      omega

section

variable {offset : Nat} {g : Glyph} {gs rest : List Glyph}

/-- A digit that is no decimal one starts no lexeme. -/
theorem lexFrom_digit (hrun : Text.IsRun (g :: rest)) (hword : Text.isWord g.point = true)
    (hdecimal : Lexeme.isDecimal g = false) (hstart : Lexeme.startsWord g = false) (offset : Nat) :
    ∃ e, lexFrom 0 offset (g :: rest) = .error e := by
  have hdigit : Text.isDigit g.point = true := by
    simp only [Lexeme.startsWord, Bool.or_eq_false_iff] at hstart
    simpa [Text.isWord, hstart.1, hstart.2] using hword
  have hlarge : 0x80 ≤ g.point := by
    by_contra hsmall
    rw [Text.isDigit, if_pos (by omega)] at hdigit
    simp only [Lexeme.isDecimal, hdigit] at hdecimal
    cases hdecimal
  have hblank : Text.isBlank g.point = false := by
    have hblanks : ∀ m ∈ Text.blanks, Text.isDigit m = false := by
      simp only [Text.isDigit, Text.inRanges, ← Array.any_toList]
      decide +kernel
    by_contra hblank
    rw [hblanks _ (Text.mem_blanks (by simpa using hblank))] at hdigit
    cases hdigit
  have hmark : TokenKind.ofPunctuation? g = none := by
    have hnames : ∀ k ∈ TokenKind.punctuation, ∃ b : UInt8, k.name = [b] ∧ b < 0x80 := by
      intro k hk
      obtain ⟨b, h⟩ := Word.exists_isMark hk
      exact ⟨b, h.name_eq, h.ascii⟩
    refine List.find?_eq_none.mpr fun k hk hname => ?_
    obtain ⟨b, hb, hlt⟩ := hnames k hk
    have hbytes : b ∈ g.bytes := by
      rw [← beq_iff_eq.mp hname, hb]
      exact List.mem_singleton_self b
    have hpoint := hrun.point_of_mem List.mem_cons_self hbytes hlt
    have hlt := UInt8.lt_iff_toNat_lt.mp hlt
    rw [← hpoint] at hlt
    exact absurd hlt (Nat.not_lt.mpr hlarge)
  have hne : ∀ n < 0x80, (g.point == n) = false := fun n hn => beq_false_of_ne (by omega)
  have hscan : Lexeme.scan g rest = .error (0, .unexpectedCharacter g.point) := by
    simp only [Lexeme.scan, hstart, hdecimal, hne 34 (by decide), hne 61 (by decide),
      hne 33 (by decide), hmark, Bool.false_eq_true, if_false]
  have hcomment : startsComment g rest = false := Lexeme.startsComment_eq_false (by omega)
  exact ⟨_, lexFrom_error hblank hcomment hscan offset⟩

/-- The bytes of a comment without its line end. -/
theorem exists_body (hrun : Text.IsRun (g :: rest)) (h : startsComment g rest = true) :
    ∃ body : Text, body.IsLine ∧
      Text.ofGlyphs (g :: rest.takeWhile (·.point != 10)) = ("//" : Text) ++ body := by
  rw [startsComment, Bool.and_eq_true, beq_iff_eq] at h
  cases rest with
  | nil => cases h.2
  | cons x rest =>
      have hx : x.point = 47 := beq_iff_eq.mp h.2
      have hbytes : ∀ y ∈ g :: x :: rest, y.point = 47 → y.bytes = [47] := by
        intro y hy hpoint
        rw [hrun.bytes_of_lt hy (by omega), hpoint]
        rfl
      refine ⟨Text.ofGlyphs (rest.takeWhile (·.point != 10)), ?_, ?_⟩
      · intro hmem
        obtain ⟨y, hy, hnewline⟩ := List.mem_flatMap.mp hmem
        have hpoint := hrun.tail.tail.point_of_mem
          ((List.takeWhile_prefix _).subset hy) hnewline (by decide)
        have hother : (y.point != 10) = true :=
          List.mem_takeWhile_imp (p := fun z : Glyph => z.point != 10) hy
        rw [hpoint] at hother
        exact absurd hother (by decide)
      · rw [List.takeWhile_cons_of_pos (by simp [hx]), Text.ofGlyphs_cons, Text.ofGlyphs_cons,
          hbytes g List.mem_cons_self h.1, hbytes x (by simp) hx]
        rfl

/-- Behind a comment the lexer goes on in the next line, if there is one. -/
theorem isOutcome_comment (hrun : Text.IsRun (g :: rest)) (hblank : Text.isBlank g.point = false)
    (h : startsComment g rest = true) (offset : Nat)
    (hnext : ∀ x behind, rest.dropWhile (·.point != 10) = x :: behind → ∀ offset,
      IsOutcome offset (Text.ofGlyphs behind) (lexFrom 0 offset behind)) :
    IsOutcome offset (Text.ofGlyphs (g :: rest)) (lexFrom 0 offset (g :: rest)) := by
  obtain ⟨body, hbody, hcomment⟩ := exists_body hrun h
  have hclosed : Text.IsTrivia (("//" : Text) ++ (body ++ [Text.newline])) := .comment hbody .nil
  have hsplit : (g :: rest.takeWhile (·.point != 10)) ++ rest.dropWhile (·.point != 10) =
      g :: rest := by
    rw [List.cons_append, List.takeWhile_append_dropWhile]
  rw [lexFrom_comment hblank h, hcomment]
  cases hbehind : rest.dropWhile (·.point != 10) with
  | nil =>
      rw [hbehind, List.append_nil] at hsplit
      rw [← hsplit, hcomment]
      refine Tiles.last ?_
      rw [List.append_assoc]
      exact hclosed
  | cons x behind =>
      have hx : x.point = 10 := by
        have hhead : x ∈ (rest.dropWhile (·.point != 10)).head? := by
          rw [hbehind]
          rfl
        simpa using Lexeme.head?_dropWhile hhead
      rw [hbehind] at hsplit
      have hbytes : x.bytes = [10] := by
        rw [← hsplit] at hrun
        rw [hrun.of_append.bytes_of_lt List.mem_cons_self (by omega), hx]
        rfl
      rw [lexFrom_blank (by rw [hx]; decide), ← hsplit, Text.ofGlyphs_append, hcomment,
        Text.ofGlyphs_cons, hbytes, ← List.append_assoc, List.append_assoc _ body]
      have hplace : offset + (("//" : Text) ++ body).length + [(10 : UInt8)].length =
          offset + (("//" : Text) ++ (body ++ [Text.newline])).length := by
        simp only [List.length_append, List.length_singleton]
        omega
      rw [hplace]
      exact IsOutcome.append_trivia hclosed (hnext x behind hbehind _)

/-- A lexeme in front of a text that is tiled is one more tile. -/
theorem isOutcome_lexeme {taken behind : List Glyph} {lexeme : Lexeme}
    (hrun : Text.IsRun (g :: (taken ++ behind))) (hblank : Text.isBlank g.point = false)
    (hcomment : startsComment g (taken ++ behind) = false)
    (hscan : Lexeme.scan g (taken ++ behind) = .ok lexeme)
    (hlength : (g :: taken).length = lexeme.length)
    (htakes : lexeme.word.Takes (g :: taken) behind) (offset : Nat)
    (hnext : ∀ offset, IsOutcome offset (Text.ofGlyphs behind) (lexFrom 0 offset behind)) :
    IsOutcome offset (Text.ofGlyphs (g :: (taken ++ behind)))
      (lexFrom 0 offset (g :: (taken ++ behind))) := by
  rw [lexFrom_lexeme hblank hcomment hscan hlength, ← List.cons_append, Text.ofGlyphs_append]
  have houtcome := hnext (offset + (Text.ofGlyphs (g :: taken)).length)
  cases hlex : lexFrom 0 (offset + (Text.ofGlyphs (g :: taken)).length) behind with
  | error e =>
      rw [hlex] at houtcome
      have hplace : offset + (Text.ofGlyphs (g :: taken)).length ≤ e.1 ∧
        e.1 < offset + (Text.ofGlyphs (g :: taken)).length + (Text.ofGlyphs behind).length :=
        houtcome
      change offset ≤ e.1 ∧ e.1 < offset + List.length (_ ++ _)
      rw [List.length_append]
      omega
  | ok tokens =>
      rw [hlex] at houtcome
      have hbehind : (Text.ofGlyphs behind).glyphs = behind := hrun.tail.of_append
      have hends : lexeme.word.EndsAt (Text.ofGlyphs behind) := by
        intro x hx
        rw [hbehind] at hx
        refine ⟨htakes.ends x hx, fun hnumber => ?_⟩
        obtain ⟨more, rfl⟩ := List.head?_eq_some_iff.mp hx
        by_contra hword
        have hstop : (!Lexeme.isDecimal x && !Lexeme.startsWord x) = true := by
          have hstop := htakes.ends x hx
          rwa [Word.endsBefore, hnumber] at hstop
        simp only [Bool.and_eq_true, Bool.not_eq_true'] at hstop
        obtain ⟨e, he⟩ := lexFrom_digit hrun.tail.of_append (by simpa using hword) hstop.1 hstop.2
          (offset + (Text.ofGlyphs (g :: taken)).length)
        rw [hlex] at he
        cases he
      have hnil : Text.IsTrivia [] := .nil
      exact Tiles.token hnil htakes.reading hends houtcome

theorem isOutcome_lexFrom (hrun : Text.IsRun gs) (offset : Nat) :
    IsOutcome offset (Text.ofGlyphs gs) (lexFrom 0 offset gs) := by
  induction hn : gs.length using Nat.strong_induction_on generalizing gs offset with
  | _ n ih =>
  cases gs with
  | nil => exact .last Text.isTrivia_newline
  | cons g rest =>
      cases hblank : Text.isBlank g.point with
      | true =>
          rw [lexFrom_blank hblank, Text.ofGlyphs_cons]
          refine IsOutcome.append_trivia ?_ (ih rest.length (by simp [← hn]) hrun.tail _ rfl)
          have hpoint : g.point ≠ Text.replacement := by
            intro heq
            rw [heq] at hblank
            exact absurd hblank (by decide)
          have htrivia := Text.IsTrivia.blank hblank .nil
          rwa [List.append_nil, hrun.encodePoint_eq List.mem_cons_self hpoint] at htrivia
      | false =>
      cases hcomment : startsComment g rest with
      | true =>
          refine isOutcome_comment hrun hblank hcomment offset fun x behind hbehind offset => ?_
          have hsuffix : x :: behind <:+ rest := by
            rw [← hbehind]
            exact List.dropWhile_suffix _
          have hshort := hsuffix.length_le
          obtain ⟨front, rfl⟩ := hsuffix
          refine ih behind.length ?_ hrun.tail.of_append.tail offset rfl
          rw [← hn, List.length_cons]
          rw [List.length_cons] at hshort
          omega
      | false =>
      cases hscan : Lexeme.scan g rest with
      | error e =>
          rw [lexFrom_error hblank hcomment hscan]
          have hlt := Lexeme.distance_lt_of_scan hrun hscan
          exact ⟨Nat.le_add_right _ _, Nat.add_lt_add_left hlt _⟩
      | ok lexeme =>
          obtain ⟨taken, behind, hsplit, hlength, htakes⟩ :=
            Lexeme.isTaken_of_scan hrun hcomment hscan
          cases taken with
          | nil => exact absurd rfl htakes.taken_ne
          | cons x taken =>
              rw [List.cons_append] at hsplit
              obtain ⟨rfl, rfl⟩ := List.cons.inj hsplit
              have hshort : behind.length < n := by
                rw [← hn, List.length_cons, List.length_append]
                omega
              exact isOutcome_lexeme hrun hblank hcomment hscan hlength htakes offset
                fun offset => ih behind.length hshort hrun.tail.of_append offset rfl

end

/-- The tokens of a unit are read from lexemes that cover its text, each at the offset where its
lexeme stands. -/
structure SourceUnit.IsTiledBy (u : SourceUnit) (tokens : List Token) : Prop where
  tiles : Tiles 0 u.text tokens
  ascending : (tokens.map Token.offset).Pairwise (· < ·)
  ends : ∃ front, tokens = front ++ [⟨.endOfFile, [], u.text.length⟩] ∧
    ∀ x ∈ front, x.kind ≠ .endOfFile
  length_le : tokens.length ≤ u.text.length + 1
  plain : ∀ x ∈ tokens, x.kind ≠ .string → x.text <+: u.text.drop x.offset
  quoted : ∀ x ∈ tokens, x.kind = .string → ∃ lexeme : Text,
    lexeme <+: u.text.drop x.offset ∧ lexeme.IsLine ∧ lexeme.unquote? = some x.text
  maximal : ∀ x ∈ tokens, x.kind = .identifier ∨ x.kind = .number →
    ∀ g ∈ (Text.glyphs (u.text.drop (x.offset + x.text.length))).head?,
      Text.isWord g.point = false

theorem Tiles.isTiledBy {u : SourceUnit} {tokens : List Token} (h : Tiles 0 u.text tokens) :
    u.IsTiledBy tokens := by
  obtain ⟨front, heq, hfront⟩ := h.exists_front
  rw [Nat.zero_add] at heq
  refine ⟨h, h.ascending, ⟨front, heq, hfront⟩, h.length_le, ?_, ?_, ?_⟩
  · intro x hx hkind
    by_cases hend : x.kind = .endOfFile
    · have hlast : x.text = [] := by
        rw [heq] at hx
        rcases List.mem_append.mp hx with hx | hx
        · exact absurd hend (hfront x hx)
        · rw [List.mem_singleton.mp hx]
      rw [hlast]
      exact List.nil_prefix
    · obtain ⟨before, lexeme, rest, htext, hplace, hreading, -⟩ := h.exists_lexeme hx hend
      rw [htext, hplace, Nat.zero_add, List.drop_left]
      exact ⟨rest, by rw [← hreading.text_eq hkind]; rfl⟩
  · intro x hx hkind
    obtain ⟨before, lexeme, rest, htext, hplace, hreading, -⟩ :=
      h.exists_lexeme hx (by rw [hkind]; exact TokenKind.noConfusion)
    rw [htext, hplace, Nat.zero_add, List.drop_left]
    exact ⟨lexeme, List.prefix_append lexeme rest, hreading.literal hkind⟩
  · intro x hx hkind g hg
    have hend : x.kind ≠ .endOfFile ∧ x.kind ≠ .string := by
      rcases hkind with hkind | hkind
      all_goals
        rw [hkind]
        decide
    obtain ⟨before, lexeme, rest, htext, hplace, hreading, hends⟩ := h.exists_lexeme hx hend.1
    have hlexeme : x.text = lexeme := hreading.text_eq hend.2
    rw [htext, hplace, Nat.zero_add, hlexeme, ← List.append_assoc,
      ← List.length_append, List.drop_left] at hg
    rcases hkind with hkind | hkind
    · have hstop := (hends g hg).1
      rw [Word.endsBefore, show x.word.kind = .identifier from hkind] at hstop
      simpa using hstop
    · exact (hends g hg).2 hkind

/-- The lexer either reads a unit as tokens that tile its text, or reports an error at a place
inside it. -/
theorem SourceUnit.tokens_tile (u : SourceUnit) :
    (∃ tokens, u.tokens = .ok tokens ∧ u.IsTiledBy tokens) ∨
      ∃ (e : LexError) (place : Nat), u.tokens = .error ⟨e.message, some u, place⟩ ∧
        place < u.text.length := by
  have houtcome := isOutcome_lexFrom (Text.isRun_glyphs u.text) 0
  rw [Text.ofGlyphs_glyphs] at houtcome
  rw [SourceUnit.tokens]
  cases hlex : lexFrom 0 0 u.text.glyphs with
  | ok tokens =>
      rw [hlex] at houtcome
      exact .inl ⟨tokens, rfl, Tiles.isTiledBy houtcome⟩
  | error e =>
      rw [hlex] at houtcome
      have hplace : 0 ≤ e.1 ∧ e.1 < 0 + u.text.length := houtcome
      exact .inr ⟨e.2, e.1, rfl, by omega⟩

end Splice

import Splice.Proofs.Text.Runs
import Splice.Proofs.Token.Spelling

/-!
# What a lexeme is read from

`Lexeme.scan` says how many characters a lexeme takes and what it reads as.  The characters that
it takes spell the word it reads as (`Word.IsReading`), and the character behind them does not
continue that word.  A literal that can be unquoted lies on one line.
-/

namespace Splice

namespace Text

variable {t rest value : Text}

theorem isSome_of_mapM {α β : Type} {f : α → Option β} {xs : List α} {ys : List β}
    (h : xs.mapM f = some ys) : ∀ x ∈ xs, (f x).isSome = true := by
  induction xs generalizing ys with
  | nil => simp
  | cons x xs ih =>
      rw [List.mapM_cons] at h
      obtain ⟨y, hy, h⟩ := Option.bind_eq_some_iff.mp h
      obtain ⟨zs, hzs, -⟩ := Option.bind_eq_some_iff.mp h
      intro z hz
      rcases List.mem_cons.mp hz with rfl | hz
      · rw [hy]
        rfl
      · exact ih hzs z hz

/-- Digits that are taken off the front of a text lie on one line. -/
theorem exists_of_taken {digit : UInt8 → Option Nat} (hdigit : digit newline = none)
    {base count n : Nat}
    (h : (if t.length < count then none
      else ((t.take count).mapM digit).map fun ds => (ofDigits base ds, t.drop count)) =
        some (n, rest)) :
    ∃ used, t = used ++ rest ∧ IsLine used := by
  split at h
  · cases h
  · obtain ⟨ds, hds, heq⟩ := Option.map_eq_some_iff.mp h
    obtain ⟨-, rfl⟩ := Prod.mk.inj heq
    refine ⟨t.take count, (List.take_append_drop count t).symm, fun hmem => ?_⟩
    have hsome := isSome_of_mapM hds newline hmem
    rw [hdigit] at hsome
    cases hsome

theorem exists_of_unescape? (h : unescape? t = some (value, rest)) :
    ∃ used, t = used ++ rest ∧ IsLine used := by
  cases t with
  | nil => cases h
  | cons c t =>
      have hnamed : ∀ {b : UInt8} {v : Text}, newline ≠ b → (c == b) = true →
          some (v, t) = some (value, rest) → ∃ used, c :: t = used ++ rest ∧ IsLine used := by
        intro b v hb hc heq
        obtain ⟨-, rfl⟩ := Prod.mk.inj (Option.some.inj heq)
        rw [beq_iff_eq.mp hc]
        exact ⟨[b], rfl, isLine_cons.mpr ⟨hb, isLine_nil⟩⟩
      have hcoded : ∀ {b : UInt8}, newline ≠ b → (c == b) = true →
          (∃ used, t = used ++ rest ∧ IsLine used) →
          ∃ used, c :: t = used ++ rest ∧ IsLine used := by
        rintro b hb hc ⟨used, rfl, hused⟩
        rw [beq_iff_eq.mp hc]
        exact ⟨b :: used, rfl, isLine_cons.mpr ⟨hb, hused⟩⟩
      rw [unescape?] at h
      -- the seven controls that have a letter
      iterate 7
        rcases ite_eq_iff.mp h with ⟨hc, h⟩ | ⟨-, h⟩
        · exact hnamed (by decide) hc h
      rcases ite_eq_iff.mp h with ⟨hc, h⟩ | ⟨-, h⟩
      · rcases Bool.or_eq_true_iff.mp hc with hc | hc
        · exact hnamed (by decide) hc h
        · exact hnamed (by decide) hc h
      -- the four numeric forms
      have hhex : hexDigit? newline = none := by decide
      rcases ite_eq_iff.mp h with ⟨hc, h⟩ | ⟨-, h⟩
      · obtain ⟨⟨n, behind⟩, htaken, heq⟩ := Option.map_eq_some_iff.mp h
        obtain ⟨-, rfl⟩ := Prod.mk.inj heq
        exact hcoded (by decide) hc (exists_of_taken hhex htaken)
      rcases ite_eq_iff.mp h with ⟨hc, h⟩ | ⟨-, h⟩
      · obtain ⟨⟨n, behind⟩, htaken, heq⟩ := Option.bind_eq_some_iff.mp h
        have hused := exists_of_taken hhex htaken
        rcases ite_eq_iff.mp heq with ⟨-, heq⟩ | ⟨-, heq⟩
        · obtain ⟨-, rfl⟩ := Prod.mk.inj (Option.some.inj heq)
          rcases Bool.or_eq_true_iff.mp hc with hc | hc
          · exact hcoded (by decide) hc hused
          · exact hcoded (by decide) hc hused
        · cases heq
      rcases ite_eq_iff.mp h with ⟨-, h⟩ | ⟨-, h⟩
      · obtain ⟨⟨n, behind⟩, htaken, heq⟩ := Option.bind_eq_some_iff.mp h
        have hused := exists_of_taken (by decide) htaken
        rcases ite_eq_iff.mp heq with ⟨-, heq⟩ | ⟨-, heq⟩
        · obtain ⟨-, rfl⟩ := Prod.mk.inj (Option.some.inj heq)
          exact hused
        · cases heq
      · cases h

theorem isLine_of_unquoteBody? {fuel : Nat} (h : unquoteBody? fuel t = some value) : IsLine t := by
  induction fuel generalizing t value with
  | zero => cases h
  | succ fuel ih =>
      cases t with
      | nil => exact isLine_nil
      | cons b rest =>
          rw [unquoteBody?] at h
          rcases ite_eq_iff.mp h with ⟨hquote, h⟩ | ⟨-, h⟩
          · rcases ite_eq_iff.mp h with ⟨hend, -⟩ | ⟨-, h⟩
            · rw [beq_iff_eq.mp hquote, List.isEmpty_iff.mp hend]
              decide
            · cases h
          rcases ite_eq_iff.mp h with ⟨-, h⟩ | ⟨hnewline, h⟩
          · cases h
          have hb : newline ≠ b := fun heq => hnewline (beq_iff_eq.mpr heq.symm)
          rcases ite_eq_iff.mp h with ⟨-, h⟩ | ⟨-, h⟩
          · obtain ⟨⟨escaped, behind⟩, hescape, h⟩ := Option.bind_eq_some_iff.mp h
            obtain ⟨body, hbody, -⟩ := Option.bind_eq_some_iff.mp h
            obtain ⟨used, rfl, hused⟩ := exists_of_unescape? hescape
            exact isLine_cons.mpr ⟨hb, isLine_append.mpr ⟨hused, ih hbody⟩⟩
          · obtain ⟨body, hbody, -⟩ := Option.map_eq_some_iff.mp h
            have hbehind := ih hbody
            obtain ⟨-, hhead⟩ | ⟨-, more, hbytes, ⟨behind, rfl⟩, hmore⟩ := isHead_headGlyph b rest
            · rw [hhead] at hbehind
              exact isLine_cons.mpr ⟨hb, hbehind⟩
            · rw [hbytes, List.length_cons, Nat.add_sub_cancel, List.drop_left] at hbehind
              refine isLine_cons.mpr ⟨hb, isLine_append.mpr ⟨fun hmem => ?_, hbehind⟩⟩
              exact absurd (hmore newline hmem) (by decide)

/-- A literal that can be read lies on one line. -/
theorem isLine_of_unquote? (h : unquote? t = some value) : IsLine t := by
  cases t with
  | nil => exact isLine_nil
  | cons b rest =>
      rw [unquote?] at h
      rcases ite_eq_iff.mp h with ⟨hquote, h⟩ | ⟨-, h⟩
      · rw [beq_iff_eq.mp hquote]
        exact isLine_cons.mpr ⟨by decide, isLine_of_unquoteBody? h⟩
      · cases h

end Text

/-! ## Readings of lexemes -/

/-- The word that a lexeme reads as: the text of a string is the value of its literal, and that of
any other word is the lexeme itself. -/
inductive Word.IsReading : Word → (lexeme : Text) → Prop
  | word {t : Text} (hstart : t.glyphs.head?.any Lexeme.startsWord = true) (hname : t.IsName) :
      IsReading ⟨TokenKind.ofWord t, t⟩ t
  | number {t : Text} {n : Nat} (hvalue : t.toNat? = some n) (hn : n ≤ Lexeme.maxNumber) :
      IsReading ⟨.number, t⟩ t
  | string {lexeme value : Text} (hline : lexeme.IsLine) (hvalue : lexeme.unquote? = some value) :
      IsReading ⟨.string, value⟩ lexeme
  | sign {k : TokenKind}
      (hk : k ∈ TokenKind.punctuation ++ [.assign, .equal, .not, .notEqual]) :
      IsReading (Word.sign k) k.name

/-- The characters `taken` read as the word, and those behind do not continue it. -/
structure Word.Takes (w : Word) (taken behind : List Glyph) : Prop where
  taken_ne : taken ≠ []
  reading : w.IsReading (Text.ofGlyphs taken)
  ends : ∀ x ∈ behind.head?, w.endsBefore x = true

namespace Lexeme

variable {g : Glyph} {rest : List Glyph} {lexeme : Lexeme}

def word (lexeme : Lexeme) : Word := ⟨lexeme.kind, lexeme.text⟩

/-- The lexeme takes some characters, and reads as the word that they are. -/
def IsTaken (lexeme : Lexeme) (gs : List Glyph) : Prop :=
  ∃ taken behind, gs = taken ++ behind ∧ taken.length = lexeme.length ∧
    lexeme.word.Takes taken behind

theorem head?_dropWhile {p : Glyph → Bool} {gs : List Glyph} {x : Glyph}
    (h : x ∈ (gs.dropWhile p).head?) : p x = false := by
  have hnot := List.head?_dropWhile_not p gs
  rw [Option.mem_def.mp h] at hnot
  simpa using hnot

theorem isWord_of_startsWord (h : startsWord g = true) : Text.isWord g.point = true := by
  simp only [startsWord, Bool.or_eq_true] at h
  simp only [Text.isWord, Bool.or_eq_true]
  exact .inl h

/-- A run of decimal digits has a value. -/
theorem exists_toNat?_of_isDecimal {gs digits : List Glyph} (hrun : Text.IsRun gs)
    (hne : digits ≠ []) (hsub : digits ⊆ gs) (hdigits : ∀ x ∈ digits, isDecimal x = true) :
    ∃ n, Text.toNat? (Text.ofGlyphs digits) = some n := by
  have hbytes : ∀ x ∈ digits, ∃ b, x.bytes = [b] ∧ ∃ d, Text.digit? b = some d := by
    intro x hx
    have hbounds := bounds_of_isDecimal (hdigits x hx)
    have hdigit : ∀ n < 58, 48 ≤ n → (Text.digit? n.toUInt8).isSome = true := by decide
    exact ⟨x.point.toUInt8, hrun.bytes_of_lt (hsub hx) (by omega),
      Option.isSome_iff_exists.mp (hdigit x.point (by omega) hbounds.1)⟩
  have hvalues : ∃ ds, (Text.ofGlyphs digits).mapM Text.digit? = some ds := by
    clear hne hsub hdigits
    induction digits with
    | nil => exact ⟨[], rfl⟩
    | cons x digits ih =>
        obtain ⟨b, hb, d, hd⟩ := hbytes x List.mem_cons_self
        obtain ⟨ds, hds⟩ := ih fun y hy => hbytes y (List.mem_cons_of_mem x hy)
        have hsplit : Text.ofGlyphs (x :: digits) = b :: Text.ofGlyphs digits := by
          rw [Text.ofGlyphs, List.flatMap_cons, hb]
          rfl
        exact ⟨d :: ds, by rw [hsplit, List.mapM_cons, hd, hds]; rfl⟩
  obtain ⟨ds, hds⟩ := hvalues
  have hspelled : (Text.ofGlyphs digits).isEmpty = false := by
    cases digits with
    | nil => exact absurd rfl hne
    | cons x digits =>
        obtain ⟨b, hb, -⟩ := hbytes x List.mem_cons_self
        rw [Text.ofGlyphs, List.flatMap_cons, hb]
        rfl
  refine ⟨Text.ofDigits 10 ds, ?_⟩
  rw [Text.toNat?, hspelled, hds]
  rfl

theorem ofWord_eq_or_mem (t : Text) :
    TokenKind.ofWord t = .identifier ∨ TokenKind.ofWord t ∈ TokenKind.keywords := by
  rw [TokenKind.ofWord]
  cases hfind : TokenKind.keywords.find? (·.name == t) with
  | none => exact .inl rfl
  | some k => exact .inr (List.mem_of_find?_eq_some hfind)

/-- A word is a name or a keyword. -/
theorem ofWord_ne {k : TokenKind} (hk : k ≠ .identifier ∧ k ∉ TokenKind.keywords) (t : Text) :
    TokenKind.ofWord t ≠ k := by
  rintro rfl
  rcases ofWord_eq_or_mem t with hname | hkeyword
  · exact hk.1 hname
  · exact hk.2 hkeyword

/-- A name or a keyword ends where no letter, digit or underscore follows. -/
theorem endsBefore_ofWord {t u : Text} :
    Word.endsBefore ⟨TokenKind.ofWord t, u⟩ = fun x => !Text.isWord x.point := by
  rcases ofWord_eq_or_mem t with hname | hkeyword
  · rw [hname]
    rfl
  · exact Word.endsBefore_keyword hkeyword

theorem isTaken_scanWord (hrun : Text.IsRun (g :: rest)) (hg : startsWord g = true) :
    (scanWord (g :: rest)).IsTaken (g :: rest) := by
  let p := fun x : Glyph => Text.isWord x.point
  have hwords : ∀ x ∈ (g :: rest).takeWhile p, p x = true := fun _ => List.mem_takeWhile_imp
  have hsub : (g :: rest).takeWhile p ⊆ g :: rest := (List.takeWhile_prefix p).subset
  have hread := hrun.glyphs_ofGlyphs_of_isWord hsub hwords
  have hfirst : (g :: rest).takeWhile p = g :: rest.takeWhile p := by
    rw [List.takeWhile_cons_of_pos (p := p) (isWord_of_startsWord hg)]
  refine ⟨_, _, List.takeWhile_append_dropWhile.symm, rfl, ?_, .word ?_ ?_, ?_⟩
  · rw [hfirst]
    exact List.cons_ne_nil g _
  · rw [hread, hfirst]
    exact hg
  · rw [Text.IsName, hread]
    exact hwords
  · intro x hx
    have hx : p x = false := head?_dropWhile hx
    change Word.endsBefore ⟨TokenKind.ofWord _, _⟩ x = true
    rw [endsBefore_ofWord]
    simpa using hx

theorem isTaken_of_scanNumber (hrun : Text.IsRun (g :: rest)) (hg : isDecimal g = true)
    (h : scanNumber (g :: rest) = .ok lexeme) : lexeme.IsTaken (g :: rest) := by
  have hdigits : ∀ x ∈ (g :: rest).takeWhile isDecimal, isDecimal x = true :=
    fun _ => List.mem_takeWhile_imp
  have hsub : (g :: rest).takeWhile isDecimal ⊆ g :: rest :=
    (List.takeWhile_prefix isDecimal).subset
  have hne : (g :: rest).takeWhile isDecimal ≠ [] := by
    rw [List.takeWhile_cons_of_pos hg]
    exact List.cons_ne_nil g _
  obtain ⟨n, hn⟩ := exists_toNat?_of_isDecimal hrun hne hsub hdigits
  rw [scanNumber, hn] at h
  split at h
  · cases h
  next hnext =>
  split at h
  next hmax =>
    obtain rfl := Except.ok.inj h
    refine ⟨_, _, List.takeWhile_append_dropWhile.symm, rfl, hne, .number hn hmax, ?_⟩
    intro x hx
    have hdecimal : isDecimal x = false := head?_dropWhile hx
    have hstart : startsWord x ≠ true := by
      intro htrue
      rw [Option.mem_def.mp hx] at hnext
      exact hnext (congrArg some htrue)
    change (!isDecimal x && !startsWord x) = true
    simp [hdecimal, hstart]
  · cases h

theorem stringLength?_le {escaped : Bool} {gs : List Glyph} {n : Nat}
    (h : stringLength? escaped gs = some n) : n ≤ gs.length := by
  fun_induction stringLength? escaped gs generalizing n with
  | case1 => cases h
  | case2 g rest ih =>
      obtain ⟨m, hm, rfl⟩ := Option.map_eq_some_iff.mp h
      exact Nat.succ_le_succ (ih hm)
  | case3 => cases h
  | case4 g rest =>
      obtain rfl := Option.some.inj h
      exact Nat.succ_le_succ (Nat.zero_le _)
  | case5 g rest _ _ ih =>
      obtain ⟨m, hm, rfl⟩ := Option.map_eq_some_iff.mp h
      exact Nat.succ_le_succ (ih hm)

theorem isTaken_of_scanString (h : scanString (g :: rest) = .ok lexeme) :
    lexeme.IsTaken (g :: rest) := by
  rw [scanString, List.tail_cons] at h
  split at h
  · cases h
  next n hn =>
  split at h
  · cases h
  next value hvalue =>
  obtain rfl := Except.ok.inj h
  have hlength : n + 1 ≤ (g :: rest).length := Nat.succ_le_succ (stringLength?_le hn)
  refine ⟨_, _, (List.take_append_drop (n + 1) (g :: rest)).symm,
    List.length_take_of_le hlength, ?_, .string (Text.isLine_of_unquote? hvalue) hvalue,
    fun _ _ => rfl⟩
  rw [List.take_succ_cons]
  exact List.cons_ne_nil g _

/-- A sign with its doubled form takes the equals sign behind it along. -/
theorem isTaken_scanSign {single double : TokenKind} (hrun : Text.IsRun (g :: rest))
    (hsingle : single ∈ [TokenKind.assign, .equal, .not, .notEqual])
    (hdouble : double ∈ [TokenKind.assign, .equal, .not, .notEqual])
    (hname : single.name = g.bytes) (hnames : double.name = g.bytes ++ [61])
    (hends : ∀ x, (Word.sign single).endsBefore x = (x.point != 61))
    (hdone : ∀ x, (Word.sign double).endsBefore x = true) :
    (scanSign single double rest).IsTaken (g :: rest) := by
  have hsign : ∀ k ∈ [TokenKind.assign, .equal, .not, .notEqual], ∀ taken : List Glyph,
      k.name = Text.ofGlyphs taken → (Word.sign k).IsReading (Text.ofGlyphs taken) := by
    intro k hk taken hspelled
    rw [← hspelled]
    exact .sign (List.mem_append_right _ hk)
  rw [scanSign]
  split
  next hequals =>
    cases rest with
    | nil => cases hequals
    | cons x rest =>
        have hx : x.point = 61 := beq_iff_eq.mp hequals
        have hbytes : x.bytes = [61] := by
          rw [hrun.tail.bytes_of_lt List.mem_cons_self (by omega), hx]
          rfl
        refine ⟨[g, x], rest, rfl, rfl, List.cons_ne_nil g _, hsign double hdouble [g, x] ?_,
          fun y _ => hdone y⟩
        simp [Text.ofGlyphs, hnames, hbytes]
  next hother =>
    refine ⟨[g], rest, rfl, rfl, List.cons_ne_nil g _, hsign single hsingle [g] ?_, ?_⟩
    · simp [Text.ofGlyphs, hname]
    · intro x hx
      change (Word.sign single).endsBefore x = true
      rw [hends]
      rw [Option.mem_def.mp hx] at hother
      simpa using hother

/-- Any character may stand behind a mark, but for a slash behind a slash. -/
theorem endsBefore_mark {k : TokenKind} (hk : k ∈ TokenKind.punctuation) (hslash : k ≠ .slash)
    (x : Glyph) : (Word.sign k).endsBefore x = true := by
  simp only [TokenKind.punctuation, List.mem_cons, List.not_mem_nil, or_false] at hk
  rcases hk with
    rfl | rfl | rfl | rfl | rfl | rfl | rfl | rfl | rfl | rfl | rfl | rfl | rfl | rfl | rfl
  all_goals first | rfl | exact absurd rfl hslash

theorem isTaken_of_ofPunctuation? {k : TokenKind} (hrun : Text.IsRun (g :: rest))
    (hcomment : startsComment g rest = false) (hk : TokenKind.ofPunctuation? g = some k) :
    IsTaken ⟨k, g.bytes, 1⟩ (g :: rest) := by
  have hmem := List.mem_of_find?_eq_some hk
  have hname : k.name = g.bytes := by simpa using List.find?_some hk
  have hreading : (Word.sign k).IsReading k.name := .sign (List.mem_append_left _ hmem)
  have hword : word ⟨k, g.bytes, 1⟩ = Word.sign k := by rw [word, Word.sign, hname]
  refine ⟨[g], rest, rfl, rfl, List.cons_ne_nil g _, ?_, ?_⟩
  · rw [hword]
    simpa [Text.ofGlyphs, hname] using hreading
  · intro x hx
    rw [hword]
    by_cases hslash : k = .slash
    · have hpoint : g.point = 47 := by
        refine hrun.point_of_mem (x := 47) List.mem_cons_self ?_ (by decide)
        rw [← hname, hslash]
        decide
      rw [startsComment, hpoint, Option.mem_def.mp hx] at hcomment
      rw [hslash]
      change (x.point != 47) = true
      simpa using hcomment
    · exact endsBefore_mark hmem hslash x

/-- Where a character that is neither blank nor the start of a comment is scanned as a lexeme,
the lexeme is read from the characters that it takes. -/
theorem isTaken_of_scan (hrun : Text.IsRun (g :: rest)) (hcomment : startsComment g rest = false)
    (h : scan g rest = .ok lexeme) : lexeme.IsTaken (g :: rest) := by
  have hbyte : ∀ b : UInt8, b < 0x80 → g.point = b.toNat → g.bytes = [b] := by
    intro b hb hpoint
    have hlt : g.point < 0x80 := by
      rw [hpoint]
      exact UInt8.lt_iff_toNat_lt.mp hb
    rw [hrun.bytes_of_lt List.mem_cons_self hlt, hpoint]
    simp
  rw [scan] at h
  rcases ite_eq_iff.mp h with ⟨hg, h⟩ | ⟨-, h⟩
  · obtain rfl := Except.ok.inj h
    exact isTaken_scanWord hrun hg
  rcases ite_eq_iff.mp h with ⟨hg, h⟩ | ⟨-, h⟩
  · exact isTaken_of_scanNumber hrun hg h
  rcases ite_eq_iff.mp h with ⟨-, h⟩ | ⟨-, h⟩
  · exact isTaken_of_scanString h
  rcases ite_eq_iff.mp h with ⟨hg, h⟩ | ⟨-, h⟩
  · obtain rfl := Except.ok.inj h
    have hbytes := hbyte 61 (by decide) (beq_iff_eq.mp hg)
    exact isTaken_scanSign hrun (by decide) (by decide) (by rw [hbytes]; rfl)
      (by rw [hbytes]; rfl) (fun _ => rfl) (fun _ => rfl)
  rcases ite_eq_iff.mp h with ⟨hg, h⟩ | ⟨-, h⟩
  · obtain rfl := Except.ok.inj h
    have hbytes := hbyte 33 (by decide) (beq_iff_eq.mp hg)
    exact isTaken_scanSign hrun (by decide) (by decide) (by rw [hbytes]; rfl)
      (by rw [hbytes]; rfl) (fun _ => rfl) (fun _ => rfl)
  cases hk : TokenKind.ofPunctuation? g with
  | none =>
      rw [hk] at h
      cases h
  | some k =>
      rw [hk] at h
      obtain rfl := Except.ok.inj h
      exact isTaken_of_ofPunctuation? hrun hcomment hk

theorem distance_lt_of_scanNumber {distance : Nat} {e : LexError} (hrun : Text.IsRun (g :: rest))
    (h : scanNumber (g :: rest) = .error (distance, e)) :
    distance < (Text.ofGlyphs (g :: rest)).length := by
  have hpos : 0 < (Text.ofGlyphs (g :: rest)).length := hrun.length_pos
  rw [scanNumber] at h
  split at h
  next hnext =>
    obtain rfl : _ = distance := congrArg Prod.fst (Except.error.inj h)
    obtain ⟨x, hx, -⟩ := Option.map_eq_some_iff.mp hnext
    obtain ⟨behind, hbehind⟩ := List.head?_eq_some_iff.mp hx
    have hsplit : (g :: rest).takeWhile isDecimal ++ x :: behind = g :: rest := by
      rw [← hbehind, List.takeWhile_append_dropWhile]
    rw [← hsplit] at hrun
    have hnext := hrun.of_append.length_pos
    have htotal : (Text.ofGlyphs (g :: rest)).length =
        (Text.ofGlyphs ((g :: rest).takeWhile isDecimal)).length +
          (Text.ofGlyphs (x :: behind)).length := by
      rw [← List.length_append, ← Text.ofGlyphs_append, hsplit]
    omega
  next =>
    split at h
    · cases h
    · obtain rfl : _ = distance := congrArg Prod.fst (Except.error.inj h)
      exact hpos

theorem distance_lt_of_scan {distance : Nat} {e : LexError} (hrun : Text.IsRun (g :: rest))
    (h : scan g rest = .error (distance, e)) : distance < (Text.ofGlyphs (g :: rest)).length := by
  have hpos : 0 < (Text.ofGlyphs (g :: rest)).length := hrun.length_pos
  rw [scan] at h
  rcases ite_eq_iff.mp h with ⟨-, h⟩ | ⟨-, h⟩
  · cases h
  rcases ite_eq_iff.mp h with ⟨-, h⟩ | ⟨-, h⟩
  · exact distance_lt_of_scanNumber hrun h
  rcases ite_eq_iff.mp h with ⟨-, h⟩ | ⟨-, h⟩
  · rw [scanString] at h
    split at h
    · obtain rfl : _ = distance := congrArg Prod.fst (Except.error.inj h)
      exact hpos
    · split at h
      · obtain rfl : _ = distance := congrArg Prod.fst (Except.error.inj h)
        exact hpos
      · cases h
  rcases ite_eq_iff.mp h with ⟨-, h⟩ | ⟨-, h⟩
  · cases h
  rcases ite_eq_iff.mp h with ⟨-, h⟩ | ⟨-, h⟩
  · cases h
  split at h
  · cases h
  · obtain rfl : _ = distance := congrArg Prod.fst (Except.error.inj h)
    exact hpos

end Lexeme

end Splice

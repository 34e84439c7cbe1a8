import Splice.Proofs.Text.Lines
import Splice.Proofs.Text.Words

/-!
# Reading back what is written

A number is read back from its digits, and a text from its quoted form
(`unquote?_quote`), whatever bytes the text holds: a byte that is no character is
written in hexadecimal, and a character is written as itself only if its bytes are the
ones that its code point is written with.
-/

namespace Splice.Text

section

variable {digit : UInt8 → Option Nat} {b : Nat}

theorem value_concat {t : Text} {c : UInt8} {n d : Nat}
    (h : (t.mapM digit).map (ofDigits b) = some n) (hc : digit c = some d) :
    ((t ++ [c]).mapM digit).map (ofDigits b) = some (n * b + d) := by
  obtain ⟨ds, hds, rfl⟩ := Option.map_eq_some_iff.mp h
  rw [List.mapM_append, hds]
  simp [hc, ofDigits]

theorem value_toDigits (hb : 1 < b) (hdigit : ∀ d < b, digit (byte (Nat.digitChar d)) = some d)
    (n : Nat) : (((Nat.toDigits b n).map byte).mapM digit).map (ofDigits b) = some n := by
  induction n using Nat.strong_induction_on with
  | _ n ih =>
      by_cases hn : n < b
      · rw [Nat.toDigits_of_lt_base hn]
        simp [hdigit n hn, ofDigits]
      · have hlt : n / b < n := Nat.div_lt_self (by omega) hb
        have hlast : digit (byte (Nat.digitChar (n % b))) = some (n % b) :=
          hdigit _ (Nat.mod_lt _ (by omega))
        rw [Nat.toDigits_of_base_le hb (by omega), List.map_append,
          List.map_singleton, value_concat (ih _ hlt) hlast, Nat.div_add_mod']

end

theorem toNat?_ofNat (n : Nat) : toNat? (ofNat n) = some n := by
  have hvalue : (((Nat.toDigits 10 n).map byte).mapM digit?).map (ofDigits 10) = some n :=
    value_toDigits (by decide) (by decide) n
  have hne : (ofNat n).isEmpty = false := by
    rw [ofNat_eq_map, List.isEmpty_eq_false_iff]
    simp [Nat.toDigits_ne_nil]
  rw [toNat?, hne, if_neg (by decide), ofNat_eq_map]
  exact hvalue

/-- Zeros in front do not change what digits spell. -/
theorem value_zeros {t : Text} {n : Nat} (k : Nat)
    (h : (t.mapM hexDigit?).map (ofDigits 16) = some n) :
    ((List.replicate k (byte '0') ++ t).mapM hexDigit?).map (ofDigits 16) = some n := by
  obtain ⟨ds, hds, rfl⟩ := Option.map_eq_some_iff.mp h
  induction k with
  | zero => simp [hds]
  | succ k ih =>
      obtain ⟨es, hes, heq⟩ := Option.map_eq_some_iff.mp ih
      have hzero : hexDigit? (byte '0') = some 0 := by decide
      rw [List.replicate_succ, List.cons_append, List.mapM_cons, hzero, hes]
      simpa [ofDigits] using heq

theorem value_hex (width n : Nat) :
    ((hex width n).mapM hexDigit?).map (ofDigits 16) = some n :=
  value_zeros _ (value_toDigits (by decide) (by decide) n)

theorem length_hex {width n : Nat} (hpos : 0 < width) (h : n < 16 ^ width) :
    (hex width n).length = width := by
  have hle := (Nat.length_toDigits_le_iff (by decide) hpos).mpr h
  simp only [hex, List.length_append, List.length_replicate, List.length_map]
  omega

theorem toUInt8_eq {n : Nat} {b : UInt8} (h : n = b.toNat) : n.toUInt8 = b := by
  rw [h]
  exact UInt8.ofNat_toNat

theorem encodePoint_of_lt {n : Nat} (h : n < 0x80) : encodePoint n = [n.toUInt8] := by
  rw [encodePoint, if_pos h]

theorem startsThree_bounds {b c : UInt8} (h : startsThree b c = true) :
    0xE0 ≤ b.toNat ∧ b.toNat ≤ 0xEF ∧ 0x80 ≤ c.toNat ∧ c.toNat ≤ 0xBF ∧
      (b.toNat = 0xE0 → 0xA0 ≤ c.toNat) ∧ (b.toNat = 0xED → c.toNat ≤ 0x9F) := by
  simp only [startsThree, isTail, Bool.and_eq_true, Bool.or_eq_true, decide_eq_true_eq,
    beq_iff_eq, bne_iff_ne, UInt8.le_iff_toNat_le, ← UInt8.toNat_inj, UInt8.reduceToNat, ne_eq] at h
  omega

theorem startsFour_bounds {b c : UInt8} (h : startsFour b c = true) :
    0xF0 ≤ b.toNat ∧ b.toNat ≤ 0xF4 ∧ 0x80 ≤ c.toNat ∧ c.toNat ≤ 0xBF ∧
      (b.toNat = 0xF0 → 0x90 ≤ c.toNat) ∧ (b.toNat = 0xF4 → c.toNat ≤ 0x8F) := by
  simp only [startsFour, isTail, Bool.and_eq_true, Bool.or_eq_true, decide_eq_true_eq,
    beq_iff_eq, UInt8.le_iff_toNat_le, ← UInt8.toNat_inj, UInt8.reduceToNat] at h
  omega

theorem isTail_bounds {c : UInt8} (h : isTail c = true) : 0x80 ≤ c.toNat ∧ c.toNat ≤ 0xBF := by
  simpa [isTail, UInt8.le_iff_toNat_le] using h

/-- The code point has a form, and the bytes are that form. -/
def IsForm (g : Glyph) : Prop := isScalar g.point = true ∧ encodePoint g.point = g.bytes

theorem isForm_two {b c : UInt8} (h : (0xC2 ≤ b && b ≤ 0xDF && isTail c) = true) :
    IsForm ⟨(b.toNat - 0xC0) * 64 + (c.toNat - 0x80), [b, c]⟩ := by
  simp only [isTail, Bool.and_eq_true, decide_eq_true_eq, UInt8.le_iff_toNat_le,
    UInt8.reduceToNat] at h
  refine ⟨?_, ?_⟩
  · simp only [isScalar, Bool.or_eq_true, decide_eq_true_eq]
    omega
  · dsimp only
    rw [encodePoint, if_neg (by omega), if_pos (by omega)]
    change [_, (0x80 + _ % 64).toUInt8] = [b, c]
    rw [toUInt8_eq (b := b) (by omega), toUInt8_eq (b := c) (by omega)]

theorem isForm_three {b c d : UInt8} (h : startsThree b c = true) (hd : isTail d = true) :
    IsForm ⟨((b.toNat - 0xE0) * 64 + (c.toNat - 0x80)) * 64 + (d.toNat - 0x80), [b, c, d]⟩ := by
  have hbounds := startsThree_bounds h
  have htail := isTail_bounds hd
  have hscalar : isScalar
      (((b.toNat - 0xE0) * 64 + (c.toNat - 0x80)) * 64 + (d.toNat - 0x80)) = true := by
    simp only [isScalar, Bool.or_eq_true, Bool.and_eq_true, decide_eq_true_eq]
    omega
  refine ⟨hscalar, ?_⟩
  dsimp only
  rw [encodePoint, if_neg (by omega), if_neg (by omega), hscalar, if_neg (by decide),
    if_pos (by omega)]
  change [_, (0x80 + _ / 64 % 64).toUInt8, (0x80 + _ % 64).toUInt8] = [b, c, d]
  rw [toUInt8_eq (b := b) (by omega), toUInt8_eq (b := c) (by omega),
    toUInt8_eq (b := d) (by omega)]

theorem isForm_four {b c d e : UInt8} (h : startsFour b c = true) (hd : isTail d = true)
    (he : isTail e = true) :
    IsForm ⟨(((b.toNat - 0xF0) * 64 + (c.toNat - 0x80)) * 64 + (d.toNat - 0x80)) * 64 +
      (e.toNat - 0x80), [b, c, d, e]⟩ := by
  have hbounds := startsFour_bounds h
  have htail := isTail_bounds hd
  have htail' := isTail_bounds he
  have hscalar : isScalar ((((b.toNat - 0xF0) * 64 + (c.toNat - 0x80)) * 64 +
      (d.toNat - 0x80)) * 64 + (e.toNat - 0x80)) = true := by
    simp only [isScalar, Bool.or_eq_true, Bool.and_eq_true, decide_eq_true_eq]
    omega
  refine ⟨hscalar, ?_⟩
  dsimp only
  rw [encodePoint, if_neg (by omega), if_neg (by omega), hscalar, if_neg (by decide),
    if_neg (by omega)]
  change [_, (0x80 + _ / 4096 % 64).toUInt8, (0x80 + _ / 64 % 64).toUInt8,
    (0x80 + _ % 64).toUInt8] = [b, c, d, e]
  rw [toUInt8_eq (b := b) (by omega), toUInt8_eq (b := c) (by omega),
    toUInt8_eq (b := d) (by omega), toUInt8_eq (b := e) (by omega)]

theorem isForm_shortGlyph {b : UInt8} (h : (shortGlyph b).isBroken = false) :
    IsForm (shortGlyph b) := by
  unfold shortGlyph at h ⊢
  split
  · next hb =>
      have hlt : b.toNat < 0x80 := hb
      refine ⟨?_, ?_⟩
      · simp only [isScalar, Bool.or_eq_true, decide_eq_true_eq]
        omega
      · exact (encodePoint_of_lt hlt).trans (by rw [toUInt8_eq rfl])
  · next hb => simp [hb, Glyph.isBroken] at h

/-- A character that is not broken is made of the bytes that its code point is written
with. -/
theorem isForm_headGlyph {b : UInt8} {rest : Text} (h : (headGlyph b rest).isBroken = false) :
    IsForm (headGlyph b rest) := by
  unfold headGlyph at h ⊢
  split
  · split
    · next htwo => exact isForm_two htwo
    · split
      · next hthree =>
          rw [Bool.and_eq_true] at hthree
          exact isForm_three hthree.1 hthree.2
      · split
        · next hfour =>
            rw [Bool.and_eq_true, Bool.and_eq_true] at hfour
            exact isForm_four hfour.1.1 hfour.1.2 hfour.2
        · next htwo hthree hfour =>
            simp only [htwo, hthree, hfour] at h
            exact isForm_shortGlyph h
  · split
    · next htwo => exact isForm_two htwo
    · split
      · next hthree =>
          rw [Bool.and_eq_true] at hthree
          exact isForm_three hthree.1 hthree.2
      · next htwo hthree =>
          simp only [htwo, hthree] at h
          exact isForm_shortGlyph h
  · split
    · next htwo => exact isForm_two htwo
    · next htwo =>
        simp only [htwo] at h
        exact isForm_shortGlyph h
  · exact isForm_shortGlyph h

theorem isForm_of_mem_glyphsFrom {skip : Nat} {t : Text} {g : Glyph} (hg : g ∈ glyphsFrom skip t)
    (h : g.isBroken = false) : IsForm g := by
  obtain ⟨b, rest, rfl⟩ := exists_headGlyph_of_mem hg
  exact isForm_headGlyph h

/-! ## Escape sequences -/

/-- A byte of an escape sequence that neither ends the literal nor starts another one. -/
def IsInner (x : UInt8) : Prop :=
  x < 0x80 ∧ x ≠ newline ∧ x ≠ quoteByte ∧ x ≠ backslash

instance (x : UInt8) : Decidable (IsInner x) := inferInstanceAs (Decidable (_ ∧ _))

theorem isInner_of_mem_hex {width n : Nat} {x : UInt8} (h : x ∈ hex width n) : IsInner x := by
  have hdigits : ∀ d < 16, IsInner (byte (Nat.digitChar d)) := by decide
  rcases List.mem_append.mp h with hzero | hdigit
  · rw [List.eq_of_mem_replicate hzero]
    decide
  · obtain ⟨c, hc, rfl⟩ := List.mem_map.mp hdigit
    obtain ⟨d, hd, rfl⟩ := exists_digitChar_of_mem_toDigits hc
    exact hdigits d hd

/-- Taking the digits of a number off the front of a text. -/
theorem taken_hex {width n : Nat} (hpos : 0 < width) (h : n < 16 ^ width) (rest : Text) :
    (if (hex width n ++ rest).length < width then none
      else (((hex width n ++ rest).take width).mapM hexDigit?).map fun ds =>
        (ofDigits 16 ds, (hex width n ++ rest).drop width)) = some (n, rest) := by
  have hlength := length_hex hpos h
  obtain ⟨ds, hds, hn⟩ := Option.map_eq_some_iff.mp (value_hex width n)
  have hle : ¬(hex width n ++ rest).length < width := by
    rw [List.length_append]
    omega
  rw [if_neg hle, List.take_left' hlength, List.drop_left' hlength, hds, Option.map_some, hn]

theorem unescape?_byte {n : Nat} (h : n < 256) (rest : Text) :
    unescape? (byte 'x' :: (hex 2 n ++ rest)) = some ([n.toUInt8], rest) := by
  have htaken := taken_hex (show 0 < 2 by decide) h rest
  change Option.map _ (if _ then none else _) = _
  rw [htaken]
  rfl

theorem unescape?_point {c : UInt8} {width n : Nat}
    (hc : c = byte 'u' ∧ width = 4 ∨ c = byte 'U' ∧ width = 8) (h : n < 16 ^ width)
    (hscalar : isScalar n = true) (rest : Text) :
    unescape? (c :: (hex width n ++ rest)) = some (encodePoint n, rest) := by
  have htaken := taken_hex (show 0 < width by omega) h rest
  rcases hc with ⟨rfl, rfl⟩ | ⟨rfl, rfl⟩
  all_goals
    simp +decide only [unescape?, ↓reduceIte, Option.bind_eq_bind]
    refine (congrArg (fun p => Option.bind p fun q =>
      if isScalar q.1 then some (encodePoint q.1, q.2) else none) htaken).trans ?_
    simp [hscalar]

/-- How a character is written between quotes: as itself, or as an escape sequence that
stands for its bytes. -/
inductive Escaped (g : Glyph) : Text → Prop
  | plain (hwhole : IsWhole g) (hform : encodePoint g.point = g.bytes)
      (hpoint : g.point ≠ 10 ∧ g.point ≠ 34 ∧ g.point ≠ 92) : Escaped g g.bytes
  | escape {c : UInt8} {more : Text} (hc : c < 0x80) (hmore : ∀ x ∈ more, IsInner x)
      (h : ∀ rest, unescape? (c :: (more ++ rest)) = some (g.bytes, rest)) :
      Escaped g (backslash :: c :: more)

/-- The controls from the bell to the carriage return have names. -/
theorem escaped_named {n : Nat} (hlo : 7 ≤ n) (hhi : n < 14) :
    Escaped ⟨n, [n.toUInt8]⟩ (escapeGlyph 34 ⟨n, []⟩) := by
  have hname : ∀ c : Char, escapeGlyph 34 ⟨n, []⟩ = [backslash, byte c] → byte c < 0x80 →
      (∀ rest, unescape? (byte c :: rest) = some ([n.toUInt8], rest)) →
      Escaped ⟨n, [n.toUInt8]⟩ (escapeGlyph 34 ⟨n, []⟩) := by
    intro c heq hc h
    rw [heq]
    exact .escape hc (by simp) h
  interval_cases n
  · exact hname 'a' (by decide) (by decide) fun _ => rfl
  · exact hname 'b' (by decide) (by decide) fun _ => rfl
  · exact hname 't' (by decide) (by decide) fun _ => rfl
  · exact hname 'n' (by decide) (by decide) fun _ => rfl
  · exact hname 'v' (by decide) (by decide) fun _ => rfl
  · exact hname 'f' (by decide) (by decide) fun _ => rfl
  · exact hname 'r' (by decide) (by decide) fun _ => rfl

/-- What cannot be shown is written by its name, or in hexadecimal. -/
theorem escaped_of_not_isPrintable {g : Glyph} (hform : IsForm g)
    (hmark : (g.point == 34 || g.point == backslash.toNat) = false)
    (hprintable : isPrintable g.point = false) : Escaped g (escapeGlyph 34 ⟨g.point, []⟩) := by
  obtain ⟨n, bytes⟩ := g
  obtain ⟨hscalar, hbytes⟩ := hform
  dsimp only at hscalar hbytes hmark hprintable ⊢
  have hbyte : ∀ h : n < 0x80, Escaped ⟨n, bytes⟩ (backslash :: byte 'x' :: hex 2 n) := by
    intro h
    refine .escape (by decide) (fun _ => isInner_of_mem_hex) fun rest => ?_
    rw [unescape?_byte (by omega), ← hbytes, encodePoint_of_lt h]
  by_cases hseven : n < 7
  · have hshown : ∀ m < 7, escapeGlyph 34 ⟨m, []⟩ = backslash :: byte 'x' :: hex 2 m := by decide
    rw [hshown n hseven]
    exact hbyte (by omega)
  · by_cases hnamed : n < 14
    · rw [← hbytes, encodePoint_of_lt (by omega)]
      exact escaped_named (by omega) hnamed
    · rw [escapeGlyph_of_le (by omega) hmark hprintable]
      split
      · next hcontrol =>
          simp only [Bool.or_eq_true, decide_eq_true_eq, beq_iff_eq] at hcontrol
          exact hbyte (by omega)
      · split
        · next hshort =>
            change Escaped _ (backslash :: byte 'u' :: hex 4 n)
            refine .escape (by decide) (fun _ => isInner_of_mem_hex) fun rest => ?_
            rw [unescape?_point (.inl ⟨rfl, rfl⟩) hshort hscalar, hbytes]
        · have hlong : n < 0x100000000 := by
            simp only [isScalar, Bool.or_eq_true, Bool.and_eq_true, decide_eq_true_eq] at hscalar
            omega
          change Escaped _ (backslash :: byte 'U' :: hex 8 n)
          refine .escape (by decide) (fun _ => isInner_of_mem_hex) fun rest => ?_
          rw [unescape?_point (.inr ⟨rfl, rfl⟩) hlong hscalar, hbytes]

/-- A byte that is no part of a character is written in hexadecimal. -/
theorem escaped_of_isBroken {g : Glyph} (h : g.isBroken = true) : Escaped g (escapeGlyph 34 g) := by
  obtain ⟨b, hb⟩ : ∃ b, g.bytes = [b] := by
    simp only [Glyph.isBroken, Bool.and_eq_true, beq_iff_eq] at h
    exact List.length_eq_one_iff.mp h.2
  have heq : escapeGlyph 34 g = backslash :: byte 'x' :: hex 2 b.toNat := by
    unfold escapeGlyph
    rw [h, if_pos rfl, hb]
    rfl
  rw [heq]
  refine .escape (by decide) (fun _ => isInner_of_mem_hex) fun rest => ?_
  rw [unescape?_byte b.toNat_lt, toUInt8_eq rfl, hb]

/-- A quotation mark or a backslash stands behind a backslash. -/
theorem escaped_of_isMark {g : Glyph} (hform : encodePoint g.point = g.bytes)
    (hmark : (g.point == 34 || g.point == backslash.toNat) = true) :
    Escaped g (escapeGlyph 34 ⟨g.point, []⟩) := by
  have heq : escapeGlyph 34 ⟨g.point, []⟩ = backslash :: encodePoint g.point := by
    simp [escapeGlyph, Glyph.isBroken, hmark]
  have hpoint : g.point = 34 ∨ g.point = 92 := by simpa [backslash] using hmark
  rw [heq, hform]
  rcases hpoint with hpoint | hpoint
  all_goals
    rw [hpoint] at hform
    rw [← hform]
    exact .escape (by decide) (by simp) fun rest => by rw [← hform]; rfl

theorem escaped_escapeGlyph {t : Text} {g : Glyph} (hg : g ∈ t.glyphs) :
    Escaped g (escapeGlyph 34 g) := by
  cases hbroken : g.isBroken with
  | true => exact escaped_of_isBroken hbroken
  | false =>
      obtain ⟨hscalar, hform⟩ := isForm_of_mem_glyphsFrom hg hbroken
      have hwhole : IsWhole g := isWhole_of_mem_glyphsFrom hg hbroken
      rw [escapeGlyph_of_not_isBroken 34 hbroken]
      cases hmark : (g.point == 34 || g.point == backslash.toNat) with
      | true => exact escaped_of_isMark hform hmark
      | false =>
          cases hprintable : isPrintable g.point with
          | false => exact escaped_of_not_isPrintable ⟨hscalar, hform⟩ hmark hprintable
          | true =>
              have heq : escapeGlyph 34 ⟨g.point, []⟩ = encodePoint g.point := by
                simp [escapeGlyph, Glyph.isBroken, hmark, hprintable]
              have hpoint : g.point ≠ 34 ∧ g.point ≠ 92 := by simpa [backslash] using hmark
              rw [heq, hform]
              refine .plain hwhole hform ⟨?_, hpoint⟩
              intro hline
              rw [hline] at hprintable
              exact absurd hprintable (by decide)

theorem unquoteBody?_escape {fuel : Nat} {t rest value : Text}
    (h : unescape? t = some (value, rest)) :
    unquoteBody? (fuel + 1) (backslash :: t) = (unquoteBody? fuel rest).map (value ++ ·) := by
  have hquote : (backslash == quoteByte) = false := by decide
  have hline : (backslash == newline) = false := by decide
  rw [unquoteBody?, hquote, hline]
  simp [h, Option.map_eq_bind]

/-- A whole character has bytes, and is read from them whatever stands behind. -/
theorem IsWhole.exists_headGlyph {g : Glyph} (h : IsWhole g) :
    ∃ b more, g.bytes = b :: more ∧ ∀ t, headGlyph b (more ++ t) = g := by
  cases hbytes : g.bytes with
  | nil =>
      have hread := h []
      rw [hbytes] at hread
      exact absurd hread (List.cons_ne_self _ _).symm
  | cons b more =>
      refine ⟨b, more, rfl, fun t => ?_⟩
      have hread := h t
      rw [hbytes] at hread
      exact (List.cons.inj hread).1

/-- The first byte of a character is an ASCII byte only if it is the whole character. -/
theorem ne_of_point_ne {g : Glyph} {b : UInt8} {more : Text}
    (hread : ∀ t, headGlyph b (more ++ t) = g) {x : UInt8} (hx : x < 0x80)
    (hpoint : g.point ≠ x.toNat) : b ≠ x := by
  rintro rfl
  have hhead := hread []
  rw [headGlyph_short hx, shortGlyph, if_pos hx] at hhead
  rw [← hhead] at hpoint
  exact hpoint rfl

theorem Escaped.unquoteBody?_append {g : Glyph} {t : Text} (h : Escaped g t) (fuel : Nat)
    (rest : Text) :
    unquoteBody? (fuel + 1) (t ++ rest) = (unquoteBody? fuel rest).map (g.bytes ++ ·) := by
  cases h with
  | escape _ _ h => exact unquoteBody?_escape (h rest)
  | plain hwhole hform hpoint =>
      obtain ⟨b, more, hbytes, hread⟩ := hwhole.exists_headGlyph
      have hne : ∀ x : UInt8, x < 0x80 → g.point ≠ x.toNat → (b == x) = false := by
        intro x hx hpoint
        exact beq_false_of_ne (ne_of_point_ne hread hx hpoint)
      rw [hbytes, List.cons_append, unquoteBody?, hne quoteByte (by decide) hpoint.2.1,
        hne newline (by decide) hpoint.1, hne backslash (by decide) hpoint.2.2, hread]
      have hdrop : (more ++ rest).drop (g.bytes.length - 1) = rest := by
        rw [hbytes, List.length_cons, Nat.add_sub_cancel, List.drop_left]
      simp only [Bool.false_eq_true, if_false]
      rw [hdrop, hform, hbytes]

theorem Escaped.ne_nil {g : Glyph} {t : Text} (h : Escaped g t) : t ≠ [] := by
  cases h with
  | escape => simp
  | plain hwhole _ _ =>
      obtain ⟨b, more, hbytes, -⟩ := hwhole.exists_headGlyph
      simp [hbytes]

theorem unquoteBody?_flatMap {gs : List Glyph} (h : ∀ g ∈ gs, Escaped g (escapeGlyph 34 g))
    {fuel : Nat} (hfuel : (gs.flatMap (escapeGlyph 34)).length < fuel) :
    unquoteBody? fuel (gs.flatMap (escapeGlyph 34) ++ [quoteByte]) = some (ofGlyphs gs) := by
  induction gs generalizing fuel with
  | nil =>
      obtain ⟨fuel, rfl⟩ := Nat.exists_eq_add_of_lt hfuel
      rfl
  | cons g gs ih =>
      have hg := h g List.mem_cons_self
      have hpos := List.length_pos_iff.mpr hg.ne_nil
      rw [List.flatMap_cons, List.length_append] at hfuel
      obtain ⟨fuel, rfl⟩ : ∃ k, fuel = k + 1 := ⟨fuel - 1, by omega⟩
      rw [List.flatMap_cons, List.append_assoc, hg.unquoteBody?_append,
        ih (fun x hx => h x (List.mem_cons_of_mem g hx)) (by omega)]
      rfl

/-- A text is read back from its quoted form. -/
theorem unquote?_quote (t : Text) : unquote? (quote t) = some t := by
  have hread : ∀ body, body = t.glyphs.flatMap (escapeGlyph 34) →
      unquoteBody? ((body ++ [quoteByte]).length + 1) (body ++ [quoteByte]) =
        some (ofGlyphs t.glyphs) := by
    rintro body rfl
    apply unquoteBody?_flatMap fun g hg => escaped_escapeGlyph hg
    rw [List.length_append]
    omega
  rw [ofGlyphs_glyphs] at hread
  exact hread _ rfl

end Splice.Text

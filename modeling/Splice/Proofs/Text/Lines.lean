import Splice.Code.Instr
import Splice.Proofs.Program.Identifiers

/-!
# Texts without line ends

A listing shows one instruction to a line, so nothing that is shown in an instruction may
hold a line end.  Quoted texts hold none, because a line end is written by its name
between quotes; nor do numbers and words.
-/

namespace Splice

namespace Text

def IsLine (t : Text) : Prop := newline ∉ t

instance (t : Text) : Decidable (IsLine t) := inferInstanceAs (Decidable (newline ∉ t))

variable {s t : Text}

@[simp] theorem isLine_nil : IsLine [] := List.not_mem_nil

theorem isLine_cons {b : UInt8} : IsLine (b :: t) ↔ newline ≠ b ∧ IsLine t := by
  simp [IsLine]

theorem isLine_append : IsLine (s ++ t) ↔ IsLine s ∧ IsLine t := by
  simp [IsLine]

theorem isLine_join {separator : Text} {ts : List Text} (hseparator : IsLine separator)
    (hts : ∀ t ∈ ts, IsLine t) : IsLine (join separator ts) := by
  fun_induction join separator ts with
  | case1 => exact isLine_nil
  | case2 t => exact hts t List.mem_cons_self
  | case3 t rest _ ih =>
      rw [isLine_append, isLine_append]
      exact ⟨⟨hts t List.mem_cons_self, hseparator⟩,
        ih fun u hu => hts u (List.mem_cons_of_mem _ hu)⟩

theorem IsWord.isLine (h : IsWord t) : IsLine t := by
  intro hmem
  exact absurd (h newline hmem (by decide)) (by decide)

theorem isLine_ofInt64 (n : Int64) : IsLine (ofInt64 n) := by
  unfold ofInt64 ofInt
  split
  · exact isLine_cons.mpr ⟨by decide, (isWord_ofNat _).isLine⟩
  · exact (isWord_ofNat _).isLine

theorem exists_digitChar_of_mem_toDigits {n : Nat} {c : Char} (h : c ∈ Nat.toDigits 16 n) :
    ∃ d < 16, c = Nat.digitChar d := by
  induction n using Nat.strong_induction_on with
  | _ n ih =>
      rw [Nat.toDigits_eq_if (by decide)] at h
      split at h
      · next hlt => exact ⟨n, hlt, List.mem_singleton.mp h⟩
      · next hle =>
          rcases List.mem_append.mp h with hfront | hlast
          · exact ih (n / 16) (by omega) hfront
          · exact ⟨n % 16, Nat.mod_lt _ (by decide), List.mem_singleton.mp hlast⟩

theorem isLine_hex (width n : Nat) : IsLine (hex width n) := by
  have hdigits : ∀ d < 16, byte (Nat.digitChar d) ≠ newline := by decide
  unfold hex
  rw [isLine_append]
  constructor
  · intro hmem
    exact absurd (List.eq_of_mem_replicate hmem) (by decide)
  · intro hmem
    obtain ⟨c, hc, heq⟩ := List.mem_map.mp hmem
    obtain ⟨d, hd, rfl⟩ := exists_digitChar_of_mem_toDigits hc
    exact hdigits d hd heq

theorem newline_ne_toUInt8 {n : Nat} (h : n ≠ 10) (hlt : n < 256) : newline ≠ n.toUInt8 := by
  intro heq
  have hvalue := congrArg UInt8.toNat heq
  rw [UInt8.toNat_ofNat', Nat.mod_eq_of_lt hlt] at hvalue
  exact h hvalue.symm

/-- Above ASCII, characters are written with bytes above ASCII. -/
theorem isLine_encodePoint {n : Nat} (h : n ≠ 10) : IsLine (encodePoint n) := by
  have htail : ∀ k : Nat, newline ≠ (0x80 + k % 64).toUInt8 :=
    fun k => newline_ne_toUInt8 (by omega) (by omega)
  unfold encodePoint
  split
  · exact isLine_cons.mpr ⟨newline_ne_toUInt8 h (by omega), isLine_nil⟩
  · split
    · exact isLine_cons.mpr ⟨newline_ne_toUInt8 (by omega) (by omega),
        isLine_cons.mpr ⟨htail n, isLine_nil⟩⟩
    · split
      · decide
      · next hscalar =>
          have hle : n ≤ 0x10FFFF := by
            simp only [isScalar, Bool.not_eq_true', Bool.not_eq_false,
              Bool.or_eq_true, Bool.and_eq_true, decide_eq_true_eq] at hscalar
            omega
          split
          · exact isLine_cons.mpr ⟨newline_ne_toUInt8 (by omega) (by omega),
              isLine_cons.mpr ⟨htail _, isLine_cons.mpr ⟨htail n, isLine_nil⟩⟩⟩
          · exact isLine_cons.mpr ⟨newline_ne_toUInt8 (by omega) (by omega),
              isLine_cons.mpr ⟨htail _, isLine_cons.mpr ⟨htail _,
                isLine_cons.mpr ⟨htail n, isLine_nil⟩⟩⟩⟩

theorem escapeGlyph_of_not_isBroken {g : Glyph} (mark : Nat) (h : g.isBroken = false) :
    escapeGlyph mark g = escapeGlyph mark ⟨g.point, []⟩ := by
  have hempty : Glyph.isBroken ⟨g.point, []⟩ = false := by simp [Glyph.isBroken]
  simp only [escapeGlyph, h, hempty, Bool.false_eq_true, if_false]

/-- Beyond the named controls, what cannot be shown is written in hexadecimal. -/
theorem escapeGlyph_of_le {n : Nat} (hn : 14 ≤ n)
    (hmark : (n == 34 || n == backslash.toNat) = false) (hprintable : isPrintable n = false) :
    escapeGlyph 34 ⟨n, []⟩ =
      if n < 32 || n == 127 then "\\x" ++ hex 2 n
      else if n < 0x10000 then "\\u" ++ hex 4 n
      else "\\U" ++ hex 8 n := by
  obtain ⟨k, rfl⟩ := Nat.exists_eq_add_of_le' hn
  have hwhole : Glyph.isBroken ⟨k + 14, []⟩ = false := by simp [Glyph.isBroken]
  simp only [escapeGlyph, hwhole, hmark, hprintable, Bool.false_eq_true, if_false]
  rfl

theorem isLine_escapeGlyph (g : Glyph) : IsLine (escapeGlyph 34 g) := by
  have hstart : ∀ (start : Text) (width n : Nat), IsLine start → IsLine (start ++ hex width n) :=
    fun start width n h => isLine_append.mpr ⟨h, isLine_hex width n⟩
  cases hbroken : g.isBroken with
  | true =>
      unfold escapeGlyph
      rw [hbroken, if_pos rfl]
      exact hstart _ _ _ (by decide)
  | false =>
      rw [escapeGlyph_of_not_isBroken 34 hbroken]
      generalize g.point = n
      by_cases hn : n < 14
      · have hcontrols : ∀ m < 14, newline ∉ escapeGlyph 34 ⟨m, []⟩ := by decide
        exact hcontrols n hn
      · have hpoint : IsLine (encodePoint n) := isLine_encodePoint (by omega)
        cases hmark : (n == 34 || n == backslash.toNat) with
        | true =>
            have hescaped : escapeGlyph 34 ⟨n, []⟩ = backslash :: encodePoint n := by
              simp [escapeGlyph, Glyph.isBroken, hmark]
            rw [hescaped]
            exact isLine_cons.mpr ⟨by decide, hpoint⟩
        | false =>
            cases hprintable : isPrintable n with
            | true =>
                have hshown : escapeGlyph 34 ⟨n, []⟩ = encodePoint n := by
                  simp [escapeGlyph, Glyph.isBroken, hmark, hprintable]
                rw [hshown]
                exact hpoint
            | false =>
                rw [escapeGlyph_of_le (by omega) hmark hprintable]
                split
                · exact hstart _ _ _ (by decide)
                · split
                  · exact hstart _ _ _ (by decide)
                  · exact hstart _ _ _ (by decide)

theorem isLine_quote (t : Text) : IsLine (quote t) := by
  unfold quote
  rw [List.cons_append, isLine_cons, isLine_append]
  refine ⟨by decide, ?_, by decide⟩
  intro hmem
  obtain ⟨g, -, hg⟩ := List.mem_flatMap.mp hmem
  exact isLine_escapeGlyph g hg

end Text

theorem Instr.isLine_parenthesised {head : Text} {parts : List Text} (hhead : Text.IsLine head)
    (hparts : ∀ t ∈ parts, Text.IsLine t) : Text.IsLine (parenthesised head parts) := by
  have hopen : Text.IsLine "(" := by decide
  have hclose : Text.IsLine ")" := by decide
  have hspace : Text.IsLine " " := by decide
  unfold parenthesised
  rw [Text.isLine_append, Text.isLine_append]
  refine ⟨⟨hopen, Text.isLine_join hspace ?_⟩, hclose⟩
  intro t ht
  rcases List.mem_cons.mp ht with rfl | ht
  · exact hhead
  · exact hparts t ht

end Splice

import Splice.Proofs.Source.Position
import Splice.Proofs.Text.Lines
import Splice.Source.Diagnostic

/-!
# Places that diagnostics point at

A diagnostic ends with a line of the source and a line below it that is blank up to the caret.
What stands before the caret is as wide as the row number and the bytes of the source line
before the offset together, with a tab wherever the line above has one.
-/

namespace Splice

namespace Diagnostic

open Text (newline IsLine)

variable {i column : Nat} {content : Text}

def tab : UInt8 := 9

def space : UInt8 := 32

def caret : UInt8 := 94

/-- What is blank below a byte of the line above; a tab keeps its width. -/
def blankBelow (b : Option UInt8) : UInt8 := if b = some tab then tab else space

theorem length_caretPadding (content : Text) (column : Nat) :
    (caretPadding content column).length = column - 1 := by
  simp only [caretPadding, List.length_append, List.length_map, List.length_replicate,
    List.length_take]
  omega

/-- Behind the end of the line the padding goes on with spaces. -/
theorem getElem?_caretPadding (h : i < column - 1) :
    (caretPadding content column)[i]? = some (blankBelow content[i]?) := by
  unfold caretPadding
  dsimp only
  by_cases hi : i < content.length
  · have hseen : i < ((content.take (column - 1)).map
        fun b => if b == 9 then (9 : UInt8) else 32).length := by
      rw [List.length_map, List.length_take]
      omega
    rw [List.getElem?_append_left hseen, List.getElem?_map, List.getElem?_take_of_lt h,
      List.getElem?_eq_getElem hi]
    simp [blankBelow, tab, space]
  · have hbehind : content[i]? = none := List.getElem?_eq_none (Nat.le_of_not_lt hi)
    rw [List.getElem?_append_right (by rw [List.length_map, List.length_take]; omega),
      List.getElem?_replicate_of_lt (by rw [List.length_map, List.length_take]; omega), hbehind]
    rfl

theorem mem_caretPadding {b : UInt8} (h : b ∈ caretPadding content column) :
    b = tab ∨ b = space := by
  obtain ⟨i, hi, rfl⟩ := List.getElem_of_mem h
  rw [length_caretPadding] at hi
  have hget : (caretPadding content column)[i]? = some (blankBelow content[i]?) :=
    getElem?_caretPadding hi
  rw [List.getElem?_eq_getElem (by rwa [length_caretPadding])] at hget
  rw [Option.some.inj hget, blankBelow]
  split
  · exact Or.inl rfl
  · exact Or.inr rfl

theorem mem_gutter {b : UInt8} {row : Nat} (h : b ∈ gutter row) :
    b = space ∨ b = 124 ∨ 48 ≤ b.toNat ∧ b.toNat ≤ 57 := by
  rw [gutter, Text.padLeft, List.append_assoc, List.mem_append, List.mem_append] at h
  rcases h with hpad | hdigit | hbar
  · exact Or.inl (List.eq_of_mem_replicate hpad)
  · rw [Text.ofNat_eq_map] at hdigit
    obtain ⟨c, hc, rfl⟩ := List.mem_map.mp hdigit
    rw [Text.toNat_digit hc]
    exact Or.inr (Or.inr (Text.digit_bounds hc))
  · have hmarks : (" | " : Text) = [space, 124, space] := by decide
    rw [hmarks] at hbar
    rcases List.mem_cons.mp hbar with hspace | hbar
    · exact Or.inl hspace
    rcases List.mem_cons.mp hbar with hline | hbar
    · exact Or.inr (Or.inl hline)
    · exact Or.inl (List.mem_singleton.mp hbar)

theorem isLine_gutter (row : Nat) : IsLine (gutter row) := by
  intro hmem
  rcases mem_gutter hmem with h | h | h
  · exact absurd h (by decide)
  · exact absurd h (by decide)
  · exact absurd h.1 (by decide)

/-- Below the row number the padding is blank as well. -/
theorem getElem?_padding {row : Nat} (h : i < (gutter row).length + (column - 1)) :
    (List.replicate (gutter row).length space ++ caretPadding content column)[i]? =
      some (blankBelow (gutter row ++ content)[i]?) := by
  by_cases hi : i < (gutter row).length
  · have htab : (gutter row)[i] ≠ tab := by
      intro heq
      rcases mem_gutter (List.getElem_mem hi) with h | h | h
      · exact absurd (heq.symm.trans h) (by decide)
      · exact absurd (heq.symm.trans h) (by decide)
      · rw [heq] at h
        exact absurd h.1 (by decide)
    rw [List.getElem?_append_left (by rwa [List.length_replicate]),
      List.getElem?_replicate_of_lt hi, List.getElem?_append_left hi, List.getElem?_eq_getElem hi]
    simp [blankBelow, htab]
  · have hle := Nat.le_of_not_lt hi
    rw [List.getElem?_append_right (by rwa [List.length_replicate]), List.length_replicate,
      List.getElem?_append_right hle, getElem?_caretPadding (by omega)]

theorem isLine_padding (row : Nat) (content : Text) (column : Nat) :
    IsLine (List.replicate (gutter row).length space ++ caretPadding content column) := by
  rw [Text.isLine_append]
  constructor
  · intro hmem
    exact absurd (List.eq_of_mem_replicate hmem) (by decide)
  · intro hmem
    rcases mem_caretPadding hmem with h | h
    · exact absurd h (by decide)
    · exact absurd h (by decide)

end Diagnostic

namespace Text

/-- Dropping an ending keeps the bytes that are not part of it. -/
theorem getElem?_withoutEnding {t : Text} {b c : UInt8} {i : Nat} (h : t[i]? = some b)
    (hb : b ≠ c) : (withoutEnding [c] t)[i]? = some b := by
  unfold withoutEnding
  split
  · next hsuffix =>
      obtain ⟨front, rfl⟩ := List.isSuffixOf_iff_suffix.mp hsuffix
      have htake : (front ++ [c]).take ((front ++ [c]).length - [c].length) = front := by simp
      rw [htake]
      by_cases hi : i < front.length
      · rwa [List.getElem?_append_left hi] at h
      · rw [List.getElem?_append_right (Nat.le_of_not_lt hi)] at h
        have hmem := List.mem_of_getElem? h
        exact absurd (List.mem_singleton.mp hmem) hb
  · exact h

theorem IsLine.withoutEnding {t : Text} (h : IsLine t) (ending : Text) :
    IsLine (withoutEnding ending t) := by
  unfold Text.withoutEnding
  split
  · exact fun hmem => h (List.mem_of_mem_take hmem)
  · exact h

end Text

namespace SourceUnit

open Text (newline IsLine sinceBreak)
open Diagnostic (gutter blankBelow caret caretPadding space)

variable {u : SourceUnit} {n row : Nat}

theorem isLine_line (u : SourceUnit) (row : Nat) : IsLine (u.line row) := by
  by_cases hrow : 1 ≤ row ∧ row ≤ u.text.count newline + 1
  · obtain ⟨content, hcontent⟩ : ∃ content, IsRow u.text (row - 1 + 1) content :=
      exists_isRow (by omega)
    rw [Nat.sub_add_cancel hrow.1] at hcontent
    have hline : IsLine content := by
      obtain ⟨-, -, -, -, hline, -, -⟩ := hcontent
      exact hline
    rw [line_eq hcontent]
    exact hline.withoutEnding [13]
  · rw [line_of_out_of_range (by omega)]
    exact Text.isLine_nil

/-- The byte at an offset stands in its row, at its column. -/
theorem getElem?_line {b : UInt8} (h : u.text[n]? = some b) (hbreak : b ≠ newline) (hb : b ≠ 13) :
    (u.line (u.position n).1)[(u.position n).2 - 1]? = some b := by
  have hn : n ≤ u.text.length := by
    have := (List.getElem?_eq_some_iff.mp h).1
    omega
  obtain ⟨content, hcontent⟩ := exists_isRow ((List.take_sublist n u.text).count_le newline)
  have hbyte := (getElem?_of_isRow hcontent hn rfl).2 b h hbreak
  rw [position_eq hn, line_eq hcontent]
  exact Text.getElem?_withoutEnding hbyte hb

/-- Offsets, rows, columns and carets of a source belong together. -/
structure PointsAtBytes (u : SourceUnit) : Prop where
  /-- The row counts the line ends before the offset, the column the bytes since the last. -/
  position_eq : ∀ n ≤ u.text.length,
    u.position n = ((u.text.take n).count newline + 1, sinceBreak (u.text.take n) + 1)
  /-- Searching the line starts by halves finds the same row. -/
  bisect_eq : ∀ n ≤ u.text.length,
    bisect (fun i => decide (n < u.lineStarts.getD i 0)) 0 u.lineStarts.length = (u.position n).1
  ascending : ∀ m n, m < n → n ≤ u.text.length →
    Prod.Lex (· < ·) (· < ·) (u.position m) (u.position n)
  before_start : ∀ offset : Int, offset < 0 → u.position offset = u.position 0
  behind_end : ∀ offset : Int, u.text.length < offset →
    u.position offset = u.position u.text.length
  /-- There is one row more than there are line ends, and each is shown without its own and
  without one carriage return before it. -/
  line_eq : ∀ row ≤ u.text.count newline, ∃ content, IsRow u.text (row + 1) content ∧
    u.line (row + 1 : Nat) = Text.withoutEnding [13] content
  /-- A diagnostic ends with the row of its offset and the caret in the line below, behind
  blanks that copy the tabs of the row. -/
  render_eq : ∀ (message : Text) (offset : Int) (row column : Nat), 0 ≤ offset →
    u.position offset = (row, column) →
    let shown := gutter row ++ u.line row
    ∃ padding, Diagnostic.render ⟨message, some u, offset⟩ =
        message ++ "\n  at " ++ (u.location ++ ":" ++ Text.ofNat row ++ ":" ++ Text.ofNat column) ++
          newline :: shown ++ newline :: (padding ++ [caret]) ∧
      IsLine shown ∧ IsLine (padding ++ [caret]) ∧
      padding.length = (gutter row).length + (column - 1) ∧
      ∀ i < padding.length, padding[i]? = some (blankBelow shown[i]?)
  /-- The byte above the caret is the byte at the offset, if it is shown at all. -/
  byte_above_caret : ∀ (n row column : Nat) (b : UInt8), u.position n = (row, column) →
    u.text[n]? = some b → b ≠ newline → b ≠ 13 →
    (gutter row ++ u.line row)[(gutter row).length + (column - 1)]? = some b

theorem render_eq (message : Text) {offset : Int} {column : Nat} (h : 0 ≤ offset)
    (hplace : u.position offset = (row, column)) :
    Diagnostic.render ⟨message, some u, offset⟩ =
      message ++ "\n  at " ++ (u.location ++ ":" ++ Text.ofNat row ++ ":" ++ Text.ofNat column) ++
        newline :: (gutter row ++ u.line row) ++ newline ::
          (List.replicate (gutter row).length space ++ caretPadding (u.line row) column ++
            [caret]) := by
  have hoffset : ¬offset < 0 := Int.not_lt.mpr h
  unfold Diagnostic.render Diagnostic.locator Diagnostic.excerpt
  simp only [hoffset, hplace, if_false]
  simp [space, caret]

/-- Positions count line ends and bytes, lines are the rows of the text, and the caret of a
diagnostic stands below the byte at its offset. -/
theorem pointsAtBytes (u : SourceUnit) : u.PointsAtBytes where
  position_eq n hn := position_eq hn
  bisect_eq n hn := bisect_lineStarts hn
  ascending m n hlt hn := position_lt hlt hn
  before_start offset h := position_of_lt_zero h
  behind_end offset h := position_of_length_lt h
  line_eq row hrow := by
    obtain ⟨content, hcontent⟩ := exists_isRow hrow
    exact ⟨content, hcontent, SourceUnit.line_eq hcontent⟩
  render_eq message offset row column h hplace := by
    have hcaret : IsLine [caret] := by decide
    refine ⟨_, SourceUnit.render_eq message h hplace, ?_, ?_, ?_, ?_⟩
    · exact Text.isLine_append.mpr ⟨Diagnostic.isLine_gutter row, isLine_line u row⟩
    · exact Text.isLine_append.mpr ⟨Diagnostic.isLine_padding row _ column, hcaret⟩
    · rw [List.length_append, List.length_replicate, Diagnostic.length_caretPadding]
    · intro i hi
      rw [List.length_append, List.length_replicate, Diagnostic.length_caretPadding] at hi
      exact Diagnostic.getElem?_padding hi
  byte_above_caret n row column b hplace h hbreak hb := by
    have hbyte := getElem?_line h hbreak hb
    rw [hplace] at hbyte
    rw [List.getElem?_append_right (Nat.le_add_right _ _), Nat.add_sub_cancel_left]
    exact hbyte

end SourceUnit

end Splice

import Splice.Source.Unit
import Mathlib.Data.List.TakeWhile
import Mathlib.Tactic

/-!
# Rows and columns

The offsets at which lines start are kept in ascending order, one for each line end before
them.  So the starts up to an offset are those of the text before it: their number counts the
line ends there, and the last of them is where the row starts.  A search by halves finds the
same row, because the starts behind an offset are all behind the starts before it.
-/

namespace Splice

namespace Text

variable {s t : Text}

def sinceBreak (t : Text) : Nat := (t.reverse.takeWhile (· != newline)).length

theorem sinceBreak_concat_newline (t : Text) : sinceBreak (t ++ [newline]) = 0 := by
  simp [sinceBreak]

theorem sinceBreak_append (ht : newline ∉ t) : sinceBreak (s ++ t) = sinceBreak s + t.length := by
  have hall : ∀ b ∈ t.reverse, (b != newline) = true := by
    intro b hb
    rw [bne_iff_ne]
    rintro rfl
    exact ht (List.mem_reverse.mp hb)
  rw [sinceBreak, List.reverse_append, List.takeWhile_append_of_pos hall, List.length_append,
    List.length_reverse, Nat.add_comm]
  rfl

end Text

namespace SourceUnit

open Text (newline sinceBreak)

variable {u : SourceUnit} {s t : Text} {a i n : Nat}

theorem startsAfterBreaks_append (a : Nat) (s t : Text) :
    startsAfterBreaks a (s ++ t) = startsAfterBreaks a s ++ startsAfterBreaks (a + s.length) t := by
  induction s generalizing a with
  | nil => rfl
  | cons b s ih =>
      have hlength : a + 1 + s.length = a + (b :: s).length := by
        rw [List.length_cons]
        omega
      rw [List.cons_append, startsAfterBreaks, startsAfterBreaks, ih, hlength]
      split
      · rfl
      · rfl

theorem startsAfterBreaks_of_not_mem (h : newline ∉ t) (a : Nat) : startsAfterBreaks a t = [] := by
  induction t generalizing a with
  | nil => rfl
  | cons b t ih =>
      simp only [List.mem_cons, not_or] at h
      have hb : (b == newline) = false := by simpa using Ne.symm h.1
      rw [startsAfterBreaks, hb]
      exact ih h.2 (a + 1)

theorem startsAfterBreaks_newline (a : Nat) (t : Text) :
    startsAfterBreaks a (newline :: t) = (a + 1) :: startsAfterBreaks (a + 1) t := rfl

theorem length_startsAfterBreaks (a : Nat) (t : Text) :
    (startsAfterBreaks a t).length = t.count newline := by
  induction t generalizing a with
  | nil => rfl
  | cons b t ih =>
      rw [startsAfterBreaks, List.count_cons, ← ih (a + 1)]
      split
      · rfl
      · rfl

/-- Every line but the first one starts behind a line end of the text. -/
theorem bounds_of_mem_startsAfterBreaks (h : i ∈ startsAfterBreaks a t) :
    a < i ∧ i ≤ a + t.length := by
  induction t generalizing a with
  | nil => cases h
  | cons b t ih =>
      rw [startsAfterBreaks] at h
      rw [List.length_cons]
      split at h
      · rcases List.mem_cons.mp h with rfl | hmem
        · omega
        · have := ih hmem
          omega
      · have := ih h
        omega

theorem pairwise_startsAfterBreaks (a : Nat) (t : Text) :
    (startsAfterBreaks a t).Pairwise (· < ·) := by
  induction t generalizing a with
  | nil => exact .nil
  | cons b t ih =>
      rw [startsAfterBreaks]
      split
      · exact .cons (fun i hi => (bounds_of_mem_startsAfterBreaks hi).1) (ih (a + 1))
      · exact ih (a + 1)

theorem pairwise_lineStarts (u : SourceUnit) : u.lineStarts.Pairwise (· < ·) :=
  .cons (fun _ hi => (bounds_of_mem_startsAfterBreaks hi).1) (pairwise_startsAfterBreaks 0 u.text)

/-- What remains behind the last start are the bytes since the last line end. -/
theorem sinceBreak_eq (a : Nat) (t : Text) :
    a + t.length - (startsAfterBreaks a t).getLastD a = sinceBreak t := by
  induction t using List.reverseRecOn with
  | nil => simp [startsAfterBreaks, sinceBreak]
  | append_singleton t b ih =>
      rw [startsAfterBreaks_append, List.length_append, List.length_singleton]
      by_cases hb : b = newline
      · rw [hb, startsAfterBreaks_newline, Text.sinceBreak_concat_newline]
        simp [startsAfterBreaks]
        omega
      · have hmem : newline ∉ [b] := by simpa using Ne.symm hb
        have hle : (startsAfterBreaks a t).getLastD a ≤ a + t.length := by
          cases hlast : (startsAfterBreaks a t).getLast? with
          | none => simp [List.getLastD_eq_getLast?, hlast]
          | some i =>
              have := bounds_of_mem_startsAfterBreaks (List.mem_of_getLast? hlast)
              simp only [List.getLastD_eq_getLast?, hlast, Option.getD_some]
              omega
        rw [startsAfterBreaks_of_not_mem hmem, List.append_nil, Text.sinceBreak_append hmem, ← ih,
          List.length_singleton]
        omega

/-- The starts up to an offset are those of the text before it. -/
theorem takeWhile_startsAfterBreaks (h : n ≤ t.length) (a : Nat) :
    (startsAfterBreaks a t).takeWhile (· ≤ a + n) = startsAfterBreaks a (t.take n) := by
  have hbefore : ∀ i ∈ startsAfterBreaks a (t.take n), decide (i ≤ a + n) = true := by
    intro i hi
    have := bounds_of_mem_startsAfterBreaks hi
    rw [List.length_take_of_le h] at this
    exact decide_eq_true this.2
  conv_lhs => rw [← List.take_append_drop n t, startsAfterBreaks_append]
  rw [List.takeWhile_append_of_pos hbefore, List.length_take_of_le h]
  cases hrest : startsAfterBreaks (a + n) (t.drop n) with
  | nil => exact List.append_nil _
  | cons i rest =>
      have hi := (bounds_of_mem_startsAfterBreaks (hrest ▸ List.mem_cons_self)).1
      rw [List.takeWhile_cons_of_neg (by simpa using hi), List.append_nil]

/-- The starts up to an offset, the first line's included. -/
theorem takeWhile_lineStarts (h : n ≤ u.text.length) :
    u.lineStarts.takeWhile (· ≤ n) = 0 :: startsAfterBreaks 0 (u.text.take n) := by
  have htake := takeWhile_startsAfterBreaks h 0
  rw [Nat.zero_add] at htake
  rw [lineStarts, List.takeWhile_cons_of_pos (by simp), htake]

/-- The row counts the line ends before the offset, the column the bytes since the last one. -/
theorem position_eq (h : n ≤ u.text.length) :
    u.position n = ((u.text.take n).count newline + 1, sinceBreak (u.text.take n) + 1) := by
  have hclamp : u.clamp n = n := by
    rw [clamp, Int.toNat_natCast, Nat.min_eq_left h]
  have hsince := sinceBreak_eq 0 (u.text.take n)
  rw [Nat.zero_add, List.length_take_of_le h] at hsince
  rw [position, hclamp]
  rw [takeWhile_lineStarts h, List.length_cons, length_startsAfterBreaks, ← hsince,
    List.getLastD_cons]

/-- An offset outside the text stands for the nearest one of it. -/
theorem position_of_lt_zero {offset : Int} (h : offset < 0) : u.position offset = u.position 0 := by
  have hclamp : u.clamp offset = u.clamp 0 := by
    rw [clamp, clamp, Int.toNat_of_nonpos (Int.le_of_lt h), Int.toNat_zero]
  rw [position, hclamp]
  rfl

theorem position_of_length_lt {offset : Int} (h : u.text.length < offset) :
    u.position offset = u.position u.text.length := by
  have hclamp : u.clamp offset = u.clamp u.text.length := by
    rw [clamp, clamp, Int.toNat_natCast]
    omega
  rw [position, hclamp]
  rfl

/-- Further on in the text the row is greater, or the column in the same row. -/
theorem position_lt {m : Nat} (hlt : m < n) (hn : n ≤ u.text.length) :
    Prod.Lex (· < ·) (· < ·) (u.position m) (u.position n) := by
  have hsplit : u.text.take n = u.text.take m ++ (u.text.take n).drop m := by
    have htake := List.take_append_drop m (u.text.take n)
    rwa [List.take_take, Nat.min_eq_left (Nat.le_of_lt hlt), eq_comm] at htake
  have hlength : 0 < ((u.text.take n).drop m).length := by
    rw [List.length_drop, List.length_take_of_le hn]
    omega
  rw [position_eq hn, position_eq (by omega), hsplit, List.count_append, Prod.lex_def]
  by_cases hbreak : newline ∈ (u.text.take n).drop m
  · have hcount := List.count_pos_iff.mpr hbreak
    exact Or.inl (by dsimp only; omega)
  · right
    rw [List.count_eq_zero_of_not_mem hbreak, Text.sinceBreak_append hbreak]
    exact ⟨rfl, by dsimp only; omega⟩

/-! ## Lines -/

/-- The last of the starts in a text that ends with a line end, or is empty, is its length. -/
theorem drop_lineStarts {above : Text} (h : above = [] ∨ above.getLast? = some newline) :
    (0 :: startsAfterBreaks 0 above).drop (above.count newline) = [above.length] := by
  have hlast : (startsAfterBreaks 0 above).getLastD 0 = above.length := by
    rcases h with rfl | h
    · rfl
    · obtain ⟨front, rfl⟩ := List.getLast?_eq_some_iff.mp h
      rw [startsAfterBreaks_append, startsAfterBreaks_newline]
      simp [startsAfterBreaks]
  have hlength := length_startsAfterBreaks 0 above
  have hdrop := List.drop_length_sub_one (l := 0 :: startsAfterBreaks 0 above) (by simp)
  rwa [List.length_cons, Nat.add_sub_cancel, hlength, List.getLast_eq_getLastD, hlast] at hdrop

/-- The bytes of a row stand between two line ends, or at an end of the text. -/
def IsRow (t : Text) (row : Nat) (content : Text) : Prop :=
  ∃ above below, t = above ++ (content ++ below) ∧ row = above.count newline + 1 ∧
    newline ∉ content ∧ (above = [] ∨ above.getLast? = some newline) ∧
    (below = [] ∨ below.head? = some newline)

/-- There is one row more than there are line ends. -/
theorem exists_isRow {row : Nat} (h : row ≤ t.count newline) :
    ∃ content, IsRow t (row + 1) content := by
  induction row generalizing t with
  | zero =>
      have hcontent : newline ∉ t.takeWhile (· != newline) := fun hmem => by
        simpa using List.mem_takeWhile_imp hmem
      refine ⟨t.takeWhile (· != newline), [], t.dropWhile (· != newline), ?_, rfl, hcontent,
        Or.inl rfl, ?_⟩
      · rw [List.nil_append, List.takeWhile_append_dropWhile]
      · cases hdrop : t.dropWhile (· != newline) with
        | nil => exact Or.inl rfl
        | cons b rest =>
            have hnot := List.head?_dropWhile_not (· != newline) t
            right
            simpa [hdrop] using hnot
  | succ row ih =>
      obtain ⟨front, rest, rfl, hfront⟩ :=
        List.eq_append_cons_of_mem (List.count_pos_iff.mp (Nat.zero_lt_of_lt h))
      have hcount : (front ++ newline :: rest).count newline = rest.count newline + 1 := by
        simp [List.count_append, List.count_eq_zero_of_not_mem hfront]
      obtain ⟨content, above, below, rfl, hrow, hcontent, habove, hbelow⟩ :=
        ih (t := rest) (by omega)
      refine ⟨content, front ++ newline :: above, below, by simp, ?_, hcontent, Or.inr ?_, hbelow⟩
      · simp [List.count_append, List.count_eq_zero_of_not_mem hfront, hrow]
      · rcases habove with rfl | habove
        · simp
        · simp [List.getLast?_cons, habove]

/-- A row is shown without its line end and without one carriage return before it. -/
theorem line_eq {row : Nat} {content : Text} (h : IsRow u.text row content) :
    u.line row = Text.withoutEnding [13] content := by
  obtain ⟨above, below, htext, rfl, hcontent, habove, hbelow⟩ := h
  have hstarts : u.lineStarts.drop (above.count newline) =
      above.length :: startsAfterBreaks (above.length + content.length) below := by
    have hle : above.count newline ≤ (0 :: startsAfterBreaks 0 above).length := by
      rw [List.length_cons, length_startsAfterBreaks]
      omega
    rw [lineStarts, htext, startsAfterBreaks_append, startsAfterBreaks_append,
      startsAfterBreaks_of_not_mem hcontent, List.nil_append, Nat.zero_add, ← List.cons_append,
      List.drop_append_of_le_length hle, drop_lineStarts habove, List.singleton_append]
  have hrow : ((above.count newline + 1 : Nat) : Int).toNat - 1 = above.count newline := by omega
  have hdrop : u.text.drop above.length = content ++ below := by rw [htext, List.drop_left]
  unfold SourceUnit.line
  rw [if_neg (by omega), hrow, hstarts]
  rcases hbelow with rfl | hbelow
  · simp [startsAfterBreaks, hdrop]
  · obtain ⟨rest, rfl⟩ := List.head?_eq_some_iff.mp hbelow
    rw [startsAfterBreaks_newline]
    dsimp only
    rw [hdrop, show above.length + content.length + 1 - 1 - above.length = content.length by omega,
      List.take_left]

/-- An offset is as many bytes behind the start of its row as there are since the last line
end. -/
theorem getElem?_of_isRow {row : Nat} {content : Text} (h : IsRow t row content) (hn : n ≤ t.length)
    (hrow : (t.take n).count newline + 1 = row) :
    sinceBreak (t.take n) ≤ content.length ∧
      ∀ b, t[n]? = some b → b ≠ newline → content[sinceBreak (t.take n)]? = some b := by
  obtain ⟨above, below, rfl, rfl, hcontent, habove, hbelow⟩ := h
  have hstart : above.length ≤ n := by
    rcases habove with rfl | habove
    · exact Nat.zero_le n
    · obtain ⟨front, rfl⟩ := List.getLast?_eq_some_iff.mp habove
      by_contra hlt
      rw [List.length_append, List.length_singleton] at hlt
      have htake : (front ++ [newline] ++ (content ++ below)).take n = front.take n := by
        rw [List.append_assoc, List.take_append_of_le_length (by omega)]
      have hle := (List.take_sublist n front).count_le newline
      rw [htake, List.count_append, List.count_singleton_self] at hrow
      omega
  obtain ⟨k, rfl⟩ := Nat.exists_eq_add_of_le hstart
  have htake : (above ++ (content ++ below)).take (above.length + k) =
      above ++ (content ++ below).take k :=
    List.take_length_add_append k
  rw [htake, List.count_append] at hrow
  have hnone : newline ∉ (content ++ below).take k := List.count_eq_zero.mp (by omega)
  have hend : k ≤ content.length := by
    by_contra hgt
    rcases hbelow with rfl | hbelow
    · simp only [List.length_append, List.length_nil] at hn
      omega
    · obtain ⟨rest, rfl⟩ := List.head?_eq_some_iff.mp hbelow
      apply hnone
      rw [List.mem_take_iff_getElem]
      exact ⟨content.length, by simp; omega, by simp⟩
  have hsince : sinceBreak ((above ++ (content ++ below)).take (above.length + k)) = k := by
    have habove' : sinceBreak above = 0 := by
      rcases habove with rfl | habove
      · rfl
      · obtain ⟨front, rfl⟩ := List.getLast?_eq_some_iff.mp habove
        exact Text.sinceBreak_concat_newline front
    rw [htake, Text.sinceBreak_append hnone, habove', Nat.zero_add, List.length_take,
      List.length_append]
    omega
  rw [hsince]
  refine ⟨hend, fun b hb hbreak => ?_⟩
  rw [List.getElem?_append_right (by omega), Nat.add_sub_cancel_left] at hb
  rcases Nat.lt_or_eq_of_le hend with hlt | heq
  · rwa [List.getElem?_append_left hlt] at hb
  · rw [heq, List.getElem?_append_right (Nat.le_refl _), Nat.sub_self] at hb
    rcases hbelow with rfl | hbelow
    · simp at hb
    · rw [← List.head?_eq_getElem?, hbelow] at hb
      exact absurd (Option.some.inj hb).symm hbreak

/-- There is no text in rows that the unit does not have. -/
theorem line_of_out_of_range {row : Int} (h : row < 1 ∨ u.text.count newline + 1 < row) :
    u.line row = [] := by
  unfold SourceUnit.line
  split
  · rfl
  · next hrow =>
      have hlength : u.lineStarts.length ≤ row.toNat - 1 := by
        rw [lineStarts, List.length_cons, length_startsAfterBreaks]
        omega
      rw [List.drop_of_length_le hlength]

/-- The first number from `low` up to `high` that has a property, where all numbers that
have it stand behind all that do not; the interval is halved at every step. -/
def bisect (p : Nat → Bool) (low high : Nat) : Nat :=
  if low < high then
    let middle := (low + high) / 2
    if p middle then bisect p low middle else bisect p (middle + 1) high
  else low
termination_by high - low

theorem bisect_eq {p : Nat → Bool} {low high : Nat} (hlow : low ≤ n) (hhigh : n ≤ high)
    (hbelow : ∀ i < n, p i = false) (habove : ∀ i, n ≤ i → i < high → p i = true) :
    bisect p low high = n := by
  fun_induction bisect p low high with
  | case1 low high hlt middle hp ih =>
      have hmiddle : n ≤ middle := by
        by_contra hnot
        rw [hbelow middle (by omega)] at hp
        cases hp
      exact ih hlow hmiddle fun i hi hlt => habove i hi (by omega)
  | case2 low high hlt middle hp ih =>
      have hmiddle : middle < n := by
        by_contra hnot
        exact hp (habove middle (by omega) (by omega))
      exact ih hmiddle hhigh habove
  | case3 low high hge => omega

/-- The row is the number of the first start behind the offset. -/
theorem bisect_lineStarts (h : n ≤ u.text.length) :
    bisect (fun i => decide (n < u.lineStarts.getD i 0)) 0 u.lineStarts.length =
      (u.position n).1 := by
  have hrow : (u.position n).1 = (u.lineStarts.takeWhile (· ≤ n)).length := by
    rw [position_eq h, takeWhile_lineStarts h, List.length_cons, length_startsAfterBreaks]
  have hsplit := List.takeWhile_append_dropWhile (p := (· ≤ n)) (l := u.lineStarts)
  have hbefore : ∀ i ∈ u.lineStarts.takeWhile (· ≤ n), i ≤ n := fun i hi => by
    simpa using List.mem_takeWhile_imp hi
  have hbehind : ∀ i ∈ u.lineStarts.dropWhile (· ≤ n), n < i := by
    have hsorted := u.pairwise_lineStarts.sublist (List.dropWhile_sublist (p := (· ≤ n)))
    cases hdrop : u.lineStarts.dropWhile (· ≤ n) with
    | nil => simp
    | cons first rest =>
        have hfirst : n < first := by
          have hnot := List.head?_dropWhile_not (· ≤ n) u.lineStarts
          simpa [hdrop] using hnot
        rw [hdrop, List.pairwise_cons] at hsorted
        intro i hi
        rcases List.mem_cons.mp hi with rfl | hmem
        · exact hfirst
        · exact Nat.lt_trans hfirst (hsorted.1 i hmem)
  rw [hrow]
  generalize u.lineStarts.takeWhile (· ≤ n) = before at hbefore hsplit
  generalize u.lineStarts.dropWhile (· ≤ n) = behind at hbehind hsplit
  rw [← hsplit, List.length_append]
  apply bisect_eq (Nat.zero_le _) (Nat.le_add_right _ _)
  · intro i hi
    have hmem := hbefore _ (List.getElem_mem hi)
    simpa [List.getD_eq_getElem?_getD, List.getElem?_append_left hi, hi] using hmem
  · intro i hle hi
    have hi' : i - before.length < behind.length := by omega
    have hmem := hbehind _ (List.getElem_mem hi')
    simpa [List.getD_eq_getElem?_getD, List.getElem?_append_right hle, hi'] using hmem

end SourceUnit

end Splice

import Mathlib.Data.List.DropRight
import Splice.Proofs.Program.Identifiers

/-!
# The order of texts

Texts are ordered by their bytes.  Where two texts differ in a byte, what stands behind that
byte does not matter (`Precedes`), so numbers that are written with one width keep their
order within longer texts.  Without the zeros at their end the digits keep their order as
well, but for the case that one run of digits begins the other.
-/

namespace Splice.Text

variable {s t u : Text} {w m n : Nat} {b : UInt8}

theorem le_iff : le s t = true ↔ List.le s t := by
  change _ ↔ s ≤ t
  induction s generalizing t with
  | nil => simp [le]
  | cons a s ih =>
      cases t with
      | nil => simp [le]
      | cons b t =>
          rw [le, List.cons_le_cons_iff, ← ih]
          by_cases hab : a = b
          · simp [hab]
          · simp [hab]

theorem le_total (s t : Text) : le s t = true ∨ le t s = true := by
  rw [le_iff, le_iff]
  exact List.le_total s t

theorem le_trans (hst : le s t = true) (htu : le t u = true) : le s u = true := by
  rw [le_iff] at hst htu ⊢
  exact List.le_trans hst htu

theorem le_antisymm (hst : le s t = true) (hts : le t s = true) : s = t := by
  rw [le_iff] at hst hts
  exact List.le_antisymm hst hts

/-- Where the texts differ first, both have a byte, and the first text has the smaller one. -/
inductive Precedes : Text → Text → Prop
  | byte {a b : UInt8} {s t : Text} (h : a < b) : Precedes (a :: s) (b :: t)
  | rest {s t : Text} (b : UInt8) (h : Precedes s t) : Precedes (b :: s) (b :: t)

namespace Precedes

theorem append (h : Precedes s t) (x y : Text) : Precedes (s ++ x) (t ++ y) := by
  induction h with
  | byte hab => exact .byte hab
  | rest b _ ih => exact .rest b ih

theorem within (h : Precedes s t) (x : Text) : Precedes (x ++ s) (x ++ t) := by
  induction x with
  | nil => exact h
  | cons b x ih => exact .rest b ih

theorem le (h : Precedes s t) : Text.le s t = true := by
  induction h with
  | byte hab =>
      have hne : _ ≠ _ := UInt8.ne_of_lt hab
      simpa [Text.le, hne] using hab
  | rest b _ ih => simpa [Text.le] using ih

theorem not_le (h : Precedes s t) : Text.le t s = false := by
  induction h with
  | byte hab =>
      have hne : _ ≠ _ := (UInt8.ne_of_lt hab).symm
      simpa [Text.le, hne] using UInt8.le_of_lt hab
  | rest b _ ih => simpa [Text.le] using ih

theorem ne (h : Precedes s t) : s ≠ t := by
  rintro rfl
  have hle := h.le
  rw [h.not_le] at hle
  cases hle

/-- No byte of a number is smaller than a zero, so texts do not differ first in a zero of the
later one. -/
theorem of_zero (h : Precedes s (t ++ [48])) (hs : ∀ b ∈ s, 48 ≤ b) : Precedes s t := by
  induction t generalizing s with
  | nil =>
      cases h with
      | byte hlt => exact absurd hlt (UInt8.not_lt.mpr (hs _ List.mem_cons_self))
      | rest _ h => cases h
  | cons b t ih =>
      cases h with
      | byte hlt => exact .byte hlt
      | rest _ h => exact .rest b (ih h fun c hc => hs c (List.mem_cons_of_mem _ hc))

end Precedes

def withoutZeros (t : Text) : Text := t.rdropWhile (· == 48)

theorem withoutZeros_concat (t : Text) (b : UInt8) :
    withoutZeros (t ++ [b]) = if b = 48 then withoutZeros t else t ++ [b] := by
  simp only [withoutZeros, List.rdropWhile_concat, beq_iff_eq]

theorem Precedes.withoutZeros (h : Precedes s t) (hs : ∀ b ∈ s, 48 ≤ b) :
    Precedes s (withoutZeros t) := by
  induction t using List.reverseRecOn with
  | nil => cases h
  | append_singleton t b ih =>
      rw [withoutZeros_concat]
      split
      · next hb =>
          rw [hb] at h
          exact ih (h.of_zero hs)
      · exact h

def digits : Nat → Nat → Text
  | 0, _ => []
  | w + 1, n => digits w (n / 10) ++ [48 + (n % 10).toUInt8]

theorem digit_lt (hmn : m < n) (hn : n < 10) : 48 + m.toUInt8 < 48 + n.toUInt8 := by
  rw [UInt8.lt_iff_toNat_lt]
  simp only [UInt8.toNat_add, Nat.toUInt8_eq, UInt8.toNat_ofNat', UInt8.reduceToNat]
  omega

theorem digit_eq_zero_iff (hn : n < 10) : 48 + n.toUInt8 = 48 ↔ n = 0 := by
  rw [← UInt8.toNat_inj]
  simp only [UInt8.toNat_add, Nat.toUInt8_eq, UInt8.toNat_ofNat', UInt8.reduceToNat]
  omega

theorem bounds_of_mem_digits (hb : b ∈ digits w n) : 48 ≤ b ∧ b ≤ 57 := by
  induction w generalizing n with
  | zero => cases hb
  | succ w ih =>
      rw [digits, List.mem_append, List.mem_singleton] at hb
      rcases hb with hb | rfl
      · exact ih hb
      · simp only [UInt8.le_iff_toNat_le, UInt8.toNat_add, Nat.toUInt8_eq, UInt8.toNat_ofNat',
          UInt8.reduceToNat]
        omega

/-- Numbers that are written with one width keep their order. -/
theorem precedes_digits (hmn : m < n) (hn : n < 10 ^ w) : Precedes (digits w m) (digits w n) := by
  induction w generalizing m n with
  | zero => omega
  | succ w ih =>
      rw [digits, digits]
      rcases Nat.lt_or_ge (m / 10) (n / 10) with hlt | hge
      · exact (ih hlt (by omega)).append _ _
      · have hsame : m / 10 = n / 10 := by omega
        rw [hsame]
        exact (Precedes.byte (digit_lt (by omega) (by omega))).within _

theorem ofNat_of_lt (hn : n < 10) : ofNat n = [48 + n.toUInt8] := by
  rw [ofNat_eq_map, Nat.toDigits_of_lt_base hn]
  interval_cases n <;> rfl

theorem ofNat_of_le (hn : 10 ≤ n) : ofNat n = ofNat (n / 10) ++ [48 + (n % 10).toUInt8] := by
  have hlast : n % 10 < 10 := Nat.mod_lt _ (by decide)
  rw [ofNat_eq_map, Nat.toDigits_of_base_le (by decide) hn, List.map_append, ← ofNat_eq_map,
    ← ofNat_of_lt hlast, ofNat_eq_map (n % 10), Nat.toDigits_of_lt_base hlast]

/-- A number that is not too long is padded to its last digits. -/
theorem padLeft_ofNat (hn : n < 10 ^ (w + 1)) :
    padLeft 48 (w + 1) (ofNat n) = digits (w + 1) n := by
  induction w generalizing n with
  | zero =>
      have hn' : n < 10 := hn
      rw [ofNat_of_lt hn', digits, Nat.mod_eq_of_lt hn']
      rfl
  | succ w ih =>
      rw [digits, ← ih (by omega)]
      rcases Nat.lt_or_ge n 10 with hlt | hge
      · rw [Nat.div_eq_of_lt hlt, Nat.mod_eq_of_lt hlt, ofNat_of_lt hlt, ofNat_of_lt (by decide)]
        simp only [padLeft, List.length_singleton, Nat.add_sub_cancel]
        rw [List.append_left_inj]
        exact List.replicate_succ'
      · rw [ofNat_of_le hge, padLeft, padLeft, List.length_append, List.length_singleton,
          Nat.add_sub_add_right, List.append_assoc]

/-- Whether a number is what is left of another one when some of its digits are put to zero. -/
def IsCut (w m n : Nat) : Prop := ∃ k ≤ w, m = n - n % 10 ^ k

theorem isCut_succ_iff (hmn : m < n) :
    IsCut (w + 1) m n ↔ m % 10 = 0 ∧ IsCut w (m / 10) (n / 10) := by
  have hmod : ∀ k, n % 10 ^ (k + 1) = n % 10 + 10 * (n / 10 % 10 ^ k) := by
    intro k
    rw [Nat.pow_succ', Nat.mod_mul]
  have hle : ∀ k, n / 10 % 10 ^ k ≤ n / 10 := fun k => Nat.mod_le _ _
  constructor
  · rintro ⟨k, hk, hcut⟩
    cases k with
    | zero => omega
    | succ k =>
        rw [hmod] at hcut
        have := hle k
        exact ⟨by omega, k, by omega, by omega⟩
  · rintro ⟨hlast, k, hk, hcut⟩
    refine ⟨k + 1, by omega, ?_⟩
    rw [hmod]
    have := hle k
    omega

theorem exists_digits_eq (w n : Nat) : ∃ r, digits w n = withoutZeros (digits w n) ++ r := by
  obtain ⟨r, hr⟩ := List.rdropWhile_prefix (· == 48) (digits w n)
  exact ⟨r, hr.symm⟩

theorem withoutZeros_digits_succ (w n : Nat) :
    withoutZeros (digits (w + 1) n) =
      if n % 10 = 0 then withoutZeros (digits w (n / 10)) else digits (w + 1) n := by
  have hlast : n % 10 < 10 := Nat.mod_lt _ (by decide)
  simp only [digits, withoutZeros_concat, digit_eq_zero_iff hlast]

theorem exists_withoutZeros_digits_succ (w n : Nat) :
    ∃ r, withoutZeros (digits (w + 1) n) = withoutZeros (digits w (n / 10)) ++ r := by
  rw [withoutZeros_digits_succ]
  split
  · exact ⟨[], (List.append_nil _).symm⟩
  · obtain ⟨r, hr⟩ := exists_digits_eq w (n / 10)
    refine ⟨r ++ [48 + (n % 10).toUInt8], ?_⟩
    rw [← List.append_assoc, ← hr, digits]

/-- Without the zeros at their end, a number that is cut from another one begins it. -/
theorem exists_withoutZeros_of_isCut (hmn : m < n) (hn : n < 10 ^ w) (h : IsCut w m n) :
    ∃ b r, withoutZeros (digits w n) = withoutZeros (digits w m) ++ b :: r := by
  induction w generalizing m n with
  | zero => omega
  | succ w ih =>
      obtain ⟨hlast, hcut⟩ := (isCut_succ_iff hmn).mp h
      rw [withoutZeros_digits_succ w m, if_pos hlast]
      rcases Nat.lt_or_ge (m / 10) (n / 10) with hlt | hge
      · obtain ⟨b, r, hbegin⟩ := ih hlt (by omega) hcut
        obtain ⟨r', hmore⟩ := exists_withoutZeros_digits_succ w n
        exact ⟨b, r ++ r', by rw [hmore, hbegin, List.append_assoc, List.cons_append]⟩
      · have hsame : m / 10 = n / 10 := by omega
        obtain ⟨r, hr⟩ := exists_digits_eq w (n / 10)
        obtain ⟨b, r', hbegin⟩ : ∃ b r', r ++ [48 + (n % 10).toUInt8] = b :: r' :=
          List.exists_cons_of_ne_nil (by simp)
        refine ⟨b, r', ?_⟩
        rw [withoutZeros_digits_succ w n, if_neg (by omega), digits, hsame, ← hbegin,
          ← List.append_assoc, ← hr]

/-- All other numbers keep their order without the zeros at their end. -/
theorem precedes_withoutZeros (hmn : m < n) (hn : n < 10 ^ w) (h : ¬IsCut w m n) :
    Precedes (withoutZeros (digits w m)) (withoutZeros (digits w n)) := by
  induction w generalizing m n with
  | zero => omega
  | succ w ih =>
      rw [isCut_succ_iff hmn] at h
      rw [withoutZeros_digits_succ w m]
      split
      · next hlast =>
          have hcut : ¬IsCut w (m / 10) (n / 10) := fun hcut => h ⟨hlast, hcut⟩
          have hlt : m / 10 < n / 10 := by
            rcases Nat.lt_or_ge (m / 10) (n / 10) with hlt | hge
            · exact hlt
            · exact absurd ⟨0, Nat.zero_le _, by omega⟩ hcut
          obtain ⟨r, hmore⟩ := exists_withoutZeros_digits_succ w n
          have happend := (ih hlt (by omega) hcut).append [] r
          rwa [List.append_nil, ← hmore] at happend
      · exact (precedes_digits hmn hn).withoutZeros fun b hb => (bounds_of_mem_digits hb).1

end Splice.Text

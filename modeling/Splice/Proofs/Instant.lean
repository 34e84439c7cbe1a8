import Splice.Instant
import Splice.Proofs.Text.Order

/-!
# The order of written moments

The parts of a date and of a time of day are written with fixed widths, the greatest first,
and the calendar goes up with the days.  So a moment is written before every moment of a
later second.  Within one second the digits of the fractions decide, and then the letter
behind them: a fraction that begins another one is written after it.
-/

namespace Splice.Instant

namespace Date

def yearStart (year : Nat) : Nat := 365 * year + year / 4 - year / 100

def yearOfEra (day : Nat) : Nat := (day - day / 1460 + day / 36524 - day / 146096) / 365

theorem yearOfEra_mono {a b : Nat} (h : a ≤ b) : yearOfEra a ≤ yearOfEra b := by
  induction b, h using Nat.le_induction with
  | base => exact Nat.le_refl _
  | succ b _ ih =>
      apply ih.trans
      unfold yearOfEra
      omega

set_option maxRecDepth 10000 in
theorem yearOfEra_yearStart :
    ∀ year < 400, yearOfEra (yearStart year) = year ∧
      (year ≠ 0 → yearOfEra (yearStart year - 1) = year - 1) := by
  decide +kernel

theorem yearOfEra_lt {day : Nat} (h : day < 146097) : yearOfEra day < 400 := by
  have hlast : yearOfEra 146096 = 399 := by decide
  have hmono := yearOfEra_mono (show day ≤ 146096 by omega)
  omega

theorem yearStart_le {day : Nat} (h : day < 146097) : yearStart (yearOfEra day) ≤ day := by
  by_contra hlt
  obtain ⟨hstart, hbefore⟩ := yearOfEra_yearStart _ (yearOfEra_lt h)
  have hzero : yearOfEra day ≠ 0 := by
    intro hzero
    rw [hzero] at hlt
    exact hlt (Nat.zero_le _)
  have hmono := yearOfEra_mono (show day ≤ yearStart (yearOfEra day) - 1 by omega)
  rw [hbefore hzero] at hmono
  omega

theorem sub_yearStart_le {day : Nat} (h : day < 146097) :
    day - yearStart (yearOfEra day) ≤ 365 := by
  have hyear := yearOfEra_lt h
  rcases Nat.lt_or_ge (yearOfEra day + 1) 400 with hnext | hlast
  · have hbelow : day < yearStart (yearOfEra day + 1) := by
      by_contra hge
      have hmono := yearOfEra_mono (Nat.le_of_not_lt hge)
      rw [(yearOfEra_yearStart _ hnext).1] at hmono
      omega
    unfold yearStart at *
    omega
  · have hyear' : yearOfEra day = 399 := by omega
    rw [hyear', yearStart]
    omega

/-! ## Days of the calendar

Years are counted from March on, and days within them from 0 on. -/

def era (days : Int) : Int := (days + epochShift) / daysPerEra

def dayOfEra (days : Int) : Nat := ((days + epochShift) % daysPerEra).toNat

def marchYear (days : Int) : Int := yearOfEra (dayOfEra days) + era days * 400

def dayOfMarchYear (days : Int) : Nat :=
  dayOfEra days - yearStart (yearOfEra (dayOfEra days))

/-- The month of a day, 0 for March. -/
def marchMonth (day : Nat) : Nat := (5 * day + 2) / 153

theorem dayOfEra_lt (days : Int) : dayOfEra days < 146097 := by
  unfold dayOfEra daysPerEra
  omega

theorem dayOfMarchYear_le (days : Int) : dayOfMarchYear days ≤ 365 :=
  sub_yearStart_le (dayOfEra_lt days)

theorem marchYear_lt_or {a b : Int} (h : a < b) :
    marchYear a < marchYear b ∨
      marchYear a = marchYear b ∧ dayOfMarchYear a < dayOfMarchYear b := by
  have ha := yearOfEra_lt (dayOfEra_lt a)
  have hb := yearOfEra_lt (dayOfEra_lt b)
  have hstart := yearStart_le (dayOfEra_lt a)
  have hera : era a < era b ∨ era a = era b ∧ dayOfEra a < dayOfEra b := by
    unfold era dayOfEra daysPerEra
    omega
  unfold marchYear dayOfMarchYear
  rcases hera with hlt | ⟨hsame, hday⟩
  · left
    omega
  · rw [hsame]
    rcases Nat.lt_or_ge (yearOfEra (dayOfEra a)) (yearOfEra (dayOfEra b)) with hyear | hyear
    · left
      omega
    · have heq : yearOfEra (dayOfEra a) = yearOfEra (dayOfEra b) :=
        Nat.le_antisymm (yearOfEra_mono (Nat.le_of_lt hday)) hyear
      rw [heq] at hstart ⊢
      right
      omega

theorem ofDays_eq (days : Int) :
    12 * (ofDays days).year + (ofDays days).month =
        12 * marchYear days + marchMonth (dayOfMarchYear days) + 3 ∧
      1 ≤ (ofDays days).month ∧ (ofDays days).month ≤ 12 ∧
      (ofDays days).day =
        dayOfMarchYear days - (153 * marchMonth (dayOfMarchYear days) + 2) / 5 + 1 := by
  have hlast : marchMonth (dayOfMarchYear days) ≤ 11 := by
    have hday := dayOfMarchYear_le days
    unfold marchMonth
    omega
  have hyear : (ofDays days).year = marchYear days +
      if (ofDays days).month ≤ 2 then 1 else 0 := rfl
  have hmonth : (ofDays days).month =
      if marchMonth (dayOfMarchYear days) < 10 then marchMonth (dayOfMarchYear days) + 3
      else marchMonth (dayOfMarchYear days) - 9 := rfl
  refine ⟨?_, ?_, ?_, rfl⟩
  · rw [hyear]
    split <;> split at hmonth <;> omega
  · split at hmonth <;> omega
  · split at hmonth <;> omega

theorem day_ofDays_le (days : Int) : (ofDays days).day ≤ 31 := by
  have hday := (ofDays_eq days).2.2.2
  unfold marchMonth at hday
  omega

/-- The date goes up with the days: its year, or else its month, or else its day. -/
theorem ofDays_lt {a b : Int} (h : a < b) :
    (ofDays a).year < (ofDays b).year ∨ (ofDays a).year = (ofDays b).year ∧
      ((ofDays a).month < (ofDays b).month ∨ (ofDays a).month = (ofDays b).month ∧
        (ofDays a).day < (ofDays b).day) := by
  obtain ⟨hindex, hfirst, hlast, hday⟩ := ofDays_eq a
  obtain ⟨hindex', hfirst', hlast', hday'⟩ := ofDays_eq b
  have hmonth : marchMonth (dayOfMarchYear a) ≤ 11 := by
    have hdays := dayOfMarchYear_le a
    unfold marchMonth
    omega
  rcases marchYear_lt_or h with hyear | ⟨hyear, hdays⟩
  · omega
  · have hmonths : marchMonth (dayOfMarchYear a) ≤ marchMonth (dayOfMarchYear b) := by
      unfold marchMonth
      omega
    rcases Nat.lt_or_eq_of_le hmonths with hlt | hsame
    · omega
    · have hstart : (153 * marchMonth (dayOfMarchYear b) + 2) / 5 ≤ dayOfMarchYear a := by
        rw [← hsame, marchMonth]
        omega
      rw [hsame] at hindex hday
      omega

end Date

variable {t u : Instant} {m n w : Nat} {x y : Text}

def second (t : Instant) : Int := t.nanoseconds / nanosPerSecond

def fraction (t : Instant) : Nat := (t.nanoseconds % nanosPerSecond).toNat

def date (second : Int) : Date := Date.ofDays (second / secondsPerDay)

def secondOfDay (second : Int) : Nat := (second % secondsPerDay).toNat

/-- A moment of the years 0000 to 9999. -/
def HasPlainYear (t : Instant) : Prop := 0 ≤ (date t.second).year ∧ (date t.second).year ≤ 9999

instance (t : Instant) : Decidable t.HasPlainYear := inferInstanceAs (Decidable (_ ∧ _))

theorem hasPlainYear_iff : t.HasPlainYear ↔ t.unreadable? = none := by
  change _ ↔ (if (date t.second).year < 0 then _
    else if 9999 < (date t.second).year then _ else none) = none
  unfold HasPlainYear
  split
  · simp only [reduceCtorEq, iff_false]
    omega
  · split
    · simp only [reduceCtorEq, iff_false]
      omega
    · simp only [iff_true]
      omega

def secondText (second : Int) : Text :=
  Text.digits 4 (date second).year.toNat ++ ("-" ++ (Text.digits 2 (date second).month ++
    ("-" ++ (Text.digits 2 (date second).day ++
      ("T" ++ (Text.digits 2 (secondOfDay second / 3600) ++
        (":" ++ (Text.digits 2 (secondOfDay second / 60 % 60) ++
          (":" ++ Text.digits 2 (secondOfDay second % 60))))))))))

def fractionText (nanos : Nat) : Text :=
  (if nanos = 0 then [] else "." ++ fractionDigits nanos : Text) ++ "Z"

theorem text_eq (h : t.HasPlainYear) :
    t.text = secondText t.second ++ fractionText t.fraction := by
  obtain ⟨hnonneg, hle⟩ := h
  obtain ⟨-, -, hmonth, -⟩ := Date.ofDays_eq (t.second / secondsPerDay)
  have hday := Date.day_ofDays_le (t.second / secondsPerDay)
  have hsecond : secondOfDay t.second < 86400 := by
    unfold secondOfDay secondsPerDay
    omega
  have hyear : yearText (date t.second).year = Text.digits 4 (date t.second).year.toNat := by
    rw [yearText, if_neg (by omega), List.nil_append, padded,
      show (date t.second).year.natAbs = (date t.second).year.toNat by omega]
    exact Text.padLeft_ofNat (by omega)
  have htwo : ∀ n < 100, padded 2 n = Text.digits 2 n := fun n hn => Text.padLeft_ofNat hn
  have htext : t.text =
      (yearText (date t.second).year ++ "-" ++ padded 2 (date t.second).month ++
        "-" ++ padded 2 (date t.second).day ++ "T" ++ padded 2 (secondOfDay t.second / 3600) ++
        ":" ++ padded 2 (secondOfDay t.second / 60 % 60) ++ ":" ++
        padded 2 (secondOfDay t.second % 60) ++
        (if t.fraction == 0 then [] else "." ++ fractionDigits t.fraction : Text) ++ "Z" : Text) :=
    rfl
  rw [htext, hyear, htwo (date t.second).month (by unfold date; omega),
    htwo (date t.second).day (by unfold date; omega), htwo _ (by omega),
    htwo (secondOfDay t.second / 60 % 60) (by omega), htwo (secondOfDay t.second % 60) (by omega)]
  simp only [secondText, fractionText, List.append_assoc, beq_iff_eq]

theorem precedes_field (hn : n < 10 ^ w) (h : m < n ∨ m = n ∧ Text.Precedes x y) :
    Text.Precedes (Text.digits w m ++ x) (Text.digits w n ++ y) := by
  rcases h with hlt | ⟨rfl, hxy⟩
  · exact (Text.precedes_digits hlt hn).append x y
  · exact hxy.within _

/-- A second is written before every later one. -/
theorem precedes_secondText {a b : Int} (h : a < b) (hyear : 0 ≤ (date a).year)
    (hyear' : (date b).year ≤ 9999) : Text.Precedes (secondText a) (secondText b) := by
  obtain ⟨-, -, hmonth, -⟩ := Date.ofDays_eq (b / secondsPerDay)
  have hday := Date.day_ofDays_le (b / secondsPerDay)
  have hsecond : secondOfDay b < 86400 := by
    unfold secondOfDay secondsPerDay
    omega
  have hclock : secondOfDay a < secondOfDay b →
      Text.Precedes (Text.digits 2 (secondOfDay a / 3600) ++
        (":" ++ (Text.digits 2 (secondOfDay a / 60 % 60) ++
          (":" ++ Text.digits 2 (secondOfDay a % 60)))))
        (Text.digits 2 (secondOfDay b / 3600) ++
        (":" ++ (Text.digits 2 (secondOfDay b / 60 % 60) ++
          (":" ++ Text.digits 2 (secondOfDay b % 60))))) := by
    intro hlt
    apply precedes_field (by omega)
    rcases Nat.lt_or_ge (secondOfDay a / 3600) (secondOfDay b / 3600) with hhour | hhour
    · exact Or.inl hhour
    · refine Or.inr ⟨by omega, .within (precedes_field (by omega) ?_) _⟩
      rcases Nat.lt_or_ge (secondOfDay a / 60 % 60) (secondOfDay b / 60 % 60) with hmin | hmin
      · exact Or.inl hmin
      · exact Or.inr ⟨by omega, .within (Text.precedes_digits (by omega) (by omega)) _⟩
  have hdays : a / secondsPerDay < b / secondsPerDay ∨
      a / secondsPerDay = b / secondsPerDay ∧ secondOfDay a < secondOfDay b := by
    unfold secondOfDay secondsPerDay
    omega
  rcases hdays with hdays | ⟨hdays, hlt⟩
  · apply precedes_field (by omega)
    rcases Date.ofDays_lt hdays with hlt | ⟨hsame, hrest⟩
    · left
      unfold date at *
      omega
    · refine Or.inr ⟨congrArg Int.toNat hsame, .within (precedes_field ?_ ?_) _⟩
      · unfold date
        omega
      · refine hrest.imp_right fun hmonths => ⟨hmonths.1, .within (precedes_field ?_ ?_) _⟩
        · unfold date
          omega
        · exact Or.inl hmonths.2
  · have hdate : date a = date b := congrArg Date.ofDays hdays
    rw [secondText, hdate]
    exact ((((((hclock hlt).within _).within _).within _).within _).within _).within _

theorem fractionDigits_eq (hn : n < 10 ^ 9) :
    fractionDigits n = Text.withoutZeros (Text.digits 9 n) :=
  congrArg Text.withoutZeros (Text.padLeft_ofNat hn)

theorem fractionText_of_ne_zero (hn : n < 10 ^ 9) (hzero : n ≠ 0) :
    fractionText n = "." ++ (Text.withoutZeros (Text.digits 9 n) ++ "Z") := by
  rw [fractionText, if_neg hzero, fractionDigits_eq hn, List.append_assoc]

theorem precedes_fractionText (hmn : m < n) (hn : n < 10 ^ 9) (h : ¬Text.IsCut 9 m n) :
    Text.Precedes (fractionText m) (fractionText n) := by
  have hzero : m ≠ 0 := by
    rintro rfl
    exact h ⟨9, Nat.le_refl _, by rw [Nat.mod_eq_of_lt hn, Nat.sub_self]⟩
  rw [fractionText_of_ne_zero (by omega) hzero, fractionText_of_ne_zero hn (by omega)]
  exact ((Text.precedes_withoutZeros hmn hn h).append _ _).within _

/-- The letter behind a fraction comes after the point and all digits. -/
theorem precedes_fractionText_of_isCut (hmn : m < n) (hn : n < 10 ^ 9) (h : Text.IsCut 9 m n) :
    Text.Precedes (fractionText n) (fractionText m) := by
  rw [fractionText_of_ne_zero hn (by omega)]
  by_cases hzero : m = 0
  · rw [fractionText, if_pos hzero]
    exact .byte (by decide)
  · obtain ⟨b, r, hbegin⟩ := Text.exists_withoutZeros_of_isCut hmn hn h
    have hdigit : b ≤ 57 := by
      obtain ⟨r', hdigits⟩ := Text.exists_digits_eq 9 n
      refine (Text.bounds_of_mem_digits (w := 9) (n := n) ?_).2
      rw [hdigits, hbegin]
      simp
    rw [fractionText_of_ne_zero (by omega) hzero, hbegin, List.append_assoc]
    refine .within (.within (.byte ?_) _) _
    exact UInt8.lt_of_le_of_lt hdigit (by decide)

theorem fraction_lt (t : Instant) : t.fraction < 10 ^ 9 := by
  unfold fraction nanosPerSecond
  omega

/-- A moment abridges another one if it is what is left of it when its second is cut behind
some of its digits. -/
def Abridges (t u : Instant) : Prop :=
  t ≠ u ∧ ∃ k ≤ 9, t.nanoseconds = u.nanoseconds - u.nanoseconds % 10 ^ k

instance (t u : Instant) : Decidable (t.Abridges u) :=
  decidable_of_iff (t ≠ u ∧ ∃ k ∈ List.range 10,
      t.nanoseconds = u.nanoseconds - u.nanoseconds % 10 ^ k) <| by
    simp only [Abridges, List.mem_range, Nat.lt_succ_iff]

theorem abridges_iff (h : t.nanoseconds < u.nanoseconds) :
    t.Abridges u ↔ t.second = u.second ∧ Text.IsCut 9 t.fraction u.fraction := by
  have hne : t ≠ u := by
    rintro rfl
    exact absurd h (Int.lt_irrefl _)
  have hmod : ∀ k ≤ 9, u.nanoseconds % 10 ^ k = (u.fraction % 10 ^ k : Nat) := by
    intro k hk
    have hdvd : (10 : Int) ^ k ∣ nanosPerSecond := pow_dvd_pow 10 hk
    have hcast : (u.fraction : Int) = u.nanoseconds % nanosPerSecond := by
      unfold fraction nanosPerSecond
      omega
    rw [Int.natCast_mod, hcast, Nat.cast_pow, Nat.cast_ofNat, Int.emod_emod_of_dvd _ hdvd]
  have hle : ∀ k, u.fraction % 10 ^ k ≤ u.fraction := fun k => Nat.mod_le _ _
  have hparts : ∀ t : Instant, t.nanoseconds = t.second * 1000000000 + t.fraction ∧
      (t.fraction : Int) < 1000000000 := by
    intro t
    unfold second fraction nanosPerSecond
    omega
  have htime := hparts t
  have htime' := hparts u
  rw [Abridges, and_iff_right hne]
  constructor
  · rintro ⟨k, hk, hcut⟩
    rw [hmod k hk] at hcut
    have := hle k
    exact ⟨by omega, k, hk, by omega⟩
  · rintro ⟨hsecond, k, hk, hcut⟩
    refine ⟨k, hk, ?_⟩
    rw [hmod k hk]
    have := hle k
    omega

/-- Of two moments that are neither before the year 0000 nor after 9999, the later one is
written after the earlier one, unless the earlier one abridges it. -/
theorem precedes_text (ht : t.HasPlainYear) (hu : u.HasPlainYear)
    (h : t.nanoseconds < u.nanoseconds) :
    (¬t.Abridges u → Text.Precedes t.text u.text) ∧
      (t.Abridges u → Text.Precedes u.text t.text) := by
  rw [text_eq ht, text_eq hu, abridges_iff h]
  have hparts : t.second < u.second ∨ t.second = u.second ∧ t.fraction < u.fraction := by
    unfold second fraction nanosPerSecond
    omega
  rcases hparts with hsecond | ⟨hsecond, hfraction⟩
  · refine ⟨fun _ => ?_, fun habridges => ?_⟩
    · exact (precedes_secondText hsecond ht.1 hu.2).append _ _
    · exact absurd habridges.1 (Int.ne_of_lt hsecond)
  · rw [hsecond, and_iff_right rfl]
    exact ⟨fun hcut => (precedes_fractionText hfraction u.fraction_lt hcut).within _,
      fun hcut => (precedes_fractionText_of_isCut hfraction u.fraction_lt hcut).within _⟩

/-- Exactly the moments that abridge a later one are written after it. -/
theorem le_text_iff (ht : t.HasPlainYear) (hu : u.HasPlainYear)
    (h : t.nanoseconds < u.nanoseconds) : Text.le u.text t.text = true ↔ t.Abridges u := by
  obtain ⟨hbefore, hafter⟩ := precedes_text ht hu h
  constructor
  · intro hle
    by_contra hkeeps
    rw [(hbefore hkeeps).not_le] at hle
    cases hle
  · exact fun habridges => (hafter habridges).le

/-- Different moments are written differently. -/
theorem text_ne (ht : t.HasPlainYear) (hu : u.HasPlainYear)
    (h : t.nanoseconds < u.nanoseconds) : t.text ≠ u.text := by
  obtain ⟨hbefore, hafter⟩ := precedes_text ht hu h
  by_cases habridges : t.Abridges u
  · exact (hafter habridges).ne.symm
  · exact (hbefore habridges).ne

end Splice.Instant

import Splice.Text.Character
import Mathlib.Tactic

/-!
# The bytes of characters

The characters of a text spell it, and a byte below `0x80` is always a character of
its own.  So a text made of the word characters of some text holds no ASCII byte but
letters, digits and underscores, and trimming a text takes bytes from its ends only.
-/

namespace Splice.Text

theorem le_of_isTail {c : UInt8} (h : isTail c = true) : 0x80 ≤ c := by
  simp only [isTail, Bool.and_eq_true, decide_eq_true_eq] at h
  exact h.1

theorem le_of_startsTwo {b c : UInt8} (h : (0xC2 ≤ b && b ≤ 0xDF && isTail c) = true) :
    0x80 ≤ b ∧ 0x80 ≤ c := by
  simp only [Bool.and_eq_true, decide_eq_true_eq] at h
  exact ⟨by grind, le_of_isTail h.2⟩

theorem le_of_startsThree {b c : UInt8} (h : startsThree b c = true) :
    0x80 ≤ b ∧ 0x80 ≤ c := by
  simp only [isTail, startsThree, Bool.and_eq_true, Bool.or_eq_true, decide_eq_true_eq,
    beq_iff_eq] at h
  grind

theorem le_of_startsFour {b c : UInt8} (h : startsFour b c = true) :
    0x80 ≤ b ∧ 0x80 ≤ c := by
  simp only [isTail, startsFour, Bool.and_eq_true, Bool.or_eq_true, decide_eq_true_eq,
    beq_iff_eq] at h
  grind

/-- A character at the head of a text is an ASCII byte, or made of bytes above. -/
def IsHead (b : UInt8) (rest : Text) (g : Glyph) : Prop :=
  (b < 0x80 ∧ g = ⟨b.toNat, [b]⟩) ∨
    (0x80 ≤ b ∧ ∃ more, g.bytes = b :: more ∧ more <+: rest ∧ ∀ c ∈ more, 0x80 ≤ c)

theorem isHead_shortGlyph (b : UInt8) (rest : Text) : IsHead b rest (shortGlyph b) := by
  unfold shortGlyph
  by_cases hb : b < 0x80
  · exact Or.inl ⟨hb, by simp [hb]⟩
  · exact Or.inr ⟨UInt8.not_lt.mp hb, [], by simp [hb]⟩

theorem isHead_long {b : UInt8} {more rest : Text} (point : Nat) (hb : 0x80 ≤ b)
    (hmore : ∀ c ∈ more, 0x80 ≤ c) (hrest : more <+: rest) :
    IsHead b rest ⟨point, b :: more⟩ :=
  Or.inr ⟨hb, more, rfl, hrest, hmore⟩

theorem isHead_headGlyph (b : UInt8) (rest : Text) : IsHead b rest (headGlyph b rest) := by
  have htwo : ∀ {c more} point, (0xC2 ≤ b && b ≤ 0xDF && isTail c) = true →
      IsHead b (c :: more) ⟨point, [b, c]⟩ := by
    intro c more point h
    have hle := le_of_startsTwo h
    exact isHead_long point hle.1 (by simp [hle.2]) (by simp)
  have hthree : ∀ {c d more} point, (startsThree b c && isTail d) = true →
      IsHead b (c :: d :: more) ⟨point, [b, c, d]⟩ := by
    intro c d more point h
    rw [Bool.and_eq_true] at h
    have hle := le_of_startsThree h.1
    exact isHead_long point hle.1 (by simp [hle.2, le_of_isTail h.2]) (by simp)
  unfold headGlyph
  split
  · split
    · next h => exact htwo _ h
    · split
      · next h => exact hthree _ h
      · split
        · next h =>
            rw [Bool.and_eq_true, Bool.and_eq_true] at h
            have hle := le_of_startsFour h.1.1
            exact isHead_long _ hle.1
              (by simp [hle.2, le_of_isTail h.1.2, le_of_isTail h.2]) (by simp)
        · exact isHead_shortGlyph b _
  · split
    · next h => exact htwo _ h
    · split
      · next h => exact hthree _ h
      · exact isHead_shortGlyph b _
  · split
    · next h => exact htwo _ h
    · exact isHead_shortGlyph b _
  · exact isHead_shortGlyph b _

@[simp] theorem ofGlyphs_append (gs hs : List Glyph) :
    ofGlyphs (gs ++ hs) = ofGlyphs gs ++ ofGlyphs hs := by
  simp [ofGlyphs]

theorem ofGlyphs_glyphsFrom (skip : Nat) (t : Text) :
    ofGlyphs (glyphsFrom skip t) = t.drop skip := by
  induction t generalizing skip with
  | nil => simp [glyphsFrom, ofGlyphs]
  | cons b rest ih =>
      cases skip with
      | succ skip =>
          rw [glyphsFrom, ih, List.drop_succ_cons]
      | zero =>
          have hcons : ofGlyphs (glyphsFrom 0 (b :: rest)) =
              (headGlyph b rest).bytes ++
                rest.drop ((headGlyph b rest).bytes.length - 1) := by
            rw [← ih]
            rfl
          rw [hcons, List.drop_zero]
          obtain ⟨-, hg⟩ | ⟨-, more, hbytes, ⟨tail, rfl⟩, -⟩ := isHead_headGlyph b rest
          · simp [hg]
          · simp [hbytes]

/-- The characters of a text spell it. -/
theorem ofGlyphs_glyphs (t : Text) : ofGlyphs t.glyphs = t := ofGlyphs_glyphsFrom 0 t

/-- Every character of a text was read at some place of it. -/
theorem exists_headGlyph_of_mem {skip : Nat} {t : Text} {g : Glyph} (hg : g ∈ glyphsFrom skip t) :
    ∃ b rest, g = headGlyph b rest := by
  induction t generalizing skip with
  | nil => simp [glyphsFrom] at hg
  | cons b rest ih =>
      cases skip with
      | succ skip => exact ih (show g ∈ glyphsFrom skip rest from hg)
      | zero =>
          rcases List.mem_cons.mp hg with rfl | hrest
          · exact ⟨b, rest, rfl⟩
          · exact ih hrest

theorem bytes_ne_nil_of_mem_glyphsFrom {skip : Nat} {t : Text} {g : Glyph}
    (hg : g ∈ glyphsFrom skip t) : g.bytes ≠ [] := by
  obtain ⟨b, rest, rfl⟩ := exists_headGlyph_of_mem hg
  obtain ⟨-, hshort⟩ | ⟨-, more, hbytes, -⟩ := isHead_headGlyph b rest
  · rw [hshort]
    exact List.cons_ne_nil b []
  · rw [hbytes]
    exact List.cons_ne_nil b more

/-- An ASCII byte of a character is the whole character. -/
theorem point_of_mem_glyphsFrom {skip : Nat} {t : Text} {g : Glyph} {x : UInt8}
    (hg : g ∈ glyphsFrom skip t) (hx : x ∈ g.bytes) (hlt : x < 0x80) : g.point = x.toNat := by
  obtain ⟨b, rest, rfl⟩ := exists_headGlyph_of_mem hg
  obtain ⟨-, hshort⟩ | ⟨hb, more, hbytes, -, hmore⟩ := isHead_headGlyph b rest
  · rw [hshort] at hx ⊢
    rw [List.mem_singleton.mp hx]
  · have hle : 0x80 ≤ x := by
      rw [hbytes] at hx
      rcases List.mem_cons.mp hx with rfl | hmem
      · exact hb
      · exact hmore x hmem
    exact absurd hlt (UInt8.not_lt.mpr hle)

/-- The text holds no ASCII byte but letters, digits and underscores. -/
def IsWord (t : Text) : Prop := ∀ x ∈ t, x < 0x80 → isWord x.toNat = true

theorem isWord_ofGlyphs {t : Text} {gs : List Glyph} (hsub : ∀ g ∈ gs, g ∈ t.glyphs)
    (hgs : ∀ g ∈ gs, isWord g.point = true) : IsWord (ofGlyphs gs) := by
  intro x hx hlt
  obtain ⟨g, hg, hxg⟩ := List.mem_flatMap.mp hx
  rw [← point_of_mem_glyphsFrom (hsub g hg) hxg hlt]
  exact hgs g hg

theorem isWord_of_all {t : Text} (h : t.all (fun x => isWord x.toNat) = true) : IsWord t := by
  intro x hx _
  exact List.all_eq_true.mp h x hx

theorem IsWord.append {s t : Text} (hs : IsWord s) (ht : IsWord t) : IsWord (s ++ t) := by
  intro x hx hlt
  rcases List.mem_append.mp hx with h | h
  · exact hs x h hlt
  · exact ht x h hlt

theorem IsWord.dot_not_mem {t : Text} (h : IsWord t) : (46 : UInt8) ∉ t := by
  intro hmem
  exact absurd (h 46 hmem (by decide)) (by decide)

theorem IsWord.colon_not_mem {t : Text} (h : IsWord t) : (58 : UInt8) ∉ t := by
  intro hmem
  exact absurd (h 58 hmem (by decide)) (by decide)

theorem trim_isInfix (t : Text) : t.trim <:+: t := by
  have hblank : ∀ (q : Glyph → Bool) (gs : List Glyph),
      (gs.reverse.dropWhile q).reverse <+: gs := by
    intro q gs
    have hsuffix := List.dropWhile_suffix (l := gs.reverse) q
    simpa using List.reverse_prefix.mpr hsuffix
  obtain ⟨after, hafter⟩ := hblank (fun g => isBlank g.point)
    (t.glyphs.dropWhile fun g => isBlank g.point)
  obtain ⟨before, hbefore⟩ := List.dropWhile_suffix (l := t.glyphs) fun g => isBlank g.point
  refine ⟨ofGlyphs before, ofGlyphs after, ?_⟩
  calc ofGlyphs before ++ t.trim ++ ofGlyphs after
      = ofGlyphs (before ++ (t.glyphs.dropWhile fun g => isBlank g.point)) := by
        rw [← hafter]
        simp [trim]
    _ = t := by rw [hbefore, ofGlyphs_glyphs]

theorem eq_trim_of_length_le {t : Text} (h : t.length ≤ t.trim.length) : t.trim = t :=
  (trim_isInfix t).eq_of_length_le h

/-- Trimming keeps an ASCII byte in front that is not white space. -/
theorem head?_trim {b : UInt8} {rest : Text} (hb : b < 0x80) (hblank : isBlank b.toNat = false) :
    (trim (b :: rest)).head? = some b := by
  obtain ⟨-, hg⟩ | ⟨hle, -⟩ := isHead_headGlyph b rest
  · have hglyphs : glyphs (b :: rest) = ⟨b.toNat, [b]⟩ :: glyphsFrom 0 rest := by
      rw [glyphs, glyphsFrom, hg]
      rfl
    unfold trim
    rw [hglyphs]
    simp only [List.dropWhile_cons, hblank, Bool.false_eq_true, if_false, List.reverse_cons]
    rw [List.dropWhile_append]
    split
    · simp [hblank, ofGlyphs]
    · simp [ofGlyphs]
  · exact absurd hb (UInt8.not_lt.mpr hle)

end Splice.Text

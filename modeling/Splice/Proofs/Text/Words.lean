import Splice.Proofs.Text.Glyphs

/-!
# Texts that are put together from characters

A well-formed character is read as itself whatever stands behind it.  So a text that is
put together from such characters is read as these characters, and a text of letters,
digits and underscores that is made by leaving characters out has no others.
-/

namespace Splice.Text

variable {b c d e : UInt8} {gs : List Glyph}

theorem headGlyph_short (h : b < 0x80) (t : Text) : headGlyph b t = shortGlyph b := by
  obtain ⟨-, hg⟩ | ⟨hle, -⟩ := isHead_headGlyph b t
  · rw [hg, shortGlyph, if_pos h]
  · exact absurd h (UInt8.not_lt.mpr hle)

theorem headGlyph_two (h : (0xC2 ≤ b && b ≤ 0xDF && isTail c) = true) (t : Text) :
    headGlyph b (c :: t) = headGlyph b [c] := by
  match t with
  | [] => rfl
  | [_] => simp only [headGlyph, h, if_true]
  | _ :: _ :: _ => simp only [headGlyph, h, if_true]

theorem headGlyph_three (hnot : (0xC2 ≤ b && b ≤ 0xDF && isTail c) = false)
    (h : (startsThree b c && isTail d) = true) (t : Text) :
    headGlyph b (c :: d :: t) = headGlyph b [c, d] := by
  match t with
  | [] => rfl
  | _ :: _ => simp only [headGlyph, hnot, h, if_true, Bool.false_eq_true, if_false]

theorem headGlyph_four (hnot : (0xC2 ≤ b && b ≤ 0xDF && isTail c) = false)
    (hnot' : (startsThree b c && isTail d) = false)
    (h : (startsFour b c && isTail d && isTail e) = true) (t : Text) :
    headGlyph b (c :: d :: e :: t) = headGlyph b [c, d, e] := by
  simp only [headGlyph, hnot, hnot', h, if_true, Bool.false_eq_true, if_false]

/-- The character at the head of a text is broken, or depends on its own bytes only. -/
theorem headGlyph_cases (b : UInt8) (rest : Text) :
    (headGlyph b rest).isBroken = true ∨
      ∃ more, (headGlyph b rest).bytes = b :: more ∧
        ∀ t, headGlyph b (more ++ t) = headGlyph b rest := by
  have hshort : headGlyph b rest = shortGlyph b → (headGlyph b rest).isBroken = true ∨
      ∃ more, (headGlyph b rest).bytes = b :: more ∧
        ∀ t, headGlyph b (more ++ t) = headGlyph b rest := by
    intro heq
    rw [heq]
    by_cases hb : b < 0x80
    · refine Or.inr ⟨[], by simp [shortGlyph, hb], fun t => ?_⟩
      exact headGlyph_short hb t
    · exact Or.inl (by simp [shortGlyph, hb, Glyph.isBroken])
  match rest with
  | [] => exact hshort rfl
  | c :: rest =>
      cases htwo : 0xC2 ≤ b && b ≤ 0xDF && isTail c with
      | true =>
          refine Or.inr ⟨[c], ?_, fun t => ?_⟩
          · rw [headGlyph_two htwo, headGlyph, if_pos htwo]
          · rw [List.singleton_append, headGlyph_two htwo, headGlyph_two htwo rest]
      | false =>
          match rest with
          | [] => exact hshort (by simp only [headGlyph, htwo, Bool.false_eq_true, if_false])
          | d :: rest =>
              cases hthree : startsThree b c && isTail d with
              | true =>
                  refine Or.inr ⟨[c, d], ?_, fun t => ?_⟩
                  · rw [headGlyph_three htwo hthree]
                    simp only [headGlyph, htwo, hthree, if_true, Bool.false_eq_true, if_false]
                  · rw [List.cons_append, List.singleton_append, headGlyph_three htwo hthree,
                      headGlyph_three htwo hthree rest]
              | false =>
                  match rest with
                  | [] =>
                      exact hshort (by
                        simp only [headGlyph, htwo, hthree, Bool.false_eq_true, if_false])
                  | e :: rest =>
                      cases hfour : startsFour b c && isTail d && isTail e with
                      | true =>
                          refine Or.inr ⟨[c, d, e], ?_, fun t => ?_⟩
                          · simp only [headGlyph, htwo, hthree, hfour, if_true,
                              Bool.false_eq_true, if_false]
                          · rw [List.cons_append, List.cons_append, List.singleton_append,
                              headGlyph_four htwo hthree hfour, headGlyph_four htwo hthree hfour rest]
                      | false =>
                          exact hshort (by
                            simp only [headGlyph, htwo, hthree, hfour, Bool.false_eq_true, if_false])

/-- A character that is read as itself in front of every text. -/
def IsWhole (g : Glyph) : Prop := ∀ t, glyphs (g.bytes ++ t) = g :: glyphs t

theorem glyphsFrom_append (more t : Text) : glyphsFrom more.length (more ++ t) = glyphs t := by
  induction more with
  | nil => rfl
  | cons b more ih => exact ih

theorem isWhole_headGlyph {rest : Text} (h : (headGlyph b rest).isBroken = false) :
    IsWhole (headGlyph b rest) := by
  obtain hbroken | ⟨more, hbytes, hsame⟩ := headGlyph_cases b rest
  · rw [hbroken] at h
    cases h
  · intro t
    have hread : glyphs (b :: (more ++ t)) = headGlyph b (more ++ t) ::
        glyphsFrom ((headGlyph b (more ++ t)).bytes.length - 1) (more ++ t) := rfl
    rw [hbytes, List.cons_append, hread, hsame, hbytes, List.length_cons, Nat.add_sub_cancel,
      glyphsFrom_append]

/-- The well-formed characters of a text are read as themselves wherever they stand. -/
theorem isWhole_of_mem_glyphsFrom {skip : Nat} {t : Text} {g : Glyph}
    (hg : g ∈ glyphsFrom skip t) (h : g.isBroken = false) : IsWhole g := by
  obtain ⟨b, rest, rfl⟩ := exists_headGlyph_of_mem hg
  exact isWhole_headGlyph h

theorem glyphs_ofGlyphs_append (h : ∀ g ∈ gs, IsWhole g) (t : Text) :
    glyphs (ofGlyphs gs ++ t) = gs ++ glyphs t := by
  induction gs with
  | nil => rfl
  | cons g gs ih =>
      have hcons : ofGlyphs (g :: gs) ++ t = g.bytes ++ (ofGlyphs gs ++ t) := by
        simp [ofGlyphs]
      rw [hcons, h g List.mem_cons_self, ih fun g' hg' => h g' (List.mem_cons_of_mem g hg'),
        List.cons_append]

def IsName (t : Text) : Prop := ∀ g ∈ t.glyphs, isWord g.point = true

theorem isWord_replacement : isWord replacement = false := by
  simp only [isWord, isLetter, isDigit, inRanges, ← Array.any_toList]
  decide +kernel

theorem isBroken_of_isWord {g : Glyph} (h : isWord g.point = true) : g.isBroken = false := by
  by_contra hbroken
  have hpoint : g.point = replacement := by
    simp only [Glyph.isBroken, Bool.not_eq_false, Bool.and_eq_true, beq_iff_eq] at hbroken
    exact hbroken.1
  rw [hpoint, isWord_replacement] at h
  cases h

/-- A text of whole characters is read as before in front of another one. -/
theorem glyphs_append_of_isWellFormed {s : Text} (h : s.isWellFormed = true) (t : Text) :
    glyphs (s ++ t) = glyphs s ++ glyphs t := by
  have hwhole : ∀ g ∈ glyphs s, IsWhole g := by
    intro g hg
    have hbroken := List.all_eq_true.mp h g hg
    exact isWhole_of_mem_glyphsFrom hg (by simpa using hbroken)
  conv_lhs => rw [← ofGlyphs_glyphs s]
  exact glyphs_ofGlyphs_append hwhole t

theorem IsName.glyphs_append {s : Text} (h : IsName s) (t : Text) :
    glyphs (s ++ t) = glyphs s ++ glyphs t := by
  apply glyphs_append_of_isWellFormed
  apply List.all_eq_true.mpr
  intro g hg
  rw [isBroken_of_isWord (h g hg), Bool.not_false]

theorem IsName.append {s t : Text} (hs : IsName s) (ht : IsName t) : IsName (s ++ t) := by
  intro g hg
  rw [hs.glyphs_append] at hg
  rcases List.mem_append.mp hg with hg | hg
  · exact hs g hg
  · exact ht g hg

/-- Characters of a text that are chosen for being letters, digits or underscores. -/
theorem isName_filter (t : Text) :
    IsName (ofGlyphs (t.glyphs.filter fun g => isWord g.point)) := by
  have hword : ∀ g ∈ t.glyphs.filter fun g => isWord g.point, isWord g.point = true :=
    fun g hg => (List.mem_filter.mp hg).2
  have hwhole : ∀ g ∈ t.glyphs.filter fun g => isWord g.point, IsWhole g := fun g hg =>
    isWhole_of_mem_glyphsFrom (List.mem_filter.mp hg).1 (isBroken_of_isWord (hword g hg))
  have hread := glyphs_ofGlyphs_append hwhole []
  rw [List.append_nil] at hread
  intro g hg
  rw [hread] at hg
  exact hword g (by simpa [glyphs, glyphsFrom] using hg)

theorem isName_of_ascii {t : Text} (h : t.all (fun x => x < 0x80 && isWord x.toNat) = true) :
    IsName t := by
  induction t with
  | nil => exact fun g hg => absurd hg List.not_mem_nil
  | cons b rest ih =>
      rw [List.all_cons, Bool.and_eq_true, Bool.and_eq_true, decide_eq_true_eq] at h
      obtain ⟨⟨hb, hword⟩, hrest⟩ := h
      have hhead : headGlyph b rest = ⟨b.toNat, [b]⟩ := by
        rw [headGlyph_short hb, shortGlyph, if_pos hb]
      have hread : glyphs (b :: rest) = headGlyph b rest ::
          glyphsFrom ((headGlyph b rest).bytes.length - 1) rest := rfl
      intro g hg
      rw [hread, hhead] at hg
      rcases List.mem_cons.mp hg with rfl | hg
      · exact hword
      · exact ih hrest g hg

end Splice.Text

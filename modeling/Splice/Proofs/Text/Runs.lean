import Splice.Proofs.Text.Quoting
import Mathlib.Data.List.TakeWhile

/-!
# Runs of characters

A text is read from the front, so what remains behind some of its characters is a text of its
own, read as the same characters.  Among the characters of a text an ASCII byte always stands
alone, and all but broken bytes are written the way their code points are.
-/

namespace Splice.Text

variable {t : Text} {g : Glyph} {gs hs : List Glyph}

theorem ofGlyphs_cons (g : Glyph) (gs : List Glyph) :
    ofGlyphs (g :: gs) = g.bytes ++ ofGlyphs gs := List.flatMap_cons

theorem glyphsFrom_eq_glyphs_drop (skip : Nat) (t : Text) :
    glyphsFrom skip t = glyphs (t.drop skip) := by
  induction t generalizing skip with
  | nil => rw [List.drop_nil, glyphs, glyphsFrom, glyphsFrom]
  | cons b rest ih =>
      cases skip with
      | zero => rfl
      | succ skip => exact ih skip

theorem glyphs_cons (b : UInt8) (rest : Text) :
    glyphs (b :: rest) =
      headGlyph b rest :: glyphs (rest.drop ((headGlyph b rest).bytes.length - 1)) := by
  rw [← glyphsFrom_eq_glyphs_drop]
  rfl

def IsRun (gs : List Glyph) : Prop := glyphs (ofGlyphs gs) = gs

theorem isRun_glyphs (t : Text) : IsRun t.glyphs := by rw [IsRun, ofGlyphs_glyphs]

/-- What remains of the characters of a text are the characters of what remains of it. -/
theorem isRun_of_glyphs_eq (h : glyphs t = gs ++ hs) : IsRun hs := by
  induction gs generalizing t with
  | nil =>
      rw [List.nil_append] at h
      rw [← h]
      exact isRun_glyphs t
  | cons g gs ih =>
      cases t with
      | nil => cases h
      | cons b rest =>
          rw [glyphs_cons, List.cons_append] at h
          exact ih (List.cons.inj h).2

namespace IsRun

theorem of_append (h : IsRun (gs ++ hs)) : IsRun hs := isRun_of_glyphs_eq h

theorem tail (h : IsRun (g :: gs)) : IsRun gs := of_append (show IsRun ([g] ++ gs) from h)

theorem point_of_mem (h : IsRun gs) (hg : g ∈ gs) {x : UInt8} (hx : x ∈ g.bytes) (hlt : x < 0x80) :
    g.point = x.toNat := by
  rw [← h] at hg
  exact point_of_mem_glyphsFrom hg hx hlt

/-- A character that is not the one for broken bytes is written as its code point is. -/
theorem encodePoint_eq (h : IsRun gs) (hg : g ∈ gs) (hpoint : g.point ≠ replacement) :
    encodePoint g.point = g.bytes := by
  rw [← h] at hg
  refine (isForm_of_mem_glyphsFrom hg ?_).2
  simp [Glyph.isBroken, hpoint]

theorem bytes_of_lt (h : IsRun gs) (hg : g ∈ gs) (hlt : g.point < 0x80) :
    g.bytes = [g.point.toUInt8] := by
  have hne : g.point ≠ replacement := by
    intro heq
    rw [heq] at hlt
    exact absurd hlt (by decide)
  rw [← h.encodePoint_eq hg hne, encodePoint_of_lt hlt]

theorem bytes_ne_nil (h : IsRun gs) (hg : g ∈ gs) : g.bytes ≠ [] := by
  rw [← h] at hg
  exact bytes_ne_nil_of_mem_glyphsFrom hg

theorem length_pos (h : IsRun (g :: gs)) : 0 < (ofGlyphs (g :: gs)).length := by
  have hbytes := List.length_pos_of_ne_nil (h.bytes_ne_nil List.mem_cons_self)
  rw [ofGlyphs_cons, List.length_append]
  omega

/-- Letters, digits and underscores of a text make a text of their own. -/
theorem glyphs_ofGlyphs_of_isWord (h : IsRun gs) (hsub : hs ⊆ gs)
    (hword : ∀ g ∈ hs, isWord g.point = true) : glyphs (ofGlyphs hs) = hs := by
  have hwhole : ∀ g ∈ hs, IsWhole g := by
    intro g hg
    have hmem := hsub hg
    rw [← h] at hmem
    exact isWhole_of_mem_glyphsFrom hmem (isBroken_of_isWord (hword g hg))
  have hread := glyphs_ofGlyphs_append hwhole []
  have hnil : glyphs [] = [] := rfl
  rwa [List.append_nil, hnil, List.append_nil] at hread

end IsRun

end Splice.Text

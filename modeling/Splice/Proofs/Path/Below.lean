import Mathlib.Data.List.DropRight
import Splice.Proofs.Path.Parent

/-!
# Paths below a directory

A relative path climbs by the `..` at its front and descends by the elements behind them.  Taken
below a base it drops as many elements of the base as it climbs, as far as there are any, and adds
those by which it descends (`elements_below`).
-/

namespace Splice.Path

variable {base raw value : Text} {s t : List Text}

/-- How many directories a relative path leaves. -/
def climbs (p : Text) : Nat := ((elements p).takeWhile (· == dotDot)).length

/-- The elements of a path behind the directories that it leaves. -/
def descent (p : Text) : List Text := (elements p).dropWhile (· == dotDot)

/-- The reversed elements of a relative path, and those of the same path below a base. -/
def Mirrors (base s t : List Text) : Prop :=
  ∃ r k, s = r ++ List.replicate k dotDot ∧ dotDot ∉ r ∧ t = r ++ base.drop k

theorem mirrors_nil (base : List Text) : Mirrors base [] base :=
  ⟨[], 0, rfl, List.not_mem_nil, rfl⟩

theorem push_of_skip {rooted : Bool} {es : List Text} {e : Text}
    (h : (e.isEmpty || e == dot) = true) : push rooted es e = es := by
  unfold push
  rw [if_pos h]

theorem push_of_name {rooted : Bool} {es : List Text} {e : Text}
    (hskip : ¬(e.isEmpty || e == dot) = true) (hup : e ≠ dotDot) :
    push rooted es e = e :: es := by
  unfold push
  rw [if_neg hskip, if_neg (by simpa using hup)]

theorem push_dotDot {rooted : Bool} {es : List Text} {last : Text} (hlast : last ≠ dotDot) :
    push rooted (last :: es) dotDot = es := by
  unfold push
  rw [if_neg (by decide), if_pos (beq_self_eq_true dotDot)]
  simp [hlast]

/-- Below a base without `..` every element does to both what it does to the relative path. -/
theorem Mirrors.push {base : List Text} (hbase : dotDot ∉ base) (h : Mirrors base s t) (e : Text) :
    Mirrors base (push false s e) (push true t e) := by
  obtain ⟨r, k, rfl, hr, rfl⟩ := h
  by_cases hskip : (e.isEmpty || e == dot) = true
  · rw [push_of_skip hskip, push_of_skip hskip]
    exact ⟨r, k, rfl, hr, rfl⟩
  by_cases hup : e = dotDot
  · subst hup
    cases r with
    | cons last before =>
        have hlast : last ≠ dotDot := fun heq => hr (heq ▸ List.mem_cons_self)
        rw [List.cons_append, List.cons_append, push_dotDot hlast, push_dotDot hlast]
        exact ⟨before, k, rfl, fun hmem => hr (List.mem_cons_of_mem last hmem), rfl⟩
    | nil =>
        refine ⟨[], k + 1, ?_, List.not_mem_nil, ?_⟩
        · cases k with
          | zero => rfl
          | succ k => rfl
        · rw [List.nil_append, List.nil_append, ← List.drop_drop]
          cases hdrop : base.drop k with
          | nil => rfl
          | cons last before =>
              have hlast : last ≠ dotDot := by
                rintro rfl
                exact hbase (List.mem_of_mem_drop (hdrop ▸ List.mem_cons_self))
              rw [push_dotDot hlast, List.drop_succ_cons, List.drop_zero]
  · rw [push_of_name hskip hup, push_of_name hskip hup]
    refine ⟨e :: r, k, rfl, ?_, rfl⟩
    rw [List.mem_cons, not_or]
    exact ⟨Ne.symm hup, hr⟩

theorem Mirrors.foldl {base : List Text} (hbase : dotDot ∉ base) (pieces : List Text)
    (h : Mirrors base s t) :
    Mirrors base (pieces.foldl (Path.push false) s) (pieces.foldl (Path.push true) t) := by
  induction pieces generalizing s t with
  | nil => exact h
  | cons e later ih => exact ih (h.push hbase e)

/-- An absolute path leaves no directory. -/
theorem dotDot_not_mem_elements (h : isAbsolute base = true) : dotDot ∉ elements base := by
  have hclean : ∀ es : List Text, IsClean true es → dotDot ∉ es := by
    intro es hes
    induction es with
    | nil => exact List.not_mem_nil
    | cons e rest ih =>
        rw [List.mem_cons, not_or]
        refine ⟨fun heq => ?_, ih hes.2.2.2.2⟩
        exact absurd (hes.2.2.2.1 heq.symm).1 (by decide)
  have helements := isClean_elements base
  rw [h] at helements
  exact fun hmem => hclean _ helements (List.mem_reverse.mpr hmem)

/-- Read from its front, a relative path leaves directories first and then only enters some. -/
theorem exists_mirrors (hbase : isAbsolute base = true) (hraw : isAbsolute raw = false) :
    dotDot ∉ descent raw ∧
      ((Text.splitAt slash raw).foldl (push true) (elements base).reverse).reverse =
        (elements base).rdrop (climbs raw) ++ descent raw := by
  have hup : dotDot ∉ (elements base).reverse := by
    rw [List.mem_reverse]
    exact dotDot_not_mem_elements hbase
  obtain ⟨r, k, hs, hr, ht⟩ :=
    (mirrors_nil (elements base).reverse).foldl hup (Text.splitAt slash raw)
  have helements : elements raw = List.replicate k dotDot ++ r.reverse := by
    rw [elements, hraw, hs, List.reverse_append, List.reverse_replicate]
  have hclimb : ∀ x ∈ List.replicate k dotDot, (x == dotDot) = true := by
    intro x hx
    rw [List.eq_of_mem_replicate hx]
    exact beq_self_eq_true dotDot
  have hstop : ∀ x ∈ r.reverse, (x == dotDot) = false := by
    intro x hx
    exact beq_false_of_ne fun heq => hr (heq ▸ List.mem_reverse.mp hx)
  have hnone : r.reverse.takeWhile (· == dotDot) = [] ∧
      r.reverse.dropWhile (· == dotDot) = r.reverse := by
    cases hreverse : r.reverse with
    | nil => exact ⟨rfl, rfl⟩
    | cons x rest =>
        rw [hreverse] at hstop
        have hx := hstop x List.mem_cons_self
        exact ⟨List.takeWhile_cons_of_neg (by simp [hx]), List.dropWhile_cons_of_neg (by simp [hx])⟩
  have hclimbs : climbs raw = k := by
    rw [climbs, helements, List.takeWhile_append_of_pos hclimb, hnone.1, List.append_nil,
      List.length_replicate]
  have hdescent : descent raw = r.reverse := by
    rw [descent, helements, List.dropWhile_append_of_pos hclimb, hnone.2]
  rw [ht, hclimbs, hdescent, List.mem_reverse, List.reverse_append,
    List.rdrop_eq_reverse_drop_reverse]
  exact ⟨hr, rfl⟩

theorem dotDot_not_mem_descent (hraw : isAbsolute raw = false) : dotDot ∉ descent raw :=
  (exists_mirrors (show isAbsolute [slash] = true from rfl) hraw).1

theorem elements_below (hbase : isAbsolute base = true) (hraw : isAbsolute raw = false) :
    elements (base ++ slash :: raw) = (elements base).rdrop (climbs raw) ++ descent raw := by
  rw [elements_append_slash hbase]
  exact (exists_mirrors hbase hraw).2

theorem elements_clean (p : Text) : elements (clean p) = elements p :=
  elements_ofElements (isClean_elements p)

/-- A path with the same elements is the same path once it is cleaned. -/
theorem clean_eq_clean_iff {p q : Text} :
    clean p = clean q ↔ isAbsolute p = isAbsolute q ∧ elements p = elements q := by
  constructor
  · intro h
    exact ⟨by rw [← isAbsolute_clean p, h, isAbsolute_clean],
      by rw [← elements_clean p, h, elements_clean]⟩
  · rintro ⟨habsolute, helements⟩
    rw [clean, clean, habsolute, helements]

/-- Resolving a value is cleaning an absolute path. -/
theorem exists_resolve_eq (hbase : isAbsolute base = true) (value : Text) :
    ∃ q, resolve base value = clean q ∧ isAbsolute q = true ∧
      elements q =
        if isAbsolute value.trim then elements value.trim
        else (elements base).rdrop (climbs value.trim) ++ descent value.trim := by
  rw [resolve]
  cases hempty : value.trim.isEmpty with
  | true =>
      rw [List.isEmpty_iff.mp hempty]
      refine ⟨base, rfl, hbase, ?_⟩
      change elements base = (elements base).rdrop 0 ++ []
      rw [List.rdrop_zero, List.append_nil]
  | false =>
      cases habsolute : isAbsolute value.trim with
      | true => exact ⟨value.trim, rfl, habsolute, rfl⟩
      | false =>
          refine ⟨base ++ slash :: value.trim, ?_, isAbsolute_append hbase _,
            elements_below hbase habsolute⟩
          cases base with
          | nil => cases hbase
          | cons c rest =>
              have hjoin : join [c :: rest, value.trim] =
                  clean (c :: rest ++ [slash] ++ value.trim) := rfl
              rw [if_neg (by decide), if_neg (by decide), hjoin, List.append_assoc,
                List.singleton_append]

theorem elements_resolve (hbase : isAbsolute base = true) (value : Text) :
    elements (resolve base value) =
      if isAbsolute value.trim then elements value.trim
      else (elements base).rdrop (climbs value.trim) ++ descent value.trim := by
  obtain ⟨q, hq, -, helements⟩ := exists_resolve_eq hbase value
  rw [hq, elements_clean, helements]

theorem resolve_eq_iff (hbase : isAbsolute base = true) {a b : Text} :
    resolve base a = resolve base b ↔ elements (resolve base a) = elements (resolve base b) := by
  obtain ⟨p, hp, hpa, -⟩ := exists_resolve_eq hbase a
  obtain ⟨q, hq, hqa, -⟩ := exists_resolve_eq hbase b
  rw [hp, hq, elements_clean, elements_clean, clean_eq_clean_iff, hpa, hqa]
  exact and_iff_right rfl

/-- An element that cleaning keeps wherever it stands. -/
def IsPlain (e : Text) : Prop := e ≠ [] ∧ e ≠ dot ∧ slash ∉ e ∧ e ≠ dotDot

theorem isClean_of_forall_isPlain {es : List Text} (h : ∀ e ∈ es, IsPlain e) : IsClean true es := by
  induction es with
  | nil => trivial
  | cons e rest ih =>
      obtain ⟨hne, hdot, hslash, hup⟩ := h e List.mem_cons_self
      exact ⟨hne, hdot, hslash, fun heq => absurd heq hup,
        ih fun x hx => h x (List.mem_cons_of_mem e hx)⟩

theorem IsClean.ne_dot {rooted : Bool} {es : List Text} (h : IsClean rooted es) :
    ∀ e ∈ es, e ≠ dot := by
  induction es with
  | nil => simp
  | cons e rest ih =>
      intro x hx
      rcases List.mem_cons.mp hx with rfl | hmem
      · exact h.2.1
      · exact ih h.2.2.2.2 x hmem

theorem isPlain_of_mem_elements {p e : Text} (he : e ∈ elements p) (hup : e ≠ dotDot) :
    IsPlain e := by
  have hclean := isClean_elements p
  have hmem := List.mem_reverse.mpr he
  exact ⟨hclean.ne_nil e hmem, hclean.ne_dot e hmem, hclean.slash_not_mem e hmem, hup⟩

/-- There is a root with any plain elements. -/
theorem exists_base {es : List Text} (h : ∀ e ∈ es, IsPlain e) :
    ∃ base, isAbsolute base = true ∧ clean base = base ∧ elements base = es := by
  have hclean : IsClean true es.reverse :=
    isClean_of_forall_isPlain fun e he => h e (List.mem_reverse.mp he)
  have habsolute := isAbsolute_ofElements hclean
  have helements := elements_ofElements hclean
  refine ⟨ofElements true es, habsolute, ?_, helements⟩
  rw [clean, habsolute, helements]

end Splice.Path

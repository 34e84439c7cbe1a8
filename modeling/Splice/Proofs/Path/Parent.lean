import Splice.Disk
import Splice.Proofs.Path

/-!
# Parents and drafts of paths

A cleaned absolute path ends in its last element, and what is left is its parent.  The draft
of a file has the parent of the file and a longer name, so it is neither the file nor a
directory above it.
-/

namespace Splice

namespace Text

/-- Pieces of a text with a separator inside. -/
theorem splitAt_append_separator (b : UInt8) (s t : Text) :
    splitAt b (s ++ b :: t) = splitAt b s ++ splitAt b t := by
  induction s with
  | nil => simp [splitAt]
  | cons c s ih =>
      rw [List.cons_append, splitAt, splitAt, ih]
      by_cases hc : c = b
      · simp [hc]
      · rw [if_neg (by simpa using hc), if_neg (by simpa using hc)]
        cases hs : splitAt b s with
        | nil =>
            have hlength := spread_splitAt b s
            rw [hs, spread_nil] at hlength
            omega
        | cons piece pieces => rfl

end Text

namespace Path

variable {es : List Text} {e p : Text}

theorem isAbsolute_append (h : isAbsolute p = true) (t : Text) : isAbsolute (p ++ t) = true := by
  cases p with
  | nil => cases h
  | cons c p => exact h

/-- The elements of a path below another one. -/
theorem elements_append_slash (h : isAbsolute p = true) (t : Text) :
    elements (p ++ slash :: t) =
      ((Text.splitAt slash t).foldl (push true) (elements p).reverse).reverse := by
  rw [elements, elements, isAbsolute_append h, h, Text.splitAt_append_separator,
    List.foldl_append, List.reverse_reverse]

/-- The path of a directory and a name in it. -/
theorem ofElements_concat (es : List Text) (e : Text) :
    ∃ front, ofElements true (es ++ [e]) = front ++ slash :: e ∧
      (es = [] → front = []) ∧ (es ≠ [] → front = ofElements true es) := by
  have hstep : ∀ (x y : Text) (rest : List Text), Text.join [slash] (x :: y :: rest) =
      x ++ [slash] ++ Text.join [slash] (y :: rest) := fun _ _ _ => rfl
  have hjoin : ∀ (x : Text) (xs : List Text),
      Text.join [slash] (x :: xs ++ [e]) = Text.join [slash] (x :: xs) ++ slash :: e := by
    intro x xs
    induction xs generalizing x with
    | nil => exact List.append_assoc x [slash] e
    | cons y ys ih =>
        have hy := ih y
        rw [List.cons_append] at hy
        rw [List.cons_append, List.cons_append, hstep, hy, hstep]
        simp only [List.append_assoc]
  cases es with
  | nil => exact ⟨[], by simp [ofElements, Text.join], fun _ => rfl, fun h => absurd rfl h⟩
  | cons x xs =>
      refine ⟨ofElements true (x :: xs), ?_, fun h => absurd h (by simp), fun _ => rfl⟩
      rw [ofElements, if_pos rfl, hjoin, ofElements, if_pos rfl, List.cons_append]

/-- The elements of an absolute path that is not the root. -/
structure Ends (p : Text) (es : List Text) (e : Text) : Prop where
  path : p = ofElements true (es ++ [e])
  clean : IsClean true (es ++ [e]).reverse

/-- A cleaned absolute path is the root or has a last element. -/
theorem eq_root_or_ends (h : isAbsolute p = true) (hclean : clean p = p) :
    p = [slash] ∨ ∃ es e, Ends p es e := by
  have helements := isClean_elements p
  rw [h] at helements
  rw [Path.clean, h] at hclean
  rcases List.eq_nil_or_concat (elements p) with hnil | ⟨es, e, hes⟩
  · left
    rw [← hclean, hnil]
    rfl
  · right
    rw [List.concat_eq_append] at hes
    exact ⟨es, e, by rw [← hes, hclean], by rwa [← hes]⟩

namespace Ends

theorem elements_eq (h : Ends p es e) : elements p = es ++ [e] := by
  rw [h.path]
  exact elements_ofElements h.clean

theorem slash_not_mem (h : Ends p es e) : ∀ x ∈ es ++ [e], slash ∉ x := fun x hx =>
  h.clean.slash_not_mem x (List.mem_reverse.mpr hx)

theorem clean_parent (h : Ends p es e) : IsClean true es.reverse := by
  have hclean := h.clean
  rw [List.reverse_append] at hclean
  exact hclean.2.2.2.2

/-- Read backwards, the path has its last element up to the first slash. -/
theorem exists_reverse_eq (h : Ends p es e) :
    ∃ front, p.reverse = e.reverse ++ slash :: front.reverse ∧
      (∀ c ∈ e.reverse, (c != slash) = true) ∧
      (es = [] → front = []) ∧ (es ≠ [] → front = ofElements true es) := by
  obtain ⟨front, hpath, hroot, hfront⟩ := ofElements_concat es e
  have hslash : slash ∉ e := h.slash_not_mem e (by simp)
  refine ⟨front, ?_, fun c hc => ?_, hroot, hfront⟩
  · rw [h.path, hpath]
    simp
  · simpa using fun heq : c = slash => hslash (heq ▸ List.mem_reverse.mp hc)

theorem base_eq (h : Ends p es e) : base p = e := by
  obtain ⟨front, hreverse, hall, -, -⟩ := h.exists_reverse_eq
  have hne : e ≠ [] := h.clean.ne_nil e (by simp)
  have hstripped : p.reverse.dropWhile (· == slash) = p.reverse := by
    rw [hreverse]
    cases hlast : e.reverse with
    | nil => exact absurd (List.reverse_eq_nil_iff.mp hlast) hne
    | cons c rest =>
        have hc : (c == slash) = false := by
          simpa using hall c (hlast ▸ List.mem_cons_self)
        rw [List.cons_append, List.dropWhile_cons_of_neg (by simp [hc])]
  have hnonempty : p.isEmpty = false := by
    rw [List.isEmpty_eq_false_iff, ← List.reverse_ne_nil_iff, hreverse]
    simp
  rw [base, if_neg (by simp [hnonempty]), hstripped, if_neg (by simp [hreverse]), hreverse,
    List.takeWhile_append_of_pos hall, List.takeWhile_cons_of_neg (by simp), List.append_nil,
    List.reverse_reverse]

theorem dir_eq (h : Ends p es e) : dir p = ofElements true es := by
  obtain ⟨front, hreverse, hall, hroot, hfront⟩ := h.exists_reverse_eq
  have hdir : dir p = Path.clean (p.reverse.dropWhile (· != slash)).reverse := rfl
  have hparent : (p.reverse.dropWhile (· != slash)).reverse = front ++ [slash] := by
    rw [hreverse, List.dropWhile_append_of_pos hall, List.dropWhile_cons_of_neg (by simp)]
    simp
  rw [hdir, hparent]
  by_cases hes : es = []
  · rw [hroot hes, hes]
    rfl
  · have hclean := h.clean_parent
    have habsolute : isAbsolute (ofElements true es) = true := isAbsolute_ofElements hclean
    rw [hfront hes, Path.clean, isAbsolute_append habsolute,
      elements_append_slash habsolute, elements_ofElements hclean]
    have hnone : (Text.splitAt slash []).foldl (push true) es.reverse = es.reverse := rfl
    rw [hnone, List.reverse_reverse]

def draftName (e : Text) : Text := "." ++ e ++ ".tmp"

theorem length_draftName (e : Text) : (draftName e).length = e.length + 5 := by
  have hdot : ("." : Text).length = 1 := by decide
  have htmp : (".tmp" : Text).length = 4 := by decide
  simp only [draftName, List.length_append, hdot, htmp]
  omega

theorem elements_draftPath (h : Ends p es e) :
    elements (Disk.draftPath p) = es ++ [draftName e] := by
  have hclean := h.clean_parent
  have habsolute : isAbsolute (ofElements true es) = true := isAbsolute_ofElements hclean
  have hjoin : Disk.draftPath p = Path.clean (ofElements true es ++ slash :: draftName e) := by
    have hjoin : join [ofElements true es, draftName e] =
        Path.clean (ofElements true es ++ [slash] ++ draftName e) := rfl
    rw [Disk.draftPath, h.dir_eq, h.base_eq]
    exact hjoin.trans (by rw [List.append_assoc, List.singleton_append])
  have hslash : slash ∉ draftName e := by
    have he : slash ∉ e := h.slash_not_mem e (by simp)
    have hdot : slash ∉ ("." : Text) := by decide
    have htmp : slash ∉ (".tmp" : Text) := by decide
    simp only [draftName, List.mem_append, he, hdot, htmp, or_self, not_false_eq_true]
  have hpush : push true es.reverse (draftName e) = draftName e :: es.reverse := by
    have hlength : 5 ≤ (draftName e).length := by
      rw [length_draftName]
      omega
    have hne : draftName e ≠ [] ∧ draftName e ≠ dot ∧ draftName e ≠ dotDot := by
      refine ⟨?_, ?_, ?_⟩ <;>
      · intro heq
        rw [heq] at hlength
        exact absurd hlength (by decide)
    unfold push
    rw [if_neg (by simp [hne]), if_neg (by simp [hne])]
  have hpath : Path.clean (ofElements true es ++ slash :: draftName e) =
      ofElements true (elements (ofElements true es ++ slash :: draftName e)) := by
    rw [Path.clean, isAbsolute_append habsolute]
  have helements : elements (ofElements true es ++ slash :: draftName e) =
      es ++ [draftName e] := by
    rw [elements_append_slash habsolute, elements_ofElements hclean,
      Text.splitAt_of_not_mem hslash, List.foldl_cons, List.foldl_nil, hpush,
      List.reverse_cons, List.reverse_reverse]
  have hclean' := isClean_elements (ofElements true es ++ slash :: draftName e)
  rw [isAbsolute_append habsolute, helements] at hclean'
  rw [hjoin, hpath, helements, elements_ofElements hclean']

theorem draftName_ne (e : Text) : draftName e ≠ e := by
  intro heq
  have hlength := length_draftName e
  rw [heq] at hlength
  omega

end Ends

end Path

end Splice

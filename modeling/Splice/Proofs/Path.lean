import Splice.Path
import Splice.Proofs.Text.Glyphs

/-!
# Cleaned paths

The elements of a cleaned path are not empty, none is `.`, and `..` stands only at
the front of a relative path.  Reading such elements again changes nothing, so a
cleaned path is its own cleaned form, and cleaning never makes a path longer.
-/

namespace Splice

namespace Text

theorem splitAt_append {b : UInt8} {t : Text} (ht : b ∉ t) (rest : Text) :
    splitAt b (t ++ b :: rest) = t :: splitAt b rest := by
  induction t with
  | nil => simp [splitAt]
  | cons c t ih =>
      simp only [List.mem_cons, not_or] at ht
      have hc : (c == b) = false := by simpa using Ne.symm ht.1
      rw [List.cons_append, splitAt, hc, ih ht.2]
      rfl

theorem splitAt_of_not_mem {b : UInt8} {t : Text} (ht : b ∉ t) : splitAt b t = [t] := by
  induction t with
  | nil => rfl
  | cons c t ih =>
      simp only [List.mem_cons, not_or] at ht
      have hc : (c == b) = false := by simpa using Ne.symm ht.1
      rw [splitAt, hc, ih ht.2]
      rfl

theorem splitAt_join {b : UInt8} {ts : List Text} (hts : ∀ t ∈ ts, b ∉ t) (hne : ts ≠ []) :
    splitAt b (join [b] ts) = ts := by
  induction ts with
  | nil => exact absurd rfl hne
  | cons t rest ih =>
      have ht := hts t List.mem_cons_self
      cases rest with
      | nil => exact splitAt_of_not_mem ht
      | cons u rest =>
          have hrest := ih (fun x hx => hts x (List.mem_cons_of_mem t hx)) (by simp)
          rw [join, List.append_assoc, List.singleton_append, splitAt_append ht, hrest]
          simp

theorem not_mem_of_mem_splitAt {b : UInt8} {p t : Text} (h : t ∈ splitAt b p) : b ∉ t := by
  induction p generalizing t with
  | nil =>
      rw [List.mem_singleton.mp h]
      simp
  | cons c p ih =>
      rw [splitAt] at h
      by_cases hc : c = b
      · rw [if_pos (by simpa using hc)] at h
        rcases List.mem_cons.mp h with rfl | hrest
        · simp
        · exact ih hrest
      · rw [if_neg (by simpa using hc)] at h
        cases hsplit : splitAt b p with
        | nil =>
            rw [hsplit] at h
            rw [List.mem_singleton.mp h]
            simp [Ne.symm hc]
        | cons piece pieces =>
            rw [hsplit] at h
            have hold : ∀ u ∈ piece :: pieces, b ∉ u := fun u hu => ih (hsplit ▸ hu)
            rcases List.mem_cons.mp h with rfl | hrest
            · have := hold piece List.mem_cons_self
              simp [this, Ne.symm hc]
            · exact hold t (List.mem_cons_of_mem _ hrest)

def spread (ts : List Text) : Nat := (ts.map fun t => t.length + 1).sum

@[simp] theorem spread_nil : spread [] = 0 := rfl

@[simp] theorem spread_cons (t : Text) (ts : List Text) :
    spread (t :: ts) = t.length + 1 + spread ts := by
  simp [spread]

theorem spread_splitAt (b : UInt8) (p : Text) : spread (splitAt b p) = p.length + 1 := by
  induction p with
  | nil => rfl
  | cons c p ih =>
      rw [splitAt]
      split
      · rw [spread_cons, ih]
        simp
        omega
      · cases hsplit : splitAt b p with
        | nil =>
            rw [hsplit] at ih
            simp at ih
        | cons piece pieces =>
            rw [hsplit, spread_cons] at ih
            rw [spread_cons]
            simp only [List.length_cons]
            omega

theorem length_join (b : UInt8) {ts : List Text} (hne : ts ≠ []) :
    (join [b] ts).length + 1 = spread ts := by
  induction ts with
  | nil => exact absurd rfl hne
  | cons t rest ih =>
      cases rest with
      | nil => simp [join]
      | cons u rest =>
          have hrest := ih (by simp)
          rw [join, spread_cons, ← hrest]
          · simp only [List.length_append, List.length_singleton]
            omega
          · simp

end Text

namespace Path

/-- Reversed elements as cleaning leaves them: `..` stands below nothing else, and
nowhere in an absolute path. -/
def IsClean (rooted : Bool) : List Text → Prop
  | [] => True
  | e :: rest =>
      e ≠ [] ∧ e ≠ dot ∧ slash ∉ e ∧ (e = dotDot → rooted = false ∧ ∀ x ∈ rest, x = dotDot) ∧
        IsClean rooted rest

variable {rooted : Bool} {es : List Text} {e p : Text}

theorem IsClean.push (h : IsClean rooted es) (he : slash ∉ e) :
    IsClean rooted (push rooted es e) := by
  unfold Path.push
  by_cases hskip : e.isEmpty || e == dot
  · rw [if_pos hskip]
    exact h
  rw [if_neg hskip]
  simp only [Bool.or_eq_true, List.isEmpty_iff, beq_iff_eq, not_or] at hskip
  by_cases hup : e = dotDot
  · rw [if_pos (by simpa using hup)]
    cases es with
    | nil =>
        by_cases hrooted : rooted = true
        · simp [hrooted, IsClean]
        · rw [Bool.not_eq_true] at hrooted
          simp [hrooted, IsClean, dotDot, dot, slash]
    | cons last before =>
        by_cases hlast : last = dotDot
        · have hbefore := h.2.2.2.1 hlast
          simp only [hlast, beq_self_eq_true, if_true]
          rw [hlast] at h
          refine ⟨by decide, by decide, by decide, fun _ => ⟨hbefore.1, ?_⟩, h⟩
          intro x hx
          rcases List.mem_cons.mp hx with rfl | hmem
          · rfl
          · exact hbefore.2 x hmem
        · simp only [beq_iff_eq, hlast, if_false]
          exact h.2.2.2.2
  · rw [if_neg (by simpa using hup)]
    exact ⟨hskip.1, hskip.2, he, fun h => absurd h hup, h⟩

theorem IsClean.foldl (h : IsClean rooted es) {pieces : List Text}
    (hpieces : ∀ t ∈ pieces, slash ∉ t) : IsClean rooted (pieces.foldl (Path.push rooted) es) := by
  induction pieces generalizing es with
  | nil => exact h
  | cons t rest ih =>
      have ht := hpieces t List.mem_cons_self
      exact ih (h.push ht) fun x hx => hpieces x (List.mem_cons_of_mem t hx)

theorem isClean_elements (p : Text) : IsClean (isAbsolute p) (elements p).reverse := by
  rw [elements, List.reverse_reverse]
  have hnil : IsClean (isAbsolute p) [] := trivial
  exact hnil.foldl fun t ht => Text.not_mem_of_mem_splitAt ht

theorem IsClean.slash_not_mem (h : IsClean rooted es) : ∀ e ∈ es, slash ∉ e := by
  induction es with
  | nil => simp
  | cons e rest ih =>
      intro x hx
      rcases List.mem_cons.mp hx with rfl | hmem
      · exact h.2.2.1
      · exact ih h.2.2.2.2 x hmem

theorem IsClean.ne_nil (h : IsClean rooted es) : ∀ e ∈ es, e ≠ [] := by
  induction es with
  | nil => simp
  | cons e rest ih =>
      intro x hx
      rcases List.mem_cons.mp hx with rfl | hmem
      · exact h.1
      · exact ih h.2.2.2.2 x hmem

/-- An element that cleaning has left in its place is put on top as it is. -/
theorem IsClean.push_eq (h : IsClean rooted (e :: es)) : Path.push rooted es e = e :: es := by
  unfold Path.push
  obtain ⟨hne, hdot, -, hup, -⟩ := h
  rw [if_neg (by simp [hne, hdot])]
  by_cases he : e = dotDot
  · obtain ⟨hrooted, hall⟩ := hup he
    rw [if_pos (by simpa using he), he]
    cases es with
    | nil => simp [hrooted]
    | cons last before =>
        have hlast := hall last List.mem_cons_self
        simp [hlast]
  · rw [if_neg (by simpa using he)]

theorem IsClean.foldl_reverse (h : IsClean rooted es) :
    es.reverse.foldl (Path.push rooted) [] = es := by
  induction es with
  | nil => rfl
  | cons e rest ih =>
      rw [List.reverse_cons, List.foldl_append, ih h.2.2.2.2]
      exact h.push_eq

theorem isAbsolute_ofElements (h : IsClean rooted es.reverse) :
    isAbsolute (ofElements rooted es) = rooted := by
  unfold ofElements
  cases rooted with
  | true => simp [isAbsolute]
  | false =>
      cases es with
      | nil => simp [isAbsolute, dot, slash]
      | cons e rest =>
          have he : e ≠ [] := h.ne_nil e (by simp)
          have hslash : slash ∉ e := h.slash_not_mem e (by simp)
          obtain ⟨c, e', rfl⟩ := List.exists_cons_of_ne_nil he
          have hc : c ≠ slash := fun hc => hslash (by simp [hc])
          cases rest <;> simp [isAbsolute, Text.join, hc]

theorem elements_ofElements (h : IsClean rooted es.reverse) :
    elements (ofElements rooted es) = es := by
  have hslash : ∀ e ∈ es, slash ∉ e := fun e he => h.slash_not_mem e (by simpa using he)
  have hfold : es.foldl (Path.push rooted) [] = es.reverse := by
    simpa using h.foldl_reverse
  unfold elements
  rw [isAbsolute_ofElements h]
  unfold ofElements
  cases rooted with
  | true =>
      have hhead : Text.splitAt slash (slash :: Text.join [slash] es) =
          [] :: Text.splitAt slash (Text.join [slash] es) :=
        Text.splitAt_append (t := []) (by simp) _
      rw [if_pos rfl, hhead]
      cases es with
      | nil => rfl
      | cons e rest =>
          rw [Text.splitAt_join hslash (by simp), List.foldl_cons]
          rw [show Path.push true [] [] = [] from rfl, hfold, List.reverse_reverse]
  | false =>
      cases es with
      | nil => rfl
      | cons e rest =>
          rw [if_neg (by simp), if_neg (by simp), Text.splitAt_join hslash (by simp), hfold,
            List.reverse_reverse]

@[simp] theorem isAbsolute_clean (p : Text) : isAbsolute (clean p) = isAbsolute p :=
  isAbsolute_ofElements (isClean_elements p)

/-- A cleaned path is its own cleaned form. -/
@[simp] theorem clean_clean (p : Text) : clean (clean p) = clean p := by
  have helements : elements (clean p) = elements p := elements_ofElements (isClean_elements p)
  unfold clean at helements ⊢
  rw [helements, isAbsolute_ofElements (isClean_elements p)]

theorem spread_push_le (rooted : Bool) (es : List Text) (e : Text) :
    Text.spread (push rooted es e) ≤ Text.spread es + (e.length + 1) := by
  unfold push
  split
  · omega
  · split
    · next hup =>
        have he : e = dotDot := by simpa using hup
        rw [he]
        cases es with
        | nil => cases rooted <;> simp [dotDot]
        | cons last before =>
            dsimp only
            split
            · rw [Text.spread_cons]
              omega
            · rw [Text.spread_cons]
              omega
    · rw [Text.spread_cons]
      omega

theorem spread_foldl_push_le (rooted : Bool) (es pieces : List Text) :
    Text.spread (pieces.foldl (push rooted) es) ≤ Text.spread es + Text.spread pieces := by
  induction pieces generalizing es with
  | nil => simp
  | cons e rest ih =>
      have hrest := ih (push rooted es e)
      have hpush := spread_push_le rooted es e
      rw [List.foldl_cons, Text.spread_cons]
      omega

theorem spread_reverse (es : List Text) : Text.spread es.reverse = Text.spread es := by
  simp [Text.spread, List.sum_reverse]

/-- Cleaning makes no path longer but the empty one. -/
theorem length_clean_le (hp : p ≠ []) : (clean p).length ≤ p.length := by
  obtain ⟨c, rest, rfl⟩ := List.exists_cons_of_ne_nil hp
  unfold clean ofElements
  by_cases habsolute : isAbsolute (c :: rest) = true
  · -- The empty piece in front of the first slash pays for the slash in front.
    rw [if_pos habsolute]
    have hc : c = slash := by simpa [isAbsolute] using habsolute
    have hspread : Text.spread (elements (c :: rest)) ≤ rest.length + 1 := by
      have hsplit : Text.splitAt slash (c :: rest) = [] :: Text.splitAt slash rest := by
        rw [hc]
        exact Text.splitAt_append (t := []) (by simp) rest
      rw [elements, spread_reverse, hsplit, List.foldl_cons, ← Text.spread_splitAt slash rest]
      have hskip : push (isAbsolute (c :: rest)) [] [] = [] := rfl
      simpa [hskip] using spread_foldl_push_le (isAbsolute (c :: rest)) []
        (Text.splitAt slash rest)
    by_cases hes : elements (c :: rest) = []
    · simp [hes, Text.join]
    · have := Text.length_join slash hes
      simp only [List.length_cons]
      omega
  · rw [if_neg habsolute]
    have hspread : Text.spread (elements (c :: rest)) ≤ (c :: rest).length + 1 := by
      rw [elements, spread_reverse, ← Text.spread_splitAt slash (c :: rest)]
      simpa using spread_foldl_push_le (isAbsolute (c :: rest)) []
        (Text.splitAt slash (c :: rest))
    by_cases hes : elements (c :: rest) = []
    · simp [hes, dot]
    · have := Text.length_join slash hes
      rw [if_neg (by simpa using hes)]
      omega

theorem isAbsolute_join {workingDir : Text} (h : isAbsolute workingDir = true) (p : Text) :
    ∃ q, join [workingDir, p] = clean q ∧ isAbsolute q = true := by
  cases workingDir with
  | nil => simp [isAbsolute] at h
  | cons c dir =>
      have hjoin : join [c :: dir, p] = clean (Text.join [slash] [c :: dir, p]) := rfl
      exact ⟨_, hjoin, by simpa [isAbsolute, Text.join] using h⟩

/-- An absolute working directory makes every path absolute and clean. -/
theorem exists_absolute_eq {workingDir : Text} (h : isAbsolute workingDir = true) (p : Text) :
    ∃ q, absolute workingDir p = clean q ∧ isAbsolute q = true := by
  unfold absolute
  by_cases hp : isAbsolute p = true
  · rw [if_pos hp]
    exact ⟨p, rfl, hp⟩
  · rw [if_neg hp]
    exact isAbsolute_join h p

end Path

end Splice

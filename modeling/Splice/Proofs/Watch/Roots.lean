import Splice.Proofs.Path.Below
import Splice.Watch.Watcher

/-!
# Watched roots

A path covers another one if its elements are the first elements of the other.  Every path is
covered by one of the roots that are kept for it, every root is one of the paths, and no root
covers an earlier one.  A root may still lie within an earlier one: a path that covers two
roots at once takes the place of the first and leaves the second.  Roots are nested exactly if
that happens (`Watch.roots_separate_iff`).
-/

namespace Splice

namespace Path

variable {a b p root : Text}

/-- A path covers itself and everything below it. -/
def Covers (root p : Text) : Prop := elements root <+: elements p

theorem Covers.refl (p : Text) : Covers p p := List.prefix_rfl

theorem Covers.trans (h : Covers a b) (h' : Covers b p) : Covers a p := List.IsPrefix.trans h h'

theorem Covers.comparable (h : Covers a p) (h' : Covers b p) : Covers a b ∨ Covers b a :=
  List.prefix_or_prefix_of_prefix h h'

@[simp] theorem covers_clean_left : Covers (clean a) b ↔ Covers a b := by
  rw [Covers, elements_clean]
  exact Iff.rfl

@[simp] theorem covers_clean_right : Covers a (clean b) ↔ Covers a b := by
  rw [Covers, elements_clean]
  exact Iff.rfl

instance (root p : Text) : Decidable (Covers root p) :=
  inferInstanceAs (Decidable (elements root <+: elements p))

theorem dropCommon_spec (as bs : List Text) :
    ∃ common, as = common ++ (dropCommon as bs).1 ∧ bs = common ++ (dropCommon as bs).2 := by
  fun_induction dropCommon as bs with
  | case1 a as b bs heq ih =>
      obtain ⟨common, has, hbs⟩ := ih
      have hab : a = b := by simpa using heq
      refine ⟨a :: common, ?_, ?_⟩
      · rw [List.cons_append, ← has]
      · rw [List.cons_append, ← hbs, hab]
  | case2 a as b bs hne => exact ⟨[], rfl, rfl⟩
  | case3 as bs hcons => exact ⟨[], rfl, rfl⟩

theorem dropCommon_fst_eq_nil_iff (as bs : List Text) :
    (dropCommon as bs).1 = [] ↔ as <+: bs := by
  fun_induction dropCommon as bs with
  | case1 a as b bs heq ih =>
      rw [ih, List.cons_prefix_cons]
      simpa using fun _ => heq
  | case2 a as b bs hne =>
      rw [List.cons_prefix_cons]
      simpa using fun heq => absurd heq (by simpa using hne)
  | case3 as bs hcons =>
      cases as with
      | nil => simp
      | cons a as =>
          cases bs with
          | nil => simp
          | cons b bs => exact absurd rfl (hcons a as b bs rfl)

/-- A path that starts with `..` starts with this element. -/
theorem climbs_join_iff {es : List Text} (hslash : ∀ e ∈ es, slash ∉ e) (hne : es ≠ []) :
    (Text.join [slash] es = dotDot ∨ dotDot ++ [slash] <+: Text.join [slash] es) ↔
      es.head? = some dotDot := by
  have hsplit := Text.splitAt_join hslash hne
  constructor
  · rintro (hself | ⟨rest, hrest⟩)
    · rw [hself] at hsplit
      rw [← hsplit]
      decide
    · have hfront := Text.splitAt_append (b := slash) (t := dotDot) (by decide) rest
      rw [← hrest, List.append_assoc, List.singleton_append, hfront] at hsplit
      rw [← hsplit]
      rfl
  · intro hhead
    cases es with
    | nil => exact absurd rfl hne
    | cons e rest =>
        obtain rfl : e = dotDot := by simpa using hhead
        cases rest with
        | nil => exact Or.inl rfl
        | cons x rest => exact Or.inr ⟨Text.join [slash] (x :: rest), rfl⟩

/-- The elements of the path from one absolute path to another one. -/
def way (root p : Text) : List Text :=
  (dropCommon (elements root) (elements p)).1.map (fun _ => dotDot) ++
    (dropCommon (elements root) (elements p)).2

theorem relative?_eq (hroot : isAbsolute root = true) (hp : isAbsolute p = true)
    (hne : clean root ≠ clean p) : relative? root p = some (Text.join [slash] (way root p)) := by
  have hdot : (clean p == dot) = false := by
    apply beq_false_of_ne
    intro heq
    have habsolute := isAbsolute_clean p
    rw [heq, hp] at habsolute
    cases habsolute
  obtain ⟨common, hcommon, -⟩ := dropCommon_spec (elements root) (elements p)
  have hup : dotDot ∉ (dropCommon (elements root) (elements p)).1 := by
    intro hmem
    apply dotDot_not_mem_elements hroot
    rw [hcommon]
    exact List.mem_append_right common hmem
  unfold relative? way
  rw [if_neg (by simpa using hne), if_neg (by simp [hroot, hp])]
  simp only [hdot, Bool.false_eq_true, if_false]
  split
  · next first up x down hfirst hx =>
      have hclimb : (first == dotDot) = false := by
        apply beq_false_of_ne
        rintro rfl
        exact hup (hfirst ▸ List.mem_cons_self)
      rw [hclimb, if_neg (by decide), hfirst, hx]
  · rfl

/-- One path lies within another one if it is the other one or below it. -/
theorem isWithin_iff (hroot : isAbsolute root = true) (hp : isAbsolute p = true) :
    isWithin p root = true ↔ Covers root p := by
  by_cases heq : clean root = clean p
  · have hsame : relative? root p = some dot := by
      unfold relative?
      rw [if_pos (by simpa using heq)]
    rw [isWithin, hsame, Covers, (clean_eq_clean_iff.mp heq).2]
    simp only [List.prefix_rfl, iff_true]
    decide
  obtain ⟨common, hcommon, hcommon'⟩ := dropCommon_spec (elements root) (elements p)
  have hslash : ∀ e ∈ way root p, slash ∉ e := by
    intro e he
    rcases List.mem_append.mp he with hup | hdown
    · obtain ⟨-, -, rfl⟩ := List.mem_map.mp hup
      decide
    · apply (isClean_elements p).slash_not_mem
      rw [List.mem_reverse, hcommon']
      exact List.mem_append_right common hdown
  have hway : way root p ≠ [] := by
    intro hnil
    obtain ⟨hup, hdown⟩ := List.append_eq_nil_iff.mp hnil
    rw [List.map_eq_nil_iff] at hup
    rw [hup] at hcommon
    rw [hdown] at hcommon'
    exact heq (clean_eq_clean_iff.mpr ⟨hroot.trans hp.symm, hcommon.trans hcommon'.symm⟩)
  have hhead : (way root p).head? = some dotDot ↔
      (dropCommon (elements root) (elements p)).1 ≠ [] := by
    unfold way
    cases hup : (dropCommon (elements root) (elements p)).1 with
    | cons e up => simp
    | nil =>
        -- What is left of an absolute path does not climb.
        simp only [List.map_nil, List.nil_append, ne_eq, not_true_eq_false, iff_false]
        intro hdown
        apply dotDot_not_mem_elements hp
        rw [hcommon']
        exact List.mem_append_right common (List.mem_of_mem_head? hdown)
  have hclimbs := climbs_join_iff hslash hway
  rw [Covers, ← dropCommon_fst_eq_nil_iff, ← not_iff_not, ← ne_eq (dropCommon _ _).1, ← hhead,
    ← hclimbs, isWithin, relative?_eq hroot hp heq]
  simp only [Text.startsWith, Bool.and_eq_true, bne_iff_ne, ne_eq, Bool.not_eq_true',
    not_and_or, not_not, Bool.not_eq_false, List.isPrefixOf_iff_prefix]

end Path

namespace Watch

variable {found now paths : List Text} {a b p : Text}

/-- The roots before and after a path is added to them: it lies within a root, or takes the place
of the first root within it, or has to do with none of them and is put at the end. -/
inductive Added (p : Text) : List Text → List Text → Prop where
  | within {found : List Text} {root : Text} (hroot : root ∈ found)
      (hover : Path.Covers root p) : Added p found found
  | replaces {before after : List Text} {root : Text} (hunder : Path.Covers p root)
      (hover : ¬Path.Covers root p)
      (hapart : ∀ x ∈ before, ¬Path.Covers x p ∧ ¬Path.Covers p x) :
      Added p (before ++ root :: after) (before ++ p :: after)
  | last {found : List Text} (hapart : ∀ x ∈ found, ¬Path.Covers x p ∧ ¬Path.Covers p x) :
      Added p found (found ++ [p])

theorem Added.cons (h : Added p found now) {root : Text}
    (hroot : ¬Path.Covers root p ∧ ¬Path.Covers p root) :
    Added p (root :: found) (root :: now) := by
  cases h with
  | within hmem hover => exact .within (List.mem_cons_of_mem root hmem) hover
  | @replaces before after x hunder hover hapart =>
      rw [← List.cons_append, ← List.cons_append]
      exact .replaces hunder hover (List.forall_mem_cons.mpr ⟨hroot, hapart⟩)
  | last hapart =>
      rw [← List.cons_append]
      exact .last (List.forall_mem_cons.mpr ⟨hroot, hapart⟩)

theorem added_addRoot (hp : Path.isAbsolute p = true)
    (hfound : ∀ root ∈ found, Path.isAbsolute root = true) : Added p found (addRoot p found) := by
  induction found with
  | nil => exact .last fun x hx => nomatch hx
  | cons root rest ih =>
      have hroot := hfound root List.mem_cons_self
      have hwithin := Path.isWithin_iff hroot hp
      have hwithin' := Path.isWithin_iff hp hroot
      rw [addRoot]
      by_cases hover : Path.Covers root p
      · rw [if_pos (hwithin.mpr hover)]
        exact .within List.mem_cons_self hover
      rw [if_neg fun h => hover (hwithin.mp h)]
      by_cases hunder : Path.Covers p root
      · rw [if_pos (hwithin'.mpr hunder)]
        have hapart : ∀ x ∈ ([] : List Text), ¬Path.Covers x p ∧ ¬Path.Covers p x :=
          fun x hx => nomatch hx
        exact .replaces hunder hover hapart
      rw [if_neg fun h => hunder (hwithin'.mp h)]
      exact (ih fun x hx => hfound x (List.mem_cons_of_mem root hx)).cons ⟨hover, hunder⟩

theorem Added.exists_covers (h : Added p found now) : ∃ root ∈ now, Path.Covers root p := by
  cases h with
  | within hroot hover => exact ⟨_, hroot, hover⟩
  | replaces hunder hover hapart => exact ⟨p, by simp, .refl p⟩
  | last hapart => exact ⟨p, by simp, .refl p⟩

/-- What a root covered stays covered. -/
theorem Added.keeps (h : Added p found now) {root : Text} (hroot : root ∈ found) :
    ∃ x ∈ now, Path.Covers x root := by
  cases h with
  | within _ hover => exact ⟨root, hroot, .refl root⟩
  | @replaces before after x hunder hover hapart =>
      rcases List.mem_append.mp hroot with hbefore | hmem
      · exact ⟨root, List.mem_append_left _ hbefore, .refl root⟩
      rcases List.mem_cons.mp hmem with rfl | hafter
      · exact ⟨p, by simp, hunder⟩
      · exact ⟨root, by simp [hafter], .refl root⟩
  | last hapart => exact ⟨root, List.mem_append_left [p] hroot, .refl root⟩

theorem Added.eq_or_mem (h : Added p found now) {x : Text} (hx : x ∈ now) : x = p ∨ x ∈ found := by
  cases h with
  | within _ hover => exact Or.inr hx
  | replaces hunder hover hapart =>
      simp only [List.mem_append, List.mem_cons] at hx ⊢
      tauto
  | last hapart => exact (List.mem_append.mp hx).symm.imp_left List.mem_singleton.mp

/-- No root covers an earlier one. -/
def Ordered (found : List Text) : Prop :=
  found.Pairwise fun earlier root => ¬Path.Covers root earlier

theorem Added.ordered (h : Added p found now) (hfound : Ordered found) : Ordered now := by
  cases h with
  | within hroot hover => exact hfound
  | @replaces before after root hunder hover hapart =>
      obtain ⟨hbefore, hrest, hacross⟩ := List.pairwise_append.mp hfound
      obtain ⟨hroot, hafter⟩ := List.pairwise_cons.mp hrest
      refine List.pairwise_append.mpr ⟨hbefore, List.pairwise_cons.mpr ⟨?_, hafter⟩, ?_⟩
      · intro x hx hcovers
        exact hroot x hx (hcovers.trans hunder)
      · intro x hx
        refine List.forall_mem_cons.mpr ⟨(hapart x hx).2, ?_⟩
        exact fun y hy => hacross x hx y (List.mem_cons_of_mem root hy)
  | last hapart =>
      refine List.pairwise_append.mpr ⟨hfound, List.pairwise_singleton _ p, ?_⟩
      intro x hx
      exact List.forall_mem_singleton.mpr (hapart x hx).2

/-! ## Nested roots -/

/-- No two of some roots are equal or lie within one another. -/
def Separate (found : List Text) : Prop :=
  found.Pairwise fun a b => ¬Path.Covers a b ∧ ¬Path.Covers b a

instance (found : List Text) : Decidable (Separate found) :=
  inferInstanceAs (Decidable (found.Pairwise _))

theorem Separate.eq_of_covers (h : Separate found) (ha : a ∈ found) (hb : b ∈ found)
    (hab : Path.Covers a b) : a = b := by
  have hsymm : Std.Symm fun a b => ¬Path.Covers a b ∧ ¬Path.Covers b a := ⟨fun _ _ h => h.symm⟩
  by_contra hne
  exact (h.forall ha hb hne).1 hab

/-- Roots stay separate unless two of them lie within the path that is added. -/
theorem Added.separate_iff (h : Added p found now) :
    Separate now ↔
      Separate found ∧ ∀ a ∈ found, ∀ b ∈ found, Path.Covers p a → Path.Covers p b → a = b := by
  cases h with
  | @within _ root hroot hover =>
      refine ⟨fun hnow => ⟨hnow, fun a ha b hb hpa hpb => ?_⟩, And.left⟩
      exact (hnow.eq_of_covers hroot ha (hover.trans hpa)).symm.trans
        (hnow.eq_of_covers hroot hb (hover.trans hpb))
  | @replaces before after root hunder hover hapart =>
      have hfar : ∀ {x : Text}, ¬Path.Covers x p ∧ ¬Path.Covers p x →
          ¬Path.Covers x root ∧ ¬Path.Covers root x := by
        rintro x ⟨hxp, hpx⟩
        refine ⟨fun hx => ?_, fun hx => hpx (hunder.trans hx)⟩
        exact (hx.comparable hunder).elim hxp hpx
      constructor
      · intro hnow
        obtain ⟨hbefore, hrest, hacross⟩ := List.pairwise_append.mp hnow
        obtain ⟨hp, hafter⟩ := List.pairwise_cons.mp hrest
        have hone : ∀ x ∈ before ++ root :: after, Path.Covers p x → x = root := by
          intro x hx hpx
          simp only [List.mem_append, List.mem_cons] at hx
          rcases hx with hx | rfl | hx
          · exact absurd hpx (hapart x hx).2
          · rfl
          · exact absurd hpx (hp x hx).1
        refine ⟨?_, fun a ha b hb hpa hpb => (hone a ha hpa).trans (hone b hb hpb).symm⟩
        refine List.pairwise_append.mpr ⟨hbefore, List.pairwise_cons.mpr ⟨?_, hafter⟩, ?_⟩
        · exact fun x hx => (hfar (hp x hx).symm).symm
        · intro x hx
          refine List.forall_mem_cons.mpr ⟨hfar (hapart x hx), ?_⟩
          exact fun y hy => hacross x hx y (List.mem_cons_of_mem p hy)
      · rintro ⟨hfound, hone⟩
        obtain ⟨hbefore, hrest, hacross⟩ := List.pairwise_append.mp hfound
        obtain ⟨hroot, hafter⟩ := List.pairwise_cons.mp hrest
        refine List.pairwise_append.mpr ⟨hbefore, List.pairwise_cons.mpr ⟨?_, hafter⟩, ?_⟩
        · refine fun x hx => ⟨fun hpx => ?_, fun hxp => (hroot x hx).2 (hxp.trans hunder)⟩
          have heq : x = root := hone x (by simp [hx]) root (by simp) hpx hunder
          exact (hroot x hx).1 (heq ▸ .refl x)
        · intro x hx
          refine List.forall_mem_cons.mpr ⟨hapart x hx, ?_⟩
          exact fun y hy => hacross x hx y (List.mem_cons_of_mem root hy)
  | last hapart =>
      constructor
      · intro hnow
        refine ⟨(List.pairwise_append.mp hnow).1, fun a ha b hb hpa => ?_⟩
        exact absurd hpa (hapart a ha).2
      · rintro ⟨hfound, -⟩
        refine List.pairwise_append.mpr ⟨hfound, List.pairwise_singleton _ p, ?_⟩
        intro x hx
        exact List.forall_mem_singleton.mpr (hapart x hx)

/-- Two earlier paths within a path lie within an earlier path already. -/
def JoinsNone (earlier : List Text) (p : Text) : Prop :=
  ∀ a ∈ earlier, ∀ b ∈ earlier, Path.Covers p a → Path.Covers p b →
    ∃ c ∈ earlier, Path.Covers c a ∧ Path.Covers c b

/-- No path brings together earlier ones that lay apart. -/
def NeverJoins (paths : List Text) : Prop :=
  ∀ before p after, paths = before ++ p :: after → JoinsNone before p

theorem neverJoins_nil : NeverJoins [] := by
  intro before p after h
  exact absurd h (by simp)

theorem neverJoins_concat : NeverJoins (paths ++ [p]) ↔ NeverJoins paths ∧ JoinsNone paths p := by
  constructor
  · intro h
    refine ⟨fun before q after hpaths => h before q (after ++ [p]) ?_, h paths p [] rfl⟩
    rw [hpaths, List.append_assoc, List.cons_append]
  · rintro ⟨hpaths, hp⟩ before q after heq
    rcases List.eq_nil_or_concat after with rfl | ⟨front, x, rfl⟩
    · obtain ⟨rfl, hq⟩ := List.append_inj' heq rfl
      rw [← List.singleton_inj.mp hq]
      exact hp
    · rw [List.concat_eq_append, ← List.cons_append, ← List.append_assoc] at heq
      exact hpaths before q front (List.append_inj' heq rfl).1

/-- What is known of the roots for some paths. -/
structure RootsFor (paths found : List Text) : Prop where
  covered : ∀ p ∈ paths, ∃ root ∈ found, Path.Covers root p
  given : ∀ root ∈ found, ∃ p ∈ paths, root = Path.clean p
  ordered : Ordered found
  separate_iff : Separate found ↔ NeverJoins paths

theorem RootsFor.nil : RootsFor [] [] where
  covered _ hp := nomatch hp
  given _ hroot := nomatch hroot
  ordered := .nil
  separate_iff := ⟨fun _ => neverJoins_nil, fun _ => .nil⟩

/-- A path joins paths exactly if it covers two of their roots. -/
theorem RootsFor.joinsNone_iff (h : RootsFor paths found) (hseparate : Separate found) :
    JoinsNone paths p ↔
      ∀ a ∈ found, ∀ b ∈ found, Path.Covers p a → Path.Covers p b → a = b := by
  constructor
  · intro hnone a ha b hb hpa hpb
    obtain ⟨x, hx, rfl⟩ := h.given a ha
    obtain ⟨y, hy, rfl⟩ := h.given b hb
    obtain ⟨c, hc, hcx, hcy⟩ := hnone x hx y hy (Path.covers_clean_right.mp hpa)
      (Path.covers_clean_right.mp hpb)
    obtain ⟨root, hroot, hcovers⟩ := h.covered c hc
    have hrx : Path.Covers root (Path.clean x) := Path.covers_clean_right.mpr (hcovers.trans hcx)
    have hry : Path.Covers root (Path.clean y) := Path.covers_clean_right.mpr (hcovers.trans hcy)
    exact (hseparate.eq_of_covers hroot ha hrx).symm.trans (hseparate.eq_of_covers hroot hb hry)
  · intro hone x hx y hy hpx hpy
    -- A root over one of the two paths that is not below `p` is over `p`, and so over both.
    obtain ⟨a, ha, hax⟩ := h.covered x hx
    obtain ⟨b, hb, hby⟩ := h.covered y hy
    obtain ⟨u, hu, hau⟩ := h.given a ha
    obtain ⟨v, hv, hbv⟩ := h.given b hb
    rw [hau, Path.covers_clean_left] at hax
    rw [hbv, Path.covers_clean_left] at hby
    rcases hax.comparable hpx with hup | hpu
    · exact ⟨u, hu, hax, hup.trans hpy⟩
    rcases hby.comparable hpy with hvp | hpv
    · exact ⟨v, hv, hvp.trans hpx, hby⟩
    have heq : a = b := by
      apply hone a ha b hb
      · rwa [hau, Path.covers_clean_right]
      · rwa [hbv, Path.covers_clean_right]
    refine ⟨u, hu, hax, ?_⟩
    rwa [← Path.covers_clean_left, ← hau, heq, hbv, Path.covers_clean_left]

theorem RootsFor.add (h : RootsFor paths found)
    (hpaths : ∀ q ∈ paths, Path.isAbsolute q = true) (hp : Path.isAbsolute p = true) :
    RootsFor (paths ++ [p]) (addRoot (Path.clean p) found) := by
  have hadded : Added (Path.clean p) found (addRoot (Path.clean p) found) := by
    apply added_addRoot ((Path.isAbsolute_clean p).trans hp)
    intro root hroot
    obtain ⟨q, hq, rfl⟩ := h.given root hroot
    exact (Path.isAbsolute_clean q).trans (hpaths q hq)
  constructor
  · intro q hq
    rcases List.mem_append.mp hq with hq | hq
    · obtain ⟨root, hroot, hcovers⟩ := h.covered q hq
      obtain ⟨x, hx, hover⟩ := hadded.keeps hroot
      exact ⟨x, hx, hover.trans hcovers⟩
    · obtain ⟨x, hx, hover⟩ := hadded.exists_covers
      rw [List.mem_singleton.mp hq]
      exact ⟨x, hx, Path.covers_clean_right.mp hover⟩
  · intro root hroot
    rcases hadded.eq_or_mem hroot with rfl | hold
    · exact ⟨p, by simp, rfl⟩
    · obtain ⟨q, hq, heq⟩ := h.given root hold
      exact ⟨q, List.mem_append_left [p] hq, heq⟩
  · exact hadded.ordered h.ordered
  · rw [hadded.separate_iff, neverJoins_concat, ← h.separate_iff]
    simp only [Path.covers_clean_left]
    exact and_congr_right fun hseparate => (h.joinsNone_iff hseparate).symm

theorem rootsFor_roots (h : ∀ p ∈ paths, Path.isAbsolute p = true) :
    RootsFor paths (roots paths) := by
  induction paths using List.reverseRecOn with
  | nil => exact RootsFor.nil
  | append_singleton paths p ih =>
      have hpaths : ∀ q ∈ paths, Path.isAbsolute q = true := fun q hq =>
        h q (List.mem_append_left [p] hq)
      rw [roots, List.foldl_append]
      exact (ih hpaths).add hpaths (h p (by simp))

/-- The roots for absolute paths cover them all, each is one of the paths, and none covers an
earlier root or is equal to one.  They are separate exactly if no path joins earlier ones. -/
theorem roots_separate_iff (h : ∀ p ∈ paths, Path.isAbsolute p = true) :
    (∀ p ∈ paths, ∃ root ∈ roots paths, Path.Covers root p) ∧
      (∀ root ∈ roots paths, ∃ p ∈ paths, root = Path.clean p) ∧
      Ordered (roots paths) ∧ (Separate (roots paths) ↔ NeverJoins paths) := by
  have hroots := rootsFor_roots h
  exact ⟨hroots.covered, hroots.given, hroots.ordered, hroots.separate_iff⟩

def nestedPaths : List Text := ["/w/a/b", "/w/a/", "/w/c", "/w/ab", "/w/./c", "/w/c/d"]

theorem roots_separate_nested :
    (∀ p ∈ nestedPaths, Path.isAbsolute p = true) ∧
      roots nestedPaths = ["/w/a", "/w/c", "/w/ab"] ∧
      (∀ p ∈ nestedPaths, ∃ root ∈ roots nestedPaths, Path.Covers root p) ∧
      Separate (roots nestedPaths) ∧ NeverJoins nestedPaths := by
  have habsolute : ∀ p ∈ nestedPaths, Path.isAbsolute p = true := by decide +kernel
  obtain ⟨hcovered, -, -, hiff⟩ := roots_separate_iff habsolute
  have hseparate : Separate (roots nestedPaths) := by decide +kernel
  exact ⟨habsolute, by decide +kernel, hcovered, hseparate, hiff.mp hseparate⟩

/-- A directory behind two of its own takes the place of the first only. -/
theorem joined_roots_nested :
    (∀ p ∈ (["/a/b", "/a/c", "/a"] : List Text), Path.isAbsolute p = true) ∧
      roots ["/a/b", "/a/c", "/a"] = ["/a", "/a/c"] ∧ Path.Covers "/a" "/a/c" ∧
      ¬Separate (roots ["/a/b", "/a/c", "/a"]) := by
  decide +kernel

end Watch

end Splice

import Splice.Config.Paths
import Splice.Config.Validate
import Splice.Proofs.Path.Below

/-!
# Outputs that share a path

Checking a configuration compares the texts of its outputs, and a build writes to the paths that
these texts stand for below a root.  Two outputs that pass the check lead to one file below some
root exactly if they are two spellings of one path that differ by blanks around them, by one of
them being absolute, or by how far they climb (`outputs_differ_iff`).
-/

namespace Splice

namespace Path

variable {a b base : Text}

/-- Blanks around two paths are all in which they differ. -/
def PaddedAlike (a b : Text) : Prop :=
  (a.trim ≠ a ∨ b.trim ≠ b) ∧ clean a.trim = clean b.trim

/-- A path is absolute and ends like another one that is relative. -/
def EndsLike (a b : Text) : Prop :=
  isAbsolute a.trim = true ∧ isAbsolute b.trim = false ∧
    descent b.trim <:+ elements a.trim

/-- A relative path climbs further than another one, and comes down again to where that one
descends. -/
def Returns (a b : Text) : Prop :=
  isAbsolute a.trim = false ∧ isAbsolute b.trim = false ∧ climbs a.trim < climbs b.trim ∧
    descent a.trim <:+ descent b.trim ∧
    (descent b.trim).length ≤ (descent a.trim).length + (climbs b.trim - climbs a.trim)

/-- Two spellings can stand for one path. -/
def Meet (a b : Text) : Prop :=
  PaddedAlike a b ∨ EndsLike a b ∨ EndsLike b a ∨ Returns a b ∨ Returns b a

instance (a b : Text) : Decidable (PaddedAlike a b) := inferInstanceAs (Decidable (_ ∧ _))

instance (a b : Text) : Decidable (EndsLike a b) := inferInstanceAs (Decidable (_ ∧ _))

instance (a b : Text) : Decidable (Returns a b) := inferInstanceAs (Decidable (_ ∧ _))

instance (a b : Text) : Decidable (Meet a b) := inferInstanceAs (Decidable (_ ∨ _))

/-- A path is what it climbs and what it descends. -/
theorem elements_eq_replicate (p : Text) :
    elements p = List.replicate (climbs p) dotDot ++ descent p := by
  have hclimb : (elements p).takeWhile (· == dotDot) = List.replicate (climbs p) dotDot :=
    List.eq_replicate_of_mem fun x hx =>
      beq_iff_eq.mp (List.mem_takeWhile_imp (p := fun y : Text => y == dotDot) hx)
  rw [← hclimb, descent, List.takeWhile_append_dropWhile]

/-- Where one relative path climbs further, it comes down by what it climbs in excess. -/
theorem returns_of_rdrop_eq {es : List Text} (ha : isAbsolute a.trim = false)
    (hb : isAbsolute b.trim = false) (hlt : climbs a.trim < climbs b.trim)
    (h : es.rdrop (climbs a.trim) ++ descent a.trim = es.rdrop (climbs b.trim) ++ descent b.trim) :
    Returns a b := by
  set front := es.rdrop (climbs a.trim) with hfront
  have hshort : es.rdrop (climbs b.trim) = front.rdrop (climbs b.trim - climbs a.trim) := by
    rw [hfront, List.rdrop_add, Nat.add_sub_cancel' (Nat.le_of_lt hlt)]
  have hsplit : front.rdrop (climbs b.trim - climbs a.trim) ++
      front.drop (front.length - (climbs b.trim - climbs a.trim)) = front :=
    List.take_append_drop _ front
  rw [hshort] at h
  nth_rewrite 1 [← hsplit] at h
  rw [List.append_assoc] at h
  have hdescent := List.append_cancel_left h
  refine ⟨ha, hb, hlt, ?_, ?_⟩
  · rw [← hdescent]
    exact List.suffix_append _ _
  · rw [← hdescent, List.length_append, List.length_drop]
    omega

theorem meet_of_resolve_eq (hbase : isAbsolute base = true) (hclean : clean a ≠ clean b)
    (h : resolve base a = resolve base b) : Meet a b := by
  have hpadded : clean a.trim = clean b.trim → PaddedAlike a b := by
    refine fun heq => ⟨?_, heq⟩
    by_contra hsame
    rw [not_or, not_not, not_not] at hsame
    rw [hsame.1, hsame.2] at heq
    exact hclean heq
  rw [resolve_eq_iff hbase, elements_resolve hbase, elements_resolve hbase] at h
  cases ha : isAbsolute a.trim with
  | true =>
      rw [ha, if_pos rfl] at h
      cases hb : isAbsolute b.trim with
      | true =>
          rw [hb, if_pos rfl] at h
          exact .inl (hpadded (clean_eq_clean_iff.mpr ⟨by rw [ha, hb], h⟩))
      | false =>
          rw [hb, if_neg (by decide)] at h
          exact .inr (.inl ⟨ha, hb, by rw [h]; exact List.suffix_append _ _⟩)
  | false =>
      rw [ha, if_neg (by decide)] at h
      cases hb : isAbsolute b.trim with
      | true =>
          rw [hb, if_pos rfl] at h
          exact .inr (.inr (.inl ⟨hb, ha, by rw [← h]; exact List.suffix_append _ _⟩))
      | false =>
          rw [hb, if_neg (by decide)] at h
          rcases Nat.lt_trichotomy (climbs a.trim) (climbs b.trim) with hlt | heq | hgt
          · exact .inr (.inr (.inr (.inl (returns_of_rdrop_eq ha hb hlt h))))
          · rw [heq] at h
            have helements : elements a.trim = elements b.trim := by
              rw [elements_eq_replicate, elements_eq_replicate b.trim, heq,
                List.append_cancel_left h]
            exact .inl (hpadded (clean_eq_clean_iff.mpr ⟨by rw [ha, hb], helements⟩))
          · exact .inr (.inr (.inr (.inr (returns_of_rdrop_eq hb ha hgt h.symm))))

theorem isPlain_of_mem_descent {p e : Text} (hp : isAbsolute p = false) (he : e ∈ descent p) :
    IsPlain e := by
  refine isPlain_of_mem_elements ((List.dropWhile_suffix _).subset he) ?_
  rintro rfl
  exact dotDot_not_mem_descent hp he

/-- A name that fills up a root. -/
theorem isPlain_filler : IsPlain [120] := by
  refine ⟨?_, ?_, ?_, ?_⟩ <;> decide

theorem rdrop_append_replicate (front : List Text) (n : Nat) (e : Text) :
    (front ++ List.replicate n e).rdrop n = front := by
  have hdrop := @List.rdrop_append_length _ front (List.replicate n e)
  rwa [List.length_replicate] at hdrop

/-- There is a root with any plain elements at its front and any number of others behind them. -/
theorem exists_base_filled {front : List Text} (h : ∀ e ∈ front, IsPlain e) (n : Nat) :
    ∃ base, isAbsolute base = true ∧ clean base = base ∧
      elements base = front ++ List.replicate n [120] := by
  refine exists_base fun e he => ?_
  rcases List.mem_append.mp he with he | he
  · exact h e he
  · rw [List.eq_of_mem_replicate he]
    exact isPlain_filler

theorem exists_resolve_eq_of_endsLike (h : EndsLike a b) :
    ∃ base, isAbsolute base = true ∧ clean base = base ∧ resolve base a = resolve base b := by
  obtain ⟨ha, hb, front, hfront⟩ := h
  have hplain : ∀ e ∈ front, IsPlain e := by
    intro e he
    have hmem : e ∈ elements a.trim := by
      rw [← hfront]
      exact List.mem_append_left _ he
    refine isPlain_of_mem_elements hmem ?_
    rintro rfl
    exact dotDot_not_mem_elements ha hmem
  obtain ⟨base, hbase, hclean, helements⟩ := exists_base_filled hplain (climbs b.trim)
  refine ⟨base, hbase, hclean, ?_⟩
  have hdrop : (front ++ List.replicate (climbs b.trim) [120]).rdrop (climbs b.trim) = front :=
    rdrop_append_replicate front _ _
  rw [resolve_eq_iff hbase, elements_resolve hbase, elements_resolve hbase, ha, hb, if_pos rfl,
    if_neg (by decide), helements, hdrop, hfront]

theorem exists_resolve_eq_of_returns (h : Returns a b) :
    ∃ base, isAbsolute base = true ∧ clean base = base ∧ resolve base a = resolve base b := by
  obtain ⟨ha, hb, hlt, ⟨excess, hexcess⟩, hlength⟩ := h
  have hplain : ∀ e ∈ excess, IsPlain e := by
    intro e he
    refine isPlain_of_mem_descent hb ?_
    rw [← hexcess]
    exact List.mem_append_left _ he
  obtain ⟨base, hbase, hclean, helements⟩ := exists_base_filled hplain (climbs a.trim)
  refine ⟨base, hbase, hclean, ?_⟩
  have hdrop : (excess ++ List.replicate (climbs a.trim) [120]).rdrop (climbs a.trim) = excess :=
    rdrop_append_replicate excess _ _
  have hnone : (excess ++ List.replicate (climbs a.trim) ([120] : Text)).rdrop (climbs b.trim) =
      [] := by
    rw [← hexcess, List.length_append] at hlength
    rw [List.rdrop, List.length_append, List.length_replicate, List.take_eq_nil_iff]
    left
    omega
  rw [resolve_eq_iff hbase, elements_resolve hbase, elements_resolve hbase, ha, hb,
    if_neg (by decide), if_neg (by decide), helements, hdrop, hnone, hexcess, List.nil_append]

/-- Spellings that can stand for one path do so below some root. -/
theorem exists_resolve_eq_of_meet (h : Meet a b) :
    ∃ base, isAbsolute base = true ∧ clean base = base ∧ resolve base a = resolve base b := by
  have hswap : (∃ base, isAbsolute base = true ∧ clean base = base ∧
      resolve base b = resolve base a) → ∃ base, isAbsolute base = true ∧ clean base = base ∧
      resolve base a = resolve base b := by
    rintro ⟨base, hbase, hclean, heq⟩
    exact ⟨base, hbase, hclean, heq.symm⟩
  rcases h with ⟨-, hclean⟩ | hends | hends | hreturns | hreturns
  · obtain ⟨habsolute, helements⟩ := clean_eq_clean_iff.mp hclean
    refine ⟨[slash], rfl, by decide, ?_⟩
    rw [resolve_eq_iff rfl, elements_resolve rfl, elements_resolve rfl, climbs, climbs, descent,
      descent, habsolute, helements]
  · exact exists_resolve_eq_of_endsLike hends
  · exact hswap (exists_resolve_eq_of_endsLike hends)
  · exact exists_resolve_eq_of_returns hreturns
  · exact hswap (exists_resolve_eq_of_returns hreturns)

end Path

/-! ## Checked outputs -/

namespace Config

variable {c : Config} {workingDir : Text} {readPattern : PatternReader}

def outputs (c : Config) : List Text :=
  [c.output.path, c.output.disasm, c.output.symbolMap].filter fun t => !t.isEmpty

/-- The paths that a build writes the configured outputs to. -/
def targets (c : Config) (p : ProjectPaths) : List Text :=
  ([(c.output.path, p.output), (c.output.disasm, p.disasm),
    (c.output.symbolMap, p.symbolMap)].filter fun x => !x.1.isEmpty).map (·.2)

theorem targets_eq {root : Text} {p : ProjectPaths} (h : c.paths workingDir root = .ok p) :
    c.targets p = c.outputs.map (Path.resolve (Path.absolute workingDir root)) := by
  let base := Path.absolute workingDir root
  let pairs := [(c.output.path, p.output), (c.output.disasm, p.disasm),
    (c.output.symbolMap, p.symbolMap)]
  have hpairs : ∀ x ∈ pairs, (!x.1.isEmpty) = true → x.2 = Path.resolve base x.1 := by
    rw [paths] at h
    split at h
    · cases h
    obtain rfl := Except.ok.inj h
    simp only [pairs, List.forall_mem_cons, Bool.not_eq_true']
    refine ⟨fun _ => rfl, fun hdisasm => ?_, fun _ => rfl, by simp⟩
    rw [hdisasm, if_neg (by decide)]
  have hsecond : (pairs.filter fun x => !x.1.isEmpty).map (·.2) =
      (pairs.filter fun x => !x.1.isEmpty).map fun x => Path.resolve base x.1 := by
    refine List.map_congr_left fun x hx => ?_
    obtain ⟨hx, hgiven⟩ := List.mem_filter.mp hx
    exact hpairs x hx hgiven
  have hfirst : c.outputs = (pairs.filter fun x => !x.1.isEmpty).map (·.1) := by
    have htexts : [c.output.path, c.output.disasm, c.output.symbolMap] = pairs.map (·.1) := rfl
    rw [outputs, htexts, List.filter_map]
    rfl
  rw [hfirst, List.map_map]
  exact hsecond

/-- An absolute root is not blank. -/
theorem exists_paths_eq (c : Config) (workingDir : Text) {root : Text}
    (h : Path.isAbsolute root = true) : ∃ p, c.paths workingDir root = .ok p := by
  cases root with
  | nil => cases h
  | cons b rest =>
      obtain rfl : b = Path.slash := by simpa [Path.isAbsolute] using h
      have hhead : (Text.trim (Path.slash :: rest)).head? = some Path.slash :=
        Text.head?_trim (by decide) (by decide)
      have hblank : Text.isAllBlank (Path.slash :: rest) = false := by
        rw [Text.isAllBlank]
        cases htrim : Text.trim (Path.slash :: rest) with
        | nil =>
            rw [htrim] at hhead
            cases hhead
        | cons x more => rfl
      rw [paths, hblank, if_neg (by decide)]
      exact ⟨_, rfl⟩

/-- Among checked outputs no two texts have one cleaned form. -/
theorem pairwise_of_checkDistinct {seen rest : List (Text × Text)}
    (h : checkDistinct seen rest = .ok ()) :
    ((rest.map (·.2)).filter fun t => !t.isEmpty).Pairwise
        (fun a b => Path.clean a ≠ Path.clean b) ∧
      ∀ t ∈ (rest.map (·.2)).filter fun t => !t.isEmpty, ∀ x ∈ seen, x.1 ≠ Path.clean t := by
  induction rest generalizing seen with
  | nil => simp
  | cons first rest ih =>
      obtain ⟨key, path⟩ := first
      rw [checkDistinct] at h
      cases hempty : path.isEmpty with
      | true =>
          rw [hempty, if_pos rfl] at h
          rw [List.map_cons, List.filter_cons_of_neg (by simp [hempty])]
          exact ih h
      | false =>
          rw [hempty, if_neg (by decide)] at h
          rw [List.map_cons, List.filter_cons_of_pos (by simp [hempty])]
          cases hseen : seen.find? (·.1 == Path.clean path) with
          | some x =>
              rw [hseen] at h
              cases h
          | none =>
              rw [hseen] at h
              obtain ⟨hpairwise, hnew⟩ := ih h
              refine ⟨List.pairwise_cons.mpr ⟨fun t ht => ?_, hpairwise⟩, ?_⟩
              · exact hnew t ht _ (List.mem_append_right _ List.mem_cons_self)
              · intro t ht x hx
                rcases List.mem_cons.mp ht with rfl | ht
                · simpa using List.find?_eq_none.mp hseen x hx
                · exact hnew t ht x (List.mem_append_left _ hx)

theorem pairwise_of_complaints (h : c.complaints readPattern = []) :
    c.outputs.Pairwise fun a b => Path.clean a ≠ Path.clean b := by
  have houtput : checkOutput c = .ok () := by
    cases hcheck : checkOutput c with
    | ok done => rfl
    | error e =>
        rw [complaints, List.filterMap_eq_nil_iff] at h
        have hnone := h (checkOutput c) (by simp)
        rw [hcheck] at hnone
        cases hnone
  rw [checkOutput] at houtput
  split at houtput
  · cases houtput
  · exact (pairwise_of_checkDistinct houtput).1

/-- Below every root the outputs of a checked configuration are written to different paths exactly
if no two of them are spelled so that they can meet. -/
theorem outputs_differ_iff (hdir : Path.isAbsolute workingDir = true)
    (h : c.complaints readPattern = []) :
    (∀ root p, c.paths workingDir root = .ok p → (c.targets p).Nodup) ↔
      c.outputs.Pairwise fun a b => ¬Path.Meet a b := by
  constructor
  · intro hnodup
    rw [List.pairwise_iff_getElem]
    intro i j hi hj hij hmeet
    obtain ⟨base, hbase, hclean, heq⟩ := Path.exists_resolve_eq_of_meet hmeet
    have hplace : Path.absolute workingDir base = base := by
      rw [Path.absolute, if_pos hbase, hclean]
    obtain ⟨p, hp⟩ := exists_paths_eq c workingDir hbase
    have htargets := hnodup base p hp
    rw [targets_eq hp, hplace, List.Nodup, List.pairwise_map, List.pairwise_iff_getElem] at htargets
    exact htargets i j hi hj hij heq
  · intro hapart root p hp
    obtain ⟨q, hq, habsolute⟩ := Path.exists_absolute_eq hdir root
    have hbase : Path.isAbsolute (Path.absolute workingDir root) = true := by
      rw [hq, Path.isAbsolute_clean, habsolute]
    rw [targets_eq hp, List.Nodup, List.pairwise_map]
    refine ((pairwise_of_complaints h).and hapart).imp fun hab heq => ?_
    exact hab.2 (Path.meet_of_resolve_eq hbase hab.1 heq)

def withListing (disasm : Text) : Config :=
  { default with output := { default.output with disasm } }

theorem outputs_differ_listing :
    Path.isAbsolute "/" = true ∧ (withListing "out.txt").complaints = [] ∧
      ∀ root p, (withListing "out.txt").paths "/" root = .ok p →
        ((withListing "out.txt").targets p).Nodup := by
  have hcomplaints : (withListing "out.txt").complaints = [] := by decide +kernel
  refine ⟨by decide, hcomplaints, (outputs_differ_iff (by decide) hcomplaints).mpr ?_⟩
  decide +kernel

/-- A blank in front of the path of the listing lets it pass for another one than the path of the
program. -/
theorem padded_listing_collides :
    (withListing " out.wvb").complaints = [] ∧
      ∃ p, (withListing " out.wvb").paths "/" "/proj" = .ok p ∧ p.output = "/proj/out.wvb" ∧
        p.disasm = "/proj/out.wvb" := by
  refine ⟨by decide +kernel, _, rfl, ?_, ?_⟩
  · decide +kernel
  · decide +kernel

end Config

end Splice

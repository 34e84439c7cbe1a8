import Splice.Proofs.Action
import Splice.Proofs.Path.Parent

/-!
# Replacing files

On a disk that is a tree, what is found at a path is the node with its elements.  Making
directories adds nodes above a file, and a draft stands beside it: so a file that is not
replaced in the end has not changed at all, whether something on the disk stands in the way
or the system refuses one of the steps.
-/

namespace Splice

namespace Disk

variable {d d' : Disk} {es q : List Text} {e : Text} {n : DiskNode} {path content : Text}

theorem node?_eq_find? (h : es ≠ []) : d.node? es = (d.nodes.find? (·.1 == es)).map (·.2) :=
  if_neg (by simpa using h)

theorem node?_set_self (hes : es ≠ []) : (d.set es n).node? es = some n := by
  have hold : (d.nodes.filter (·.1 != es)).find? (·.1 == es) = none := by
    rw [List.find?_eq_none]
    intro x hx
    simpa using (List.mem_filter.mp hx).2
  rw [node?_eq_find? hes, set, List.find?_append, hold]
  simp

theorem node?_set_of_ne (h : q ≠ es) : (d.set es n).node? q = d.node? q := by
  by_cases hq : q = []
  · rw [hq]
    rfl
  · have hnew : [(es, n)].find? (fun x => x.1 == q) = none := by
      simpa using Ne.symm h
    rw [node?_eq_find? hq, node?_eq_find? hq, set, List.find?_append, hnew, Option.or_none,
      List.find?_filter]
    congr 2
    funext x
    by_cases hx : x.1 = q
    · simp [hx, h]
    · simp [hx]

/-- A disk is a tree: what stands above a node is a directory. -/
def IsTree (d : Disk) : Prop := ∀ x ∈ d.nodes, d.node? x.1.dropLast = some .directory

instance (d : Disk) : Decidable d.IsTree :=
  inferInstanceAs (Decidable (∀ x ∈ d.nodes, d.node? x.1.dropLast = some .directory))

theorem IsTree.parent (h : d.IsTree) (hn : d.node? (q ++ [e]) = some n) :
    d.node? q = some .directory := by
  rw [node?_eq_find? (by simp), Option.map_eq_some_iff] at hn
  obtain ⟨x, hx, -⟩ := hn
  have hparent := h x (List.mem_of_find?_eq_some hx)
  have hpath : x.1 = q ++ [e] := by simpa using List.find?_some hx
  rwa [hpath, List.dropLast_concat] at hparent

theorem IsTree.above (h : d.IsTree) (hn : d.node? (q ++ e :: es) = some n) :
    d.node? q = some .directory := by
  induction es using List.reverseRecOn generalizing n with
  | nil => exact h.parent hn
  | append_singleton es x ih =>
      rw [← List.cons_append, ← List.append_assoc] at hn
      exact ih (h.parent hn)

/-- A node in a directory may be set, unless it takes the place of a directory. -/
theorem IsTree.set (h : d.IsTree) (hparent : d.node? q = some .directory)
    (hn : n = .directory ∨ d.node? (q ++ [e]) ≠ some .directory) : (d.set (q ++ [e]) n).IsTree := by
  have hdirectory : ∀ es, d.node? es = some .directory →
      (d.set (q ++ [e]) n).node? es = some .directory := by
    intro es hes
    by_cases hsame : es = q ++ [e]
    · have hn' : n = .directory := hn.resolve_right fun hnot => hnot (hsame ▸ hes)
      rw [hsame, ← hn']
      exact node?_set_self (by simp)
    · rwa [node?_set_of_ne hsame]
  intro x hx
  rw [Disk.set, List.mem_append, List.mem_singleton] at hx
  rcases hx with hold | rfl
  · exact hdirectory _ (h x (List.mem_of_mem_filter hold))
  · rw [List.dropLast_concat]
    exact hdirectory _ hparent

def Usable (es : List Text) : Prop :=
  es.any (·.contains 0) = false ∧ (Path.ofElements true es).length < pathLimit ∧
    ∀ e ∈ es, e.length ≤ maxElement

theorem descend_eq_ok_iff (h : d.IsTree) :
    d.descend q es = .ok n ↔ (∀ e ∈ es, e.length ≤ maxElement) ∧ d.node? (q ++ es) = some n := by
  induction es generalizing q with
  | nil =>
      rw [descend, List.append_nil]
      cases d.node? q with
      | none => simp
      | some m => simp
  | cons e es ih =>
      have hchain : q ++ e :: es = (q ++ [e]) ++ es := by simp
      rw [descend]
      by_cases hq : d.node? q = some .directory
      · simp only [hq]
        by_cases he : maxElement < e.length
        · rw [if_pos he]
          simp only [List.mem_cons, forall_eq_or_imp, reduceCtorEq, false_iff, not_and]
          omega
        · rw [if_neg he, ih, hchain]
          simp only [List.mem_cons, forall_eq_or_imp, Nat.le_of_not_lt he, true_and]
      · have hnone : d.node? (q ++ e :: es) ≠ some n := fun hn => hq (h.above hn)
        simp only [hnone, and_false, iff_false]
        split
        · next hsome => exact absurd hsome hq
        · exact fun heq => by cases heq
        · exact fun heq => by cases heq

theorem find_eq_ok_iff (h : d.IsTree) : d.find es = .ok n ↔ Usable es ∧ d.node? es = some n := by
  rw [find, Usable]
  by_cases hzero : es.any (·.contains 0) = true
  · rw [if_pos hzero]
    simp only [hzero, reduceCtorEq, Bool.true_eq_false, false_and]
  · rw [if_neg hzero, Bool.eq_false_iff.mpr hzero]
    by_cases hlimit : pathLimit ≤ (Path.ofElements true es).length
    · rw [if_pos hlimit]
      simp only [reduceCtorEq, true_and, false_iff, not_and]
      omega
    · rw [if_neg hlimit, descend_eq_ok_iff h, List.nil_append]
      simp only [true_and, Nat.lt_of_not_le hlimit]

/-- On a tree, what is found at a path depends on nothing but its own node. -/
theorem toOption_find_congr (h : d.IsTree) (h' : d'.IsTree) (hn : d'.node? es = d.node? es) :
    (d'.find es).toOption = (d.find es).toOption := by
  have hmem : ∀ n, d'.find es = .ok n ↔ d.find es = .ok n := by
    intro n
    rw [find_eq_ok_iff h, find_eq_ok_iff h', hn]
  ext n
  rw [toOption_eq_some_iff, toOption_eq_some_iff, hmem]

/-- In any case, it depends on nothing but the nodes on the way. -/
theorem find_congr (h : ∀ q, q <+: es → d'.node? q = d.node? q) : d'.find es = d.find es := by
  have hdescend : ∀ rest q, q ++ rest = es → d'.descend q rest = d.descend q rest := by
    intro rest
    induction rest with
    | nil =>
        intro q hq
        rw [descend, descend, h q ⟨[], hq⟩]
    | cons e rest ih =>
        intro q hq
        rw [descend, descend, h q ⟨e :: rest, hq⟩, ih (q ++ [e]) (by simpa using hq)]
  rw [find, find, hdescend es [] rfl]

/-- Only the directories asked for are added. -/
theorem makeDirectoriesAt_eq_ok {forDeeper : Bool} {rev : List Text} (h : d.IsTree)
    (hmake : d.makeDirectoriesAt forDeeper rev = .ok d') :
    d'.IsTree ∧ d'.node? rev.reverse = some .directory ∧
      ∀ q, ¬q <+: rev.reverse → d'.node? q = d.node? q := by
  induction rev generalizing forDeeper d' with
  | nil =>
      cases hmake
      exact ⟨h, rfl, fun _ _ => rfl⟩
  | cons e above ih =>
      rw [makeDirectoriesAt] at hmake
      cases hfind : d.find (e :: above).reverse with
      | ok n =>
          rw [hfind] at hmake
          cases n with
          | directory =>
              cases hmake
              exact ⟨h, ((find_eq_ok_iff h).mp hfind).2, fun _ _ => rfl⟩
          | file content => cases hmake
          | names map => cases hmake
      | error fault =>
          simp only [hfind] at hmake
          cases hrec : d.makeDirectoriesAt true above with
          | error e =>
              rw [hrec] at hmake
              cases hmake
          | ok d₁ =>
              obtain ⟨htree, hparent, hsame⟩ := ih hrec
              rw [List.reverse_cons] at hfind ⊢
              have hnot : ¬above.reverse ++ [e] <+: above.reverse := by
                intro hbelow
                have hlength := hbelow.length_le
                simp at hlength
              have hself : (d₁.find (above.reverse ++ [e])).toOption =
                  (d.find (above.reverse ++ [e])).toOption :=
                toOption_find_congr h htree (hsame _ hnot)
              rw [hrec] at hmake
              simp only [bind, Except.bind, List.reverse_cons] at hmake
              cases hagain : d₁.find (above.reverse ++ [e]) with
              | ok n =>
                  rw [hagain, hfind] at hself
                  cases hself
              | error fault' =>
                  rw [hagain] at hmake
                  cases fault' with
                  | missing =>
                      cases hmake
                      refine ⟨htree.set hparent (Or.inl rfl), node?_set_self (by simp), ?_⟩
                      intro q hq
                      have hne : q ≠ above.reverse ++ [e] := by
                        rintro rfl
                        exact hq List.prefix_rfl
                      rw [node?_set_of_ne hne]
                      exact hsame q fun hbelow => hq (hbelow.trans (List.prefix_append _ _))
                  | _ => cases hmake

/-! ## Replacing a file -/

/-- A cleaned absolute path. -/
def IsPlace (path : Text) : Prop := Path.isAbsolute path = true ∧ Path.clean path = path

theorem IsPlace.not_prefix_draft (h : IsPlace path) :
    ¬Path.elements (draftPath path) <+: Path.elements path := by
  rcases Path.eq_root_or_ends h.1 h.2 with rfl | ⟨es, e, hends⟩
  · decide +kernel
  · rw [hends.elements_draftPath, hends.elements_eq, List.prefix_append_right_inj]
    intro hbelow
    have hsame := List.prefix_of_prefix_length_le hbelow (List.prefix_refl [e]) (by simp)
    exact Path.Ends.draftName_ne e (by simpa using hbelow.eq_of_length rfl)

/-- Directories that are made for a file leave it as it is. -/
theorem find_makeDirectoriesAt {forDeeper : Bool} {rev : List Text} (h : IsPlace path)
    (hd : d.IsTree) (hrev : rev.reverse <+: Path.elements (Path.dir path))
    (hmake : d.makeDirectoriesAt forDeeper rev = .ok d') :
    (d'.find (Path.elements path)).toOption = (d.find (Path.elements path)).toOption := by
  obtain ⟨htree, -, hsame⟩ := makeDirectoriesAt_eq_ok hd hmake
  apply toOption_find_congr hd htree
  rcases Path.eq_root_or_ends h.1 h.2 with rfl | ⟨es, e, hends⟩
  · rfl
  · have hdir : Path.elements (Path.dir path) = es := by
      rw [hends.dir_eq]
      exact Path.elements_ofElements hends.clean_parent
    rw [hdir] at hrev
    apply hsame
    rw [hends.elements_eq]
    intro hbelow
    have hlength := (hbelow.trans hrev).length_le
    simp at hlength

theorem find_makeDirectories (h : IsPlace path) (hd : d.IsTree)
    (hmake : d.makeDirectories (Path.dir path) = .ok d') :
    (d'.find (Path.elements path)).toOption = (d.find (Path.elements path)).toOption :=
  find_makeDirectoriesAt h hd (by rw [List.reverse_reverse]) hmake

/-- A draft leaves the file as it is. -/
theorem find_set_draft (h : IsPlace path) (d : Disk) (n : DiskNode) :
    (d.set (Path.elements (draftPath path)) n).find (Path.elements path) =
      d.find (Path.elements path) := by
  apply find_congr
  intro q hq
  apply node?_set_of_ne
  rintro rfl
  exact h.not_prefix_draft hq

/-- What replacing a file comes to: it fails before its directories are made, before its draft
is written or before the draft takes its place, or the file has its new content. -/
inductive Replaced (d : Disk) (path content : Text) : Except DiskError Unit → Disk → Prop
  | unmade {fault : DiskError} (hmake : d.makeDirectories (Path.dir path) = .error fault) :
      Replaced d path content (.error fault) d
  | unwritten {d₁ : Disk} {fault : DiskError}
      (hmake : d.makeDirectories (Path.dir path) = .ok d₁) :
      Replaced d path content (.error fault) d₁
  | unmoved {d₁ : Disk} {fault : DiskError}
      (hmake : d.makeDirectories (Path.dir path) = .ok d₁) :
      Replaced d path content (.error fault)
        (d₁.set (Path.elements (draftPath path)) (.file content))
  | moved {d₁ : Disk} (hmake : d.makeDirectories (Path.dir path) = .ok d₁)
      (hroot : Path.base path ≠ [Path.slash]) (hfile : d₁.isDirectory path = false)
      (hlong : d₁.find (Path.elements (draftPath path)) ≠ .error .nameTooLong)
      (hinvalid : d₁.find (Path.elements (draftPath path)) ≠ .error .invalid) :
      Replaced d path content (.ok ()) (d₁.set (Path.elements path) (.file content))

theorem replaced {answer : Except DiskError Unit} (h : d.replace path content = (answer, d')) :
    Replaced d path content answer d' := by
  rw [replace] at h
  cases hmake : d.makeDirectories (Path.dir path) with
  | error e =>
      rw [hmake] at h
      cases h
      exact .unmade hmake
  | ok d₁ =>
      simp only [hmake] at h
      split at h
      · cases h
        exact .unwritten hmake
      · next hroot =>
          split at h
          · cases h
            exact .unmoved hmake
          · next hfile =>
              split at h
              · cases h
                exact .unwritten hmake
              · cases h
                exact .unwritten hmake
              · next hlong hinvalid =>
                  cases h
                  exact .moved hmake (by simpa using hroot) (Bool.eq_false_iff.mpr hfile) hlong
                    hinvalid

/-- A file that is not replaced in the end is as it was. -/
theorem find_of_replaceUnless_error {refusal : Option Refusal} {error : DiskError}
    (h : IsPlace path) (hd : d.IsTree)
    (hreplace : d.replaceUnless path content refusal = (.error error, d')) :
    (d'.find (Path.elements path)).toOption = (d.find (Path.elements path)).toOption := by
  rcases refusal with - | ⟨missing, error'⟩ | ⟨left, error'⟩
  · cases replaced hreplace with
    | unmade hmake => rfl
    | unwritten hmake => exact find_makeDirectories h hd hmake
    | unmoved hmake =>
        rw [find_set_draft h]
        exact find_makeDirectories h hd hmake
  · cases hreplace
    cases hmake : d.makeDirectoriesAt true
        ((Path.elements (Path.dir path)).reverse.drop missing) with
    | error e => rfl
    | ok d₁ =>
        refine find_makeDirectoriesAt h hd ?_ hmake
        rw [← List.reverse_suffix, List.reverse_reverse]
        exact List.drop_suffix ..
  · rw [replaceUnless] at hreplace
    cases hmake : d.makeDirectories (Path.dir path) with
    | error e =>
        rw [hmake] at hreplace
        cases hreplace
        rfl
    | ok d₁ =>
        rw [← find_makeDirectories h hd hmake]
        rw [hmake] at hreplace
        cases hreplace
        cases left with
        | none => rfl
        | some text => rw [find_set_draft h]

theorem descend_of_long (h : d.IsTree) (hes : d.node? (q ++ es) = some .directory)
    (hlong : ∃ x ∈ es ++ [e], maxElement < x.length) :
    d.descend q (es ++ [e]) = .error .nameTooLong := by
  induction es generalizing q with
  | nil =>
      obtain ⟨x, hx, hlong⟩ := hlong
      rw [List.nil_append, List.mem_singleton] at hx
      rw [List.append_nil] at hes
      rw [List.nil_append, descend]
      simp only [hes]
      exact if_pos (hx ▸ hlong)
  | cons y es ih =>
      have hq : d.node? q = some .directory := h.above hes
      rw [List.cons_append, descend]
      simp only [hq]
      by_cases hy : maxElement < y.length
      · exact if_pos hy
      · rw [if_neg hy]
        apply ih
        · rwa [List.append_assoc, List.singleton_append]
        · obtain ⟨x, hx, hlong⟩ := hlong
          rcases List.mem_cons.mp hx with rfl | hx
          · exact absurd hlong hy
          · exact ⟨x, hx, hlong⟩

/-- A name in a directory that the system does not refuse can be used. -/
theorem usable_of_find (h : d.IsTree) (hes : d.node? es = some .directory)
    (hlong : d.find (es ++ [e]) ≠ .error .nameTooLong)
    (hinvalid : d.find (es ++ [e]) ≠ .error .invalid) : Usable (es ++ [e]) := by
  rw [find] at hlong hinvalid
  have hzero : ¬(es ++ [e]).any (·.contains 0) = true := fun hzero => hinvalid (if_pos hzero)
  rw [if_neg hzero] at hlong
  have hlimit : ¬pathLimit ≤ (Path.ofElements true (es ++ [e])).length :=
    fun hlimit => hlong (if_pos hlimit)
  rw [if_neg hlimit] at hlong
  refine ⟨Bool.eq_false_iff.mpr hzero, Nat.lt_of_not_le hlimit, fun x hx => ?_⟩
  by_contra hx'
  exact hlong (descend_of_long h hes ⟨x, hx, Nat.lt_of_not_le hx'⟩)

/-- What can be done with a draft can be done with its file. -/
theorem usable_of_draft (h : Usable (es ++ [Path.Ends.draftName e])) : Usable (es ++ [e]) := by
  obtain ⟨hzero, hlimit, hlong⟩ := h
  have hlength := Path.Ends.length_draftName e
  refine ⟨?_, ?_, ?_⟩
  · simp only [List.any_append, List.any_cons, List.any_nil, Bool.or_false, Bool.or_eq_false_iff,
      Path.Ends.draftName, List.contains_append] at hzero ⊢
    exact ⟨hzero.1, hzero.2.1.2⟩
  · obtain ⟨front, hpath, hroot, hfront⟩ := Path.ofElements_concat es e
    obtain ⟨front', hpath', hroot', hfront'⟩ :=
      Path.ofElements_concat es (Path.Ends.draftName e)
    have hsame : front = front' := by
      by_cases hes : es = []
      · rw [hroot hes, hroot' hes]
      · rw [hfront hes, hfront' hes]
    rw [hpath', ← hsame] at hlimit
    rw [hpath]
    simp only [List.length_append, List.length_cons] at hlimit ⊢
    omega
  · intro x hx
    rcases List.mem_append.mp hx with hmem | hmem
    · exact hlong x (List.mem_append_left _ hmem)
    · have hdraft := hlong (Path.Ends.draftName e) (by simp)
      rw [List.mem_singleton.mp hmem]
      omega

/-- A file that is replaced has its new content. -/
theorem find_of_replaceUnless_ok {refusal : Option Refusal} (h : IsPlace path) (hd : d.IsTree)
    (hreplace : d.replaceUnless path content refusal = (.ok (), d')) :
    d'.find (Path.elements path) = .ok (.file content) := by
  rcases refusal with - | ⟨missing, error'⟩ | ⟨left, error'⟩
  · cases replaced hreplace with
    | @moved d₁ hmake hroot hfile hlong hinvalid =>
        obtain ⟨htree, hparent, -⟩ := makeDirectoriesAt_eq_ok hd hmake
        rw [List.reverse_reverse] at hparent
        rcases Path.eq_root_or_ends h.1 h.2 with rfl | ⟨es, e, hends⟩
        · exact absurd (by decide) hroot
        · rw [hends.dir_eq, Path.elements_ofElements hends.clean_parent] at hparent
          rw [hends.elements_draftPath] at hlong hinvalid
          have husable := usable_of_draft (usable_of_find htree hparent hlong hinvalid)
          have hnot : d₁.node? (es ++ [e]) ≠ some .directory := by
            intro hnode
            rw [isDirectory, hends.elements_eq,
              (find_eq_ok_iff htree).mpr ⟨husable, hnode⟩] at hfile
            cases hfile
          rw [hends.elements_eq, find_eq_ok_iff (htree.set hparent (Or.inr hnot))]
          exact ⟨husable, node?_set_self (by simp)⟩
  · cases hreplace
  · rw [replaceUnless] at hreplace
    split at hreplace
    · cases hreplace
    · cases hreplace

end Disk

end Splice

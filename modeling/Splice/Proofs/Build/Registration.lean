import Splice.Proofs.Build.Sequence
import Splice.Proofs.Program.Enums

/-!
# Enum entries of whole programs

The values of enum entries differ throughout a program.  So do the names under which
a build registers them: an identifier has no colon, the name of an enum no dot, and
so the parts of a registered name can be told apart; identifiers differ, and so do the
enums of a namespace and the entries of an enum.
-/

namespace Splice

theorem Text.append_cons_inj {x : UInt8} {a a' b b' : Text} (ha : x ∉ a) (ha' : x ∉ a')
    (h : a ++ x :: b = a' ++ x :: b') : a = a' ∧ b = b' := by
  induction a generalizing a' with
  | nil =>
      cases a' with
      | nil =>
          cases h
          exact ⟨rfl, rfl⟩
      | cons y a' =>
          cases h
          exact absurd List.mem_cons_self ha'
  | cons y a ih =>
      cases a' with
      | nil =>
          cases h
          exact absurd List.mem_cons_self ha
      | cons z a' =>
          rw [List.cons_append, List.cons_append, List.cons.injEq] at h
          obtain ⟨rfl, hrest⟩ := h
          have htail := ih (fun hmem => ha (List.mem_cons_of_mem y hmem))
            (fun hmem => ha' (List.mem_cons_of_mem y hmem)) hrest
          rw [htail.1]
          exact ⟨rfl, htail.2⟩

namespace Namespace

variable {ns ns' : Namespace} {enum enum' entry entry' : Text}

theorem entryName_eq (ns : Namespace) (enum entry : Text) :
    ns.entryName enum entry = ns.id ++ 58 :: (enum ++ 46 :: entry) := by
  have hcolon : (":" : Text) = [58] := by decide
  have hdot : ("." : Text) = [46] := by decide
  rw [entryName, hcolon, hdot]
  simp

theorem entryName_inj (hid : Text.IsWord ns.id) (hid' : Text.IsWord ns'.id)
    (henum : Text.IsWord enum) (henum' : Text.IsWord enum')
    (h : ns.entryName enum entry = ns'.entryName enum' entry') :
    ns.id = ns'.id ∧ enum = enum' ∧ entry = entry' := by
  rw [entryName_eq, entryName_eq] at h
  obtain ⟨hids, hrest⟩ := Text.append_cons_inj hid.colon_not_mem hid'.colon_not_mem h
  exact ⟨hids, Text.append_cons_inj henum.dot_not_mem henum'.dot_not_mem hrest⟩

theorem Tidy.nodup_entryNames (h : ns.Tidy) (hid : Text.IsWord ns.id) : ns.entryNames.Nodup := by
  rw [entryNames, List.nodup_flatMap]
  constructor
  · intro e he
    have hword := h.words e he
    have hentries := h.entries e he
    rw [List.Nodup, List.pairwise_map] at hentries ⊢
    refine hentries.imp ?_
    intro x y hne heq
    exact hne (entryName_inj hid hid hword hword heq).2.2
  · have henums := h.enums
    rw [List.Nodup, List.pairwise_map] at henums
    refine henums.imp_of_mem ?_
    intro e e' he he' hne name hname hname'
    obtain ⟨x, -, rfl⟩ := List.mem_map.mp hname
    obtain ⟨y, -, heq⟩ := List.mem_map.mp hname'
    exact hne (entryName_inj hid hid (h.words e' he') (h.words e he) heq).2.1.symm

end Namespace

namespace Program

variable {p q : Program} {d : Discovery} {readPattern : PatternReader}

theorem exists_of_mem_entryNames {ns : Namespace} {name : Text} (h : name ∈ ns.entryNames) :
    ∃ e ∈ ns.enums, ∃ entry ∈ e.entries, name = ns.entryName e.name entry.name := by
  simp only [Namespace.entryNames, List.mem_flatMap, List.mem_map] at h
  obtain ⟨e, he, entry, hentry, rfl⟩ := h
  exact ⟨e, he, entry, hentry, rfl⟩

theorem map_ownedName_enumEntries (p : Program) :
    p.enumEntries.map p.ownedName =
      (List.range p.namespaces.size).flatMap fun n => (p.spaceAt n).entryNames := by
  simp only [enumEntries, Namespace.entryNames, List.map_flatMap, List.map_map]
  rfl

/-- The full names of all entries differ. -/
theorem Identified.nodup_ownedNames (h : p.Identified) (htidy : ∀ m, (p.spaceAt m).Tidy) :
    (p.enumEntries.map p.ownedName).Nodup := by
  rw [map_ownedName_enumEntries, List.nodup_flatMap]
  constructor
  · intro n hn
    exact (htidy n).nodup_entryNames (h.word n (List.mem_range.mp hn))
  · refine List.nodup_range.imp_of_mem ?_
    intro n m hn hm hne name hname hname'
    rw [List.mem_range] at hn hm
    obtain ⟨e, he, x, -, rfl⟩ := exists_of_mem_entryNames hname
    obtain ⟨e', he', y, -, heq⟩ := exists_of_mem_entryNames hname'
    have hparts := Namespace.entryName_inj (h.word n hn) (h.word m hm) ((htidy n).words e he)
      ((htidy m).words e' he') heq
    exact hne (h.distinct n hn m hm hparts.1)

/-- Giving values keeps the names. -/
theorem map_ownedName_of_givenValue (hid : ∀ n, (q.spaceAt n).id = (p.spaceAt n).id)
    (h : List.Forall₂ GivenValue p.enumEntries q.enumEntries) :
    q.enumEntries.map q.ownedName = p.enumEntries.map p.ownedName := by
  have hname : ∀ c c', GivenValue c c' → q.ownedName c' = p.ownedName c := by
    rintro c _ ⟨value, rfl, -⟩
    simp only [ownedName, Namespace.entryName, hid]
  have hnames : List.Forall₂ Eq (q.enumEntries.map q.ownedName)
      (p.enumEntries.map p.ownedName) := by
    rw [List.forall₂_map_left_iff, List.forall₂_map_right_iff]
    exact h.flip.imp fun c' c hgiven => hname c c' hgiven
  rwa [List.forall₂_eq_eq_eq] at hnames

theorem nodup_flatMap_of_subset {f : NamespaceId → List Text} {order all : List NamespaceId}
    (h : (all.flatMap f).Nodup) (horder : order.Nodup) (hsubset : order ⊆ all) :
    (order.flatMap f).Nodup := by
  obtain ⟨l, hperm, hsublist⟩ := horder.subperm hsubset
  rw [← (hperm.flatMap_right f).nodup_iff]
  exact h.sublist (hsublist.flatMap f)

/-- The names that a build registers differ. -/
theorem nodup_enumTable_of_build {loader : Loader} {workingDir : Text} {cancelled : Bool}
    {o : BuildOptions} {entry : Text} {r : BuildResult}
    (h : build loader workingDir cancelled o entry readPattern = .ok r) :
    (r.enumTable.map Prod.fst).Nodup := by
  obtain ⟨p₀, d, p₁, p₂, hcreate, hrun, hassign, hshows⟩ := exists_shows_of_build h
  obtain ⟨hsurveys, hdiscovers⟩ := surveys_of_discover hcreate hrun
  have hidentified := hsurveys.history.identified (identified_create hcreate)
  have hsame := yields_assignEnumValues _ p₂ hassign
  have hnames : p₂.enumEntries.map p₂.ownedName = p₁.enumEntries.map p₁.ownedName := by
    by_cases hdone : p₁.enumsAssigned = true
    · rw [assignEnumValues_again hdone] at hassign
      cases hassign
      rfl
    · obtain ⟨-, c, owner, -, -, hfails⟩ | ⟨-, hgiven⟩ :=
        assignEnumValues_cases (Bool.eq_false_iff.mpr hdone)
      · rw [hfails] at hassign
        cases hassign
      · rw [hgiven] at hassign
        cases hassign
        exact map_ownedName_of_givenValue hsame.id (givenValue_assigned p₁)
  have hnodup := hidentified.nodup_ownedNames hsurveys.ordered.tidy
  rw [← hnames, map_ownedName_enumEntries] at hnodup
  refine (nodup_flatMap_of_subset hnodup hdiscovers.order ?_).sublist hshows.enums
  intro n hn
  rw [List.mem_range, hsame.size]
  exact hdiscovers.lt (hdiscovers.seen n hn)

/-- What giving values to the entries of a program leads to.  There are `2 ^ 64`
values, so that up to this number of entries all of them can differ, and do. -/
structure GivesValues (p q : Program) : Prop where
  entries : List.Forall₂ GivenValue p.enumEntries q.enumEntries
  ends : p.enumEntries.length ≤ 2 ^ 64 →
    Assigns p.explicitValues 1 p.enumEntries q.enumEntries
  distinct : (q.enumEntries.map fun c => c.entry.value).Nodup ↔ p.enumEntries.length ≤ 2 ^ 64
  again : assignEnumValues q = .ok () q

/-- Enum values of a program: giving them fails exactly if two explicit values agree, with
a conflict and without a change; otherwise the loop ends, all values differ, explicit ones
are kept, and giving values again does nothing.  The names that a build registers differ
as well. -/
theorem enum_values_unique (p : Program) (hp : p.enumsAssigned = false) :
    ((∃ e q, assignEnumValues p = .error e q) ↔ p.HasConflict) ∧
    (∀ e q, assignEnumValues p = .error e q → q = p ∧ e.hasCode .conflict = true ∧
      ∃ c owner, [owner, c].Sublist p.explicitEntries ∧
        owner.entry.value = c.entry.value ∧ e = p.conflictFailure c owner) ∧
    (∀ q, assignEnumValues p = .ok () q → p.GivesValues q) ∧
    ∀ (loader : Loader) (workingDir : Text) (cancelled : Bool) (o : BuildOptions)
      (entry : Text) (readPattern : PatternReader) (r : BuildResult),
      build loader workingDir cancelled o entry readPattern = .ok r →
        (r.enumTable.map Prod.fst).Nodup := by
  refine ⟨?_, ?_, ?_, fun _ _ _ _ _ _ _ => nodup_enumTable_of_build⟩
  · obtain ⟨hconflict, c, owner, -, -, hfails⟩ | ⟨hnodup, hgiven⟩ := assignEnumValues_cases hp
    · exact ⟨fun _ => hconflict, fun _ => ⟨_, p, hfails⟩⟩
    · constructor
      · rintro ⟨e, q, hfails⟩
        rw [hgiven] at hfails
        cases hfails
      · intro hconflict
        exact absurd hconflict (nodup_explicitValues_iff.mp hnodup)
  · intro e q hrun
    obtain ⟨-, c, owner, hsub, hvalue, hfails⟩ | ⟨-, hgiven⟩ := assignEnumValues_cases hp
    · rw [hfails] at hrun
      cases hrun
      exact ⟨rfl, rfl, c, owner, hsub, hvalue, rfl⟩
    · rw [hgiven] at hrun
      cases hrun
  · intro q hrun
    obtain ⟨-, c, owner, -, -, hfails⟩ | ⟨hnodup, hgiven⟩ := assignEnumValues_cases hp
    · rw [hfails] at hrun
      cases hrun
    · rw [hgiven] at hrun
      cases hrun
      exact ⟨givenValue_assigned p, assigns_assigned, nodup_values_assigned_iff hnodup,
        assignEnumValues_again rfl⟩

def countedProgram : Program :=
  { namespaces :=
      #[{ id := "a"
          unit := ⟨[], "/a"⟩
          key := "/a"
          enums := [⟨"E", 0, [⟨"A", false, 0, 0⟩, ⟨"B", true, 1, 0⟩, ⟨"C", false, 0, 0⟩]⟩] }] }

theorem enum_values_unique_sample :
    countedProgram.enumsAssigned = false ∧
      ∃ q, assignEnumValues countedProgram = .ok () q ∧ countedProgram.GivesValues q ∧
        q.enumEntries.map (fun c => c.entry.value) = [2, 1, 3] := by
  obtain ⟨-, -, hgives, -⟩ := enum_values_unique countedProgram rfl
  exact ⟨rfl, countedProgram.assigned, rfl, hgives _ rfl, by decide⟩

end Program

end Splice

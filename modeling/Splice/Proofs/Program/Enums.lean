import Splice.Proofs.Program.Files
import Splice.Proofs.Program.Mangling
import Mathlib.Data.List.Perm.Lattice

/-!
# Values of enum entries

The loops over namespaces, enums and entries are one loop over all entries of the
program.  The counter of that loop may jump and wrap; what keeps values apart is that
every value that is given is not taken and is taken from then on.  Among `n + 1`
values from the counter on one is free of `n` that are taken, as long as these values
differ, which they do for up to `2 ^ 64` of them.
-/

namespace Splice.Program

variable {p p' q : Program} {taken : List Int64} {next : Int64}

/-- The search from a counter on ends with a value: the first that is not taken. -/
inductive Finds (taken : List Int64) : Int64 → Int64 → Prop
  | free {next : Int64} : next ∉ taken → Finds taken next next
  | skip {next value : Int64} :
      next ∈ taken → Finds taken (next + 1) value → Finds taken next value

theorem Finds.not_mem {value : Int64} (h : Finds taken next value) : value ∉ taken := by
  induction h with
  | free hfree => exact hfree
  | skip _ _ ih => exact ih

theorem finds_nextFree {fuel : Nat} (h : ∃ k < fuel, next + Int64.ofNat k ∉ taken) :
    Finds taken next (nextFree taken fuel next) := by
  induction fuel generalizing next with
  | zero =>
      obtain ⟨k, hk, -⟩ := h
      omega
  | succ fuel ih =>
      unfold nextFree
      by_cases hmem : next ∈ taken
      · rw [if_pos (by simpa using hmem)]
        apply Finds.skip hmem
        apply ih
        obtain ⟨k, hk, hfree⟩ := h
        cases k with
        | zero =>
            rw [show next + Int64.ofNat 0 = next by simp] at hfree
            exact absurd hmem hfree
        | succ k =>
            refine ⟨k, by omega, ?_⟩
            rwa [Int64.ofNat_add, Int64.add_comm (Int64.ofNat k), ← Int64.add_assoc] at hfree
      · rw [if_neg (by simpa using hmem)]
        exact Finds.free hmem

theorem ofNat_inj_of_lt {i j : Nat} (hi : i < 2 ^ 64) (hj : j < 2 ^ 64)
    (h : next + Int64.ofNat i = next + Int64.ofNat j) : i = j := by
  have hbits : next.toBitVec + BitVec.ofNat 64 i = next.toBitVec + BitVec.ofNat 64 j :=
    congrArg Int64.toBitVec h
  rw [BitVec.add_right_inj] at hbits
  have hnat := congrArg BitVec.toNat hbits
  rwa [BitVec.toNat_ofNat, BitVec.toNat_ofNat, Nat.mod_eq_of_lt hi, Nat.mod_eq_of_lt hj] at hnat

/-- One more value than are taken: one of them is free, unless the counter comes round. -/
theorem exists_free (next : Int64) (h : taken.length < 2 ^ 64) :
    ∃ k < taken.length + 1, next + Int64.ofNat k ∉ taken := by
  by_contra hall
  push Not at hall
  have hnodup : ((List.range (taken.length + 1)).map fun k => next + Int64.ofNat k).Nodup := by
    refine List.Nodup.map_on ?_ List.nodup_range
    intro i hi j hj
    rw [List.mem_range] at hi hj
    exact ofNat_inj_of_lt (by omega) (by omega)
  have hsubset : ((List.range (taken.length + 1)).map fun k => next + Int64.ofNat k) ⊆ taken := by
    intro value hvalue
    obtain ⟨k, hk, rfl⟩ := List.mem_map.mp hvalue
    exact hall k (List.mem_range.mp hk)
  have hle := (hnodup.subperm hsubset).length_le
  simp at hle

theorem length_le_of_nodup {values : List Int64} (h : values.Nodup) : values.length ≤ 2 ^ 64 := by
  have hnodup : (values.map fun v => v.toBitVec.toNat).Nodup := by
    refine h.map ?_
    intro v w hvw
    exact Int64.toBitVec_inj.mp (BitVec.eq_of_toNat_eq hvw)
  have hsubset : (values.map fun v => v.toBitVec.toNat) ⊆ List.range (2 ^ 64) := by
    intro x hx
    obtain ⟨v, -, rfl⟩ := List.mem_map.mp hx
    exact List.mem_range.mpr v.toBitVec.isLt
  have hle := (hnodup.subperm hsubset).length_le
  rwa [List.length_map, List.length_range] at hle

def assignOwned : (taken : List Int64) → (next : Int64) → List OwnedEntry →
    List OwnedEntry × List Int64 × Int64
  | taken, next, [] => ([], taken, next)
  | taken, next, c :: rest =>
      if c.entry.explicit then
        let next := if c.entry.value ≥ next then c.entry.value + 1 else next
        let (rest, taken, next) := assignOwned taken next rest
        (c :: rest, taken, next)
      else
        let value := nextFree taken (taken.length + 1) next
        let (rest, taken, next) := assignOwned (value :: taken) (value + 1) rest
        ({ c with entry := { c.entry with value } } :: rest, taken, next)

theorem assignOwned_append (cs ds : List OwnedEntry) :
    assignOwned taken next (cs ++ ds) =
      let first := assignOwned taken next cs
      let second := assignOwned first.2.1 first.2.2 ds
      (first.1 ++ second.1, second.2) := by
  induction cs generalizing taken next with
  | nil => rfl
  | cons c cs ih =>
      simp only [List.cons_append, assignOwned]
      split
      · rw [ih]
        rfl
      · rw [ih]
        rfl

def ownedOf (n : NamespaceId) (e : Enumeration) : List OwnedEntry :=
  e.entries.map fun entry => ⟨n, e.name, entry⟩

def ownedFrom : NamespaceId → List Namespace → List OwnedEntry
  | _, [] => []
  | n, ns :: rest => ns.enums.flatMap (ownedOf n) ++ ownedFrom (n + 1) rest

theorem assignOwned_entries (n : NamespaceId) (name : Text) (entries : List EnumEntry) :
    assignOwned taken next (entries.map fun entry => ⟨n, name, entry⟩) =
      ((assignEntries taken next entries).1.map fun entry => ⟨n, name, entry⟩,
        (assignEntries taken next entries).2) := by
  induction entries generalizing taken next with
  | nil => rfl
  | cons e rest ih =>
      simp only [List.map_cons, assignOwned, assignEntries]
      split
      · rw [ih]
        rfl
      · rw [ih]
        rfl

theorem assignOwned_enums (n : NamespaceId) (enums : List Enumeration) :
    assignOwned taken next (enums.flatMap (ownedOf n)) =
      ((assignEnums taken next enums).1.flatMap (ownedOf n),
        (assignEnums taken next enums).2) := by
  induction enums generalizing taken next with
  | nil => rfl
  | cons e rest ih =>
      rw [List.flatMap_cons, assignOwned_append, ownedOf, assignOwned_entries]
      simp only [ih]
      rfl

theorem ownedFrom_assignSpaces (n : NamespaceId) (spaces : List Namespace) :
    ownedFrom n (assignSpaces taken next spaces) =
      (assignOwned taken next (ownedFrom n spaces)).1 := by
  induction spaces generalizing taken next n with
  | nil => rfl
  | cons ns rest ih =>
      rw [ownedFrom, assignOwned_append, assignOwned_enums]
      simp only [assignSpaces, ownedFrom, ih]

theorem ownedFrom_eq_flatMap (n : NamespaceId) (spaces : List Namespace) :
    ownedFrom n spaces = (spaces.zipIdx n).flatMap fun x => x.1.enums.flatMap (ownedOf x.2) := by
  induction spaces generalizing n with
  | nil => rfl
  | cons ns rest ih => rw [ownedFrom, List.zipIdx_cons, List.flatMap_cons, ih]

theorem enumEntries_eq (p : Program) : p.enumEntries = ownedFrom 0 p.namespaces.toList := by
  have hzip : p.namespaces.toList.zipIdx =
      (List.range p.namespaces.size).map fun n => (p.spaceAt n, n) := by
    apply List.ext_getElem
    · simp
    · intro i h₁ h₂
      have hi : i < p.namespaces.size := by simpa using h₁
      simp [spaceAt, hi]
  rw [ownedFrom_eq_flatMap, hzip, List.flatMap_map]
  rfl

def explicitEntries (p : Program) : List OwnedEntry :=
  p.enumEntries.filter fun c => c.entry.explicit

def explicitValues (p : Program) : List Int64 := p.explicitEntries.map fun c => c.entry.value

def assigned (p : Program) : Program :=
  { p with
    namespaces := (assignSpaces p.explicitValues 1 p.namespaces.toList).toArray
    enumsAssigned := true }

theorem enumEntries_assigned (p : Program) :
    p.assigned.enumEntries = (assignOwned p.explicitValues 1 p.enumEntries).1 := by
  rw [enumEntries_eq, enumEntries_eq]
  exact ownedFrom_assignSpaces 0 p.namespaces.toList

theorem assignEnumValues_eq (h : p.enumsAssigned = false) :
    assignEnumValues p =
      match firstConflict? [] p.enumEntries with
      | some (c, owner) => .error (p.conflictFailure c owner) p
      | none => .ok () p.assigned := by
  change (if p.enumsAssigned then pure () else
    match firstConflict? [] p.enumEntries with
    | some (c, owner) => throw (p.conflictFailure c owner)
    | none => set p.assigned : Linking Unit) p = _
  rw [h]
  cases firstConflict? [] p.enumEntries with
  | none => rfl
  | some conflict => rfl

/-- Values are given once. -/
theorem assignEnumValues_again (h : p.enumsAssigned = true) : assignEnumValues p = .ok () p := by
  change (if p.enumsAssigned then pure () else _ : Linking Unit) p = _
  rw [h]
  rfl

/-! ## Conflicts -/

section

variable {seen rest : List OwnedEntry} {c owner : OwnedEntry}

theorem firstConflict?_eq_none_iff (hseen : (seen.map fun c => c.entry.value).Nodup) :
    firstConflict? seen rest = none ↔
      ((seen ++ rest.filter fun c => c.entry.explicit).map fun c => c.entry.value).Nodup := by
  induction rest generalizing seen with
  | nil => simpa [firstConflict?] using hseen
  | cons c rest ih =>
      unfold firstConflict?
      by_cases hexplicit : c.entry.explicit = true
      · rw [if_pos hexplicit, List.filter_cons_of_pos (by exact hexplicit)]
        cases hfind : seen.find? fun x => x.entry.value == c.entry.value with
        | some owner =>
            have hvalue := List.find?_some hfind
            rw [beq_iff_eq] at hvalue
            have hmem : c.entry.value ∈ seen.map fun c => c.entry.value := by
              rw [← hvalue]
              exact List.mem_map_of_mem (List.mem_of_find?_eq_some hfind)
            simp only [reduceCtorEq, false_iff]
            intro hnodup
            rw [List.map_append] at hnodup
            exact List.disjoint_of_nodup_append hnodup hmem List.mem_cons_self
        | none =>
            have hnew : c.entry.value ∉ seen.map fun c => c.entry.value := by
              rw [List.find?_eq_none] at hfind
              intro hmem
              obtain ⟨x, hx, hvalue⟩ := List.mem_map.mp hmem
              exact hfind x hx (by simpa using hvalue)
            have hseen' : ((seen ++ [c]).map fun c => c.entry.value).Nodup := by
              rw [List.map_append]
              exact Namespace.nodup_append_singleton hseen hnew
            rw [List.append_cons seen c (rest.filter _)]
            exact ih hseen'
      · rw [if_neg hexplicit, List.filter_cons_of_neg (by exact hexplicit)]
        exact ih hseen

theorem sublist_of_firstConflict? (h : firstConflict? seen rest = some (c, owner)) :
    [owner, c].Sublist (seen ++ rest.filter fun c => c.entry.explicit) ∧
      owner.entry.value = c.entry.value := by
  induction rest generalizing seen with
  | nil => cases h
  | cons x rest ih =>
      unfold firstConflict? at h
      by_cases hexplicit : x.entry.explicit = true
      · rw [if_pos hexplicit] at h
        rw [List.filter_cons_of_pos (by exact hexplicit)]
        cases hfind : seen.find? fun y => y.entry.value == x.entry.value with
        | some y =>
            rw [hfind] at h
            cases h
            have hmem := List.mem_of_find?_eq_some hfind
            have hvalue := List.find?_some hfind
            rw [beq_iff_eq] at hvalue
            refine ⟨List.Sublist.append (List.singleton_sublist.mpr hmem) ?_, hvalue⟩
            exact List.singleton_sublist.mpr List.mem_cons_self
        | none =>
            rw [hfind] at h
            rw [List.append_cons]
            exact ih h
      · rw [if_neg hexplicit] at h
        rw [List.filter_cons_of_neg (by exact hexplicit)]
        exact ih h

end

/-- Two explicit entries of the program have the same value. -/
def HasConflict (p : Program) : Prop :=
  ∃ c c', [c, c'].Sublist p.explicitEntries ∧ c.entry.value = c'.entry.value

theorem nodup_explicitValues_iff : p.explicitValues.Nodup ↔ ¬p.HasConflict := by
  rw [explicitValues, List.Nodup, List.pairwise_map, List.pairwise_iff_forall_sublist]
  constructor
  · rintro h ⟨c, c', hsub, hvalue⟩
    exact h hsub hvalue
  · intro h c c' hsub hvalue
    exact h ⟨c, c', hsub, hvalue⟩

/-- The assignment fails and changes nothing if there is a conflict, and succeeds
otherwise. -/
theorem assignEnumValues_cases (h : p.enumsAssigned = false) :
    (p.HasConflict ∧ ∃ c owner, [owner, c].Sublist p.explicitEntries ∧
      owner.entry.value = c.entry.value ∧
      assignEnumValues p = .error (p.conflictFailure c owner) p) ∨
    (p.explicitValues.Nodup ∧ assignEnumValues p = .ok () p.assigned) := by
  have hiff : firstConflict? [] p.enumEntries = none ↔ p.explicitValues.Nodup :=
    firstConflict?_eq_none_iff List.nodup_nil
  rw [assignEnumValues_eq h]
  cases hfind : firstConflict? [] p.enumEntries with
  | none => exact Or.inr ⟨hiff.mp hfind, rfl⟩
  | some conflict =>
      obtain ⟨c, owner⟩ := conflict
      obtain ⟨hsub, hvalue⟩ := sublist_of_firstConflict? hfind
      exact Or.inl ⟨⟨owner, c, hsub, hvalue⟩, c, owner, hsub, hvalue, rfl⟩

/-- An entry with its value: the same one if the value is explicit. -/
def GivenValue (c c' : OwnedEntry) : Prop :=
  ∃ value, c' = { c with entry := { c.entry with value } } ∧
    (c.entry.explicit = true → value = c.entry.value)

theorem givenValue_assignOwned (cs : List OwnedEntry) :
    List.Forall₂ GivenValue cs (assignOwned taken next cs).1 := by
  induction cs generalizing taken next with
  | nil => exact List.Forall₂.nil
  | cons c rest ih =>
      unfold assignOwned
      by_cases hexplicit : c.entry.explicit = true
      · rw [if_pos hexplicit]
        exact List.Forall₂.cons ⟨c.entry.value, rfl, fun _ => rfl⟩ ih
      · rw [if_neg hexplicit]
        exact List.Forall₂.cons ⟨_, rfl, fun h => absurd h hexplicit⟩ ih

/-- The loop over some entries ends, every search in it does, and these are the values
that it gives. -/
inductive Assigns : (taken : List Int64) → (next : Int64) → List OwnedEntry →
    List OwnedEntry → Prop
  | nil {taken : List Int64} {next : Int64} : Assigns taken next [] []
  | explicit {taken : List Int64} {next : Int64} {c : OwnedEntry} {cs cs' : List OwnedEntry} :
      c.entry.explicit = true →
      Assigns taken (if c.entry.value ≥ next then c.entry.value + 1 else next) cs cs' →
        Assigns taken next (c :: cs) (c :: cs')
  | automatic {taken : List Int64} {next value : Int64} {c : OwnedEntry}
      {cs cs' : List OwnedEntry} :
      c.entry.explicit = false → Finds taken next value →
      Assigns (value :: taken) (value + 1) cs cs' →
        Assigns taken next (c :: cs) ({ c with entry := { c.entry with value } } :: cs')

/-- The loop ends as long as there are values for all entries. -/
theorem assigns_assignOwned {cs : List OwnedEntry}
    (h : taken.length + cs.countP (fun c => !c.entry.explicit) ≤ 2 ^ 64) :
    Assigns taken next cs (assignOwned taken next cs).1 := by
  induction cs generalizing taken next with
  | nil => exact Assigns.nil
  | cons c rest ih =>
      unfold assignOwned
      by_cases hexplicit : c.entry.explicit = true
      · rw [if_pos hexplicit]
        rw [List.countP_cons_of_neg (by simpa using hexplicit)] at h
        exact Assigns.explicit hexplicit (ih h)
      · rw [if_neg hexplicit]
        rw [List.countP_cons_of_pos (by simpa using hexplicit)] at h
        have hfinds := finds_nextFree (exists_free next (show taken.length < 2 ^ 64 by omega))
        have hrest : (nextFree taken (taken.length + 1) next :: taken).length +
            rest.countP (fun c => !c.entry.explicit) ≤ 2 ^ 64 := by
          rw [List.length_cons]
          omega
        exact Assigns.automatic (by simpa using hexplicit) hfinds (ih hrest)

/-- The values that are given differ from each other and from those that were taken. -/
theorem Assigns.nodup {cs cs' : List OwnedEntry} (h : Assigns taken next cs cs')
    (htaken : taken.Nodup) :
    (((cs'.filter fun c => !c.entry.explicit).map fun c => c.entry.value) ++ taken).Nodup := by
  induction h with
  | nil => exact htaken
  | explicit hexplicit _ ih =>
      rw [List.filter_cons_of_neg (by simpa using hexplicit)]
      exact ih htaken
  | automatic hexplicit hfinds _ ih =>
      rw [List.filter_cons_of_pos (by simpa using hexplicit)]
      exact List.perm_middle.nodup_iff.mp (ih (htaken.cons hfinds.not_mem))

theorem Assigns.filter_explicit {cs cs' : List OwnedEntry} (h : Assigns taken next cs cs') :
    (cs'.filter fun c => c.entry.explicit) = cs.filter fun c => c.entry.explicit := by
  induction h with
  | nil => rfl
  | explicit hexplicit _ ih =>
      rw [List.filter_cons_of_pos (by exact hexplicit),
        List.filter_cons_of_pos (by exact hexplicit), ih]
  | automatic hexplicit _ _ ih =>
      rw [List.filter_cons_of_neg (by simpa using hexplicit),
        List.filter_cons_of_neg (by simpa using hexplicit), ih]

theorem givenValue_assigned (p : Program) :
    List.Forall₂ GivenValue p.enumEntries p.assigned.enumEntries := by
  rw [enumEntries_assigned]
  exact givenValue_assignOwned p.enumEntries

theorem assigns_assigned (h : p.enumEntries.length ≤ 2 ^ 64) :
    Assigns p.explicitValues 1 p.enumEntries p.assigned.enumEntries := by
  rw [enumEntries_assigned]
  apply assigns_assignOwned
  have hsum : p.enumEntries.length = _ :=
    List.length_eq_countP_add_countP fun c => c.entry.explicit
  simp only [Bool.not_eq_true, Bool.decide_eq_false] at hsum
  rw [explicitValues, List.length_map, explicitEntries, ← List.countP_eq_length_filter, ← hsum]
  exact h

/-- All values of the program differ, if there are enough of them. -/
theorem nodup_values_assigned_iff (h : p.explicitValues.Nodup) :
    (p.assigned.enumEntries.map fun c => c.entry.value).Nodup ↔
      p.enumEntries.length ≤ 2 ^ 64 := by
  constructor
  · intro hnodup
    have hle := length_le_of_nodup hnodup
    rw [List.length_map, ← (givenValue_assigned p).length_eq] at hle
    exact hle
  · intro hle
    have hassigns := assigns_assigned hle
    have hnodup := hassigns.nodup h
    -- Explicit entries and the others make up all entries.
    rw [explicitValues, explicitEntries, ← hassigns.filter_explicit, ← List.map_append] at hnodup
    refine (List.Perm.map _ ?_).nodup_iff.mp hnodup
    exact (List.perm_append_comm).trans (List.filter_append_perm _ _)

end Splice.Program

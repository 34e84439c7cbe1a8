import Splice.Proofs.Program.Locations

/-!
# Identifiers of namespaces

A namespace is named for its file, with a number behind the name if another one has it
already.  There is one more candidate than there are namespaces and the candidates
differ, so one of them is free: identifiers are unique however the program came about
(`Program.History.identified`).
-/

namespace Splice

namespace Text

theorem digit_bounds {n : Nat} {c : Char} (hc : c ∈ Nat.toDigits 10 n) :
    48 ≤ c.toNat ∧ c.toNat ≤ 57 := by
  have hdigit := Nat.isDigit_of_mem_toDigits (by decide) (by decide) hc
  rw [Char.isDigit, Bool.and_eq_true, decide_eq_true_eq, decide_eq_true_eq] at hdigit
  exact hdigit

theorem toNat_digit {n : Nat} {c : Char} (hc : c ∈ Nat.toDigits 10 n) :
    c.toNat.toUInt8.toNat = c.toNat := by
  have hbounds := digit_bounds hc
  exact Nat.mod_eq_of_lt (by omega)

theorem ofNat_eq_map (n : Nat) :
    ofNat n = (Nat.toDigits 10 n).map fun c => c.toNat.toUInt8 := by
  unfold ofNat ofString
  rw [Nat.toList_repr, List.map_eq_flatMap]
  refine List.flatMap_congr fun c hc => ?_
  have hbounds := digit_bounds hc
  rw [encodePoint, if_pos (by omega)]

/-- Different numbers are spelled differently. -/
theorem ofNat_injective : Function.Injective ofNat := by
  intro n m h
  have hback : ∀ k, (ofNat k).map (fun b => Char.ofNat b.toNat) = Nat.toDigits 10 k := by
    intro k
    rw [ofNat_eq_map, List.map_map]
    refine (List.map_congr_left fun c hc => ?_).trans (List.map_id _)
    rw [Function.comp_apply, toNat_digit hc, Char.ofNat_toNat, id]
  have hdigits : Nat.toDigits 10 n = Nat.toDigits 10 m := by
    rw [← hback n, h, hback m]
  calc
    n = Nat.ofDigitChars 10 (Nat.toDigits 10 n) 0 :=
      (Nat.ofDigitChars_toDigits (by decide) (by decide)).symm
    _ = Nat.ofDigitChars 10 (Nat.toDigits 10 m) 0 := by rw [hdigits]
    _ = m := Nat.ofDigitChars_toDigits (by decide) (by decide)

theorem isWord_ofNat (n : Nat) : IsWord (ofNat n) := by
  intro x hx _
  rw [ofNat_eq_map] at hx
  obtain ⟨c, hc, rfl⟩ := List.mem_map.mp hx
  have hbounds := digit_bounds hc
  have hlt : c.toNat < 128 := by omega
  simp [toNat_digit hc, isWord, isDigit, hlt, hbounds]

end Text

theorem SourceUnit.isWord_shortName (u : SourceUnit) : Text.IsWord u.shortName := by
  unfold shortName
  dsimp only
  split
  · exact Text.isWord_of_all (by decide)
  · apply Text.isWord_ofGlyphs (t := (Text.cut 46 (Path.base u.location)).1)
    · intro g hg
      exact (List.mem_filter.mp hg).1
    · intro g hg
      simpa using (List.mem_filter.mp hg).2

namespace Program

variable {p p' q : Program} {n m : NamespaceId} {loader : Loader} {units : SourceUnit → Prop}

def idCandidates (p : Program) (base : Text) : List Text :=
  base :: (List.range p.namespaces.size).map fun n => base ++ "_" ++ Text.ofNat (n + 2)

theorem uniqueId_eq (p : Program) (base : Text) :
    p.uniqueId base = ((p.idCandidates base).find? fun id => !p.isUsedId id).getD base :=
  rfl

theorem nodup_idCandidates (p : Program) (base : Text) : (p.idCandidates base).Nodup := by
  refine List.nodup_cons.mpr ⟨?_, ?_⟩
  · intro hmem
    obtain ⟨k, -, hk⟩ := List.mem_map.mp hmem
    have hlength := congrArg List.length hk
    simp only [List.length_append] at hlength
    have hunderscore : (("_" : Text) : Text).length = 1 := by decide
    omega
  · refine List.Nodup.map ?_ List.nodup_range
    intro a b hab
    have hnumbers := Text.ofNat_injective (List.append_cancel_left hab)
    omega

theorem isUsedId_iff {id : Text} :
    p.isUsedId id = true ↔ ∃ n < p.namespaces.size, (p.spaceAt n).id = id := by
  simp only [isUsedId, Array.any_eq_true, beq_iff_eq]
  constructor
  · rintro ⟨n, hn, hid⟩
    exact ⟨n, hn, by simpa [spaceAt, hn] using hid⟩
  · rintro ⟨n, hn, hid⟩
    exact ⟨n, hn, by simpa [spaceAt, hn] using hid⟩

/-- A new namespace gets an identifier that no other one has. -/
theorem isUsedId_uniqueId (p : Program) (base : Text) : p.isUsedId (p.uniqueId base) = false := by
  rw [uniqueId_eq]
  cases hfind : (p.idCandidates base).find? fun id => !p.isUsedId id with
  | some id =>
      have hfree := List.find?_some hfind
      simpa using hfree
  | none =>
      exfalso
      -- All candidates would be identifiers of namespaces, of which there are fewer.
      have hsubset : p.idCandidates base ⊆
          (List.range p.namespaces.size).map fun n => (p.spaceAt n).id := by
        intro id hid
        have hused := List.find?_eq_none.mp hfind id hid
        rw [Bool.not_eq_true, Bool.not_eq_false'] at hused
        obtain ⟨n, hn, hid⟩ := isUsedId_iff.mp hused
        exact List.mem_map.mpr ⟨n, List.mem_range.mpr hn, hid⟩
      have hle := ((nodup_idCandidates p base).subperm hsubset).length_le
      simp [idCandidates] at hle

theorem uniqueId_mem (p : Program) (base : Text) : p.uniqueId base ∈ p.idCandidates base := by
  rw [uniqueId_eq]
  cases hfind : (p.idCandidates base).find? fun id => !p.isUsedId id with
  | some id => exact List.mem_of_find?_eq_some hfind
  | none => exact List.mem_cons_self

theorem isWord_uniqueId (p : Program) {base : Text} (h : Text.IsWord base) :
    Text.IsWord (p.uniqueId base) := by
  rcases List.mem_cons.mp (uniqueId_mem p base) with hbase | hnumbered
  · rw [hbase]
    exact h
  · obtain ⟨k, -, hk⟩ := List.mem_map.mp hnumbered
    rw [← hk]
    exact (h.append (Text.isWord_of_all (by decide))).append (Text.isWord_ofNat _)

/-- The namespaces have different identifiers, all of them words. -/
structure Identified (p : Program) : Prop where
  distinct : ∀ n < p.namespaces.size, ∀ m < p.namespaces.size,
    (p.spaceAt n).id = (p.spaceAt m).id → n = m
  word : ∀ n < p.namespaces.size, Text.IsWord (p.spaceAt n).id

theorem Identified.register (h : p.Identified) (unit : SourceUnit) :
    (p.register unit).2.Identified := by
  have hunused : ∀ n < p.namespaces.size, (p.spaceAt n).id ≠ p.uniqueId unit.shortName := by
    intro n hn heq
    have hused := isUsedId_iff.mpr ⟨n, hn, heq⟩
    rw [isUsedId_uniqueId] at hused
    cases hused
  constructor
  · intro n hn m hm hid
    rw [size_register] at hn hm
    rw [spaceAt_register, spaceAt_register] at hid
    by_cases hnlast : n = p.namespaces.size
    · by_cases hmlast : m = p.namespaces.size
      · rw [hnlast, hmlast]
      · rw [if_pos hnlast, if_neg hmlast] at hid
        exact absurd hid.symm (hunused m (by omega))
    · by_cases hmlast : m = p.namespaces.size
      · rw [if_neg hnlast, if_pos hmlast] at hid
        exact absurd hid (hunused n (by omega))
      · rw [if_neg hnlast, if_neg hmlast] at hid
        exact h.distinct n (by omega) m (by omega) hid
  · intro n hn
    rw [size_register] at hn
    rw [spaceAt_register]
    split
    · exact isWord_uniqueId p unit.isWord_shortName
    · next hne => exact h.word n (Nat.lt_of_le_of_ne (Nat.le_of_lt_succ hn) hne)

theorem History.identified (h : History loader units p q) (hp : p.Identified) :
    q.Identified := by
  induction h with
  | refl => exact hp
  | openAt _ hopen ih =>
      obtain ⟨-, -, rfl⟩ | ⟨-, text, -, -, rfl⟩ := openAt_cases hopen
      · exact ih
      · exact ih.register _
  | openUnit _ _ ih =>
      unfold Program.openUnit
      split
      · exact ih
      · exact ih.register _
  | work _ hsame ih =>
      constructor
      · intro n hn m hm hid
        rw [hsame.size] at hn hm
        rw [hsame.id, hsame.id] at hid
        exact ih.distinct n hn m hm hid
      · intro n hn
        rw [hsame.size] at hn
        rw [hsame.id]
        exact ih.word n hn

end Program

end Splice

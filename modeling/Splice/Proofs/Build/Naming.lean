import Splice.Proofs.Build.Registration
import Splice.Proofs.Text.Words

/-!
# The names of namespaces

Whatever is opened in whatever order, a namespace is named by the letters, digits and
underscores of its file's name, with the smallest number behind them that makes the name
new.  A number can lead to the name of another file, but the search goes on until a name is
free, so names never meet.  Hence they lead back to their namespaces, and the identifiers of
symbols, which join the name of a namespace to that of the symbol, tell symbols apart.
-/

namespace Splice

theorem SourceUnit.isName_shortName (u : SourceUnit) : Text.IsName u.shortName := by
  unfold shortName
  dsimp only
  split
  · exact Text.isName_of_ascii (by decide)
  · exact Text.isName_filter _

theorem Text.isName_ofNat (n : Nat) : IsName (ofNat n) := by
  refine isName_of_ascii (List.all_eq_true.mpr fun x hx => ?_)
  rw [Bool.and_eq_true, decide_eq_true_eq]
  rw [ofNat_eq_map] at hx
  obtain ⟨c, hc, rfl⟩ := List.mem_map.mp hx
  have hbounds := digit_bounds hc
  have hlt : c.toNat.toUInt8 < 0x80 := by
    rw [UInt8.lt_iff_toNat_lt, toNat_digit hc]
    exact Nat.lt_of_le_of_lt hbounds.2 (by decide)
  exact ⟨hlt, isWord_ofNat n _ (by rw [ofNat_eq_map]; exact List.mem_map_of_mem hc) hlt⟩

namespace Program

variable {p p' p₀ q : Program} {n m : NamespaceId} {loader : Loader}
  {units : SourceUnit → Prop} {readPattern : PatternReader}

def suffixed (base : Text) (k : Nat) : Text := base ++ "_" ++ Text.ofNat k

/-- The name itself if it is not taken, and else the name with the smallest number from 2 on
with which it is not. -/
inductive FirstFree (taken : Text → Prop) (base : Text) : Text → Prop
  | plain : ¬taken base → FirstFree taken base base
  | numbered {k : Nat} : taken base → 2 ≤ k → ¬taken (suffixed base k) →
      (∀ j, 2 ≤ j → j < k → taken (Program.suffixed base j)) →
        FirstFree taken base (Program.suffixed base k)

theorem FirstFree.not_taken {taken : Text → Prop} {base id : Text}
    (h : FirstFree taken base id) : ¬taken id := by
  cases h with
  | plain hfree => exact hfree
  | numbered _ _ hfree _ => exact hfree

theorem FirstFree.ne_nil {taken : Text → Prop} {base id : Text} (h : FirstFree taken base id)
    (hbase : base ≠ []) : id ≠ [] := by
  cases h with
  | plain => exact hbase
  | numbered => simp [Program.suffixed, hbase]

theorem FirstFree.isName {taken : Text → Prop} {base id : Text} (h : FirstFree taken base id)
    (hbase : Text.IsName base) : Text.IsName id := by
  cases h with
  | plain => exact hbase
  | @numbered k =>
      have hmark : Text.IsName "_" := Text.isName_of_ascii (by decide)
      exact (hbase.append hmark).append (Text.isName_ofNat k)

/-- The search tries the name first and then the numbers in order. -/
theorem firstFree_uniqueId (p : Program) (base : Text) :
    FirstFree (fun id => p.isUsedId id = true) base (p.uniqueId base) := by
  have hunused := isUsedId_uniqueId p base
  rw [uniqueId_eq, idCandidates, List.find?_cons] at hunused ⊢
  cases hbase : p.isUsedId base with
  | false => exact .plain (by simp [hbase])
  | true =>
      simp only [hbase, Bool.not_true] at hunused ⊢
      rw [List.find?_map] at hunused ⊢
      cases hfind : (List.range p.namespaces.size).find?
          ((fun id => !p.isUsedId id) ∘ fun n => base ++ ("_" : Text) ++ Text.ofNat (n + 2)) with
      | none =>
          rw [hfind, Option.map_none, Option.getD_none, hbase] at hunused
          cases hunused
      | some i =>
          obtain ⟨hfree, -, hbefore⟩ := List.find?_range_eq_some.mp hfind
          refine .numbered hbase (Nat.le_add_left 2 i) (by simpa [suffixed] using hfree) ?_
          intro j hj hlt
          have hused := hbefore (j - 2) (by omega)
          simpa [suffixed, Nat.sub_add_cancel hj] using hused

/-- A namespace before some namespace has the name. -/
def TakenBefore (p : Program) (n : NamespaceId) (id : Text) : Prop :=
  ∃ m < n, (p.spaceAt m).id = id

/-- Every namespace got the first name that was free when it was opened. -/
def NamedInOrder (p : Program) : Prop :=
  ∀ n < p.namespaces.size,
    FirstFree (p.TakenBefore n) (p.spaceAt n).unit.shortName (p.spaceAt n).id

theorem NamedInOrder.congr (h : p.NamedInOrder) (hid : ∀ m ≤ n, (p'.spaceAt m).id = (p.spaceAt m).id)
    (hunit : (p'.spaceAt n).unit = (p.spaceAt n).unit) (hn : n < p.namespaces.size) :
    FirstFree (p'.TakenBefore n) (p'.spaceAt n).unit.shortName (p'.spaceAt n).id := by
  have htaken : p'.TakenBefore n = p.TakenBefore n := by
    funext id
    refine propext (exists_congr fun m => and_congr_right fun hm => ?_)
    rw [hid m hm.le]
  rw [htaken, hunit, hid n le_rfl]
  exact h n hn

theorem NamedInOrder.register (h : p.NamedInOrder) (unit : SourceUnit) :
    (p.register unit).2.NamedInOrder := by
  intro n hn
  rw [size_register] at hn
  by_cases hlast : n = p.namespaces.size
  · subst hlast
    have htaken : (p.register unit).2.TakenBefore p.namespaces.size =
        fun id => p.isUsedId id = true := by
      funext id
      rw [isUsedId_iff]
      refine propext (exists_congr fun m => and_congr_right fun hm => ?_)
      rw [spaceAt_register, if_neg hm.ne]
    rw [htaken, spaceAt_register, if_pos rfl]
    exact firstFree_uniqueId p unit.shortName
  · have hlt : n < p.namespaces.size := Nat.lt_of_le_of_ne (Nat.le_of_lt_succ hn) hlast
    have hold : ∀ m ≤ n, (p.register unit).2.spaceAt m = p.spaceAt m := by
      intro m hm
      rw [spaceAt_register, if_neg (hm.trans_lt hlt).ne]
    exact h.congr (fun m hm => by rw [hold m hm]) (by rw [hold n le_rfl]) hlt

theorem History.namedInOrder (h : History loader units p q) (hp : p.NamedInOrder) :
    q.NamedInOrder := by
  induction h with
  | refl => exact hp
  | openAt _ hopen ih =>
      obtain ⟨-, -, rfl⟩ | ⟨-, text, -, -, rfl⟩ := openAt_cases hopen
      · exact ih
      · exact ih.register _
  | openUnit _ _ ih =>
      unfold Program.openUnit
      split
      · exact ih
      · exact ih.register _
  | work _ hsame ih =>
      intro n hn
      rw [hsame.size] at hn
      exact ih.congr (fun m _ => hsame.id m) (hsame.unit n) hn

theorem Identified.byId?_eq (h : p.Identified) (hn : n < p.namespaces.size) :
    p.byId? (p.spaceAt n).id = some n := by
  refine List.find?_range_eq_some.mpr ⟨beq_self_eq_true _, List.mem_range.mpr hn, ?_⟩
  intro m hm
  simp only [Bool.not_eq_true', beq_eq_false_iff_ne]
  intro hid
  exact hm.ne (h.distinct m (hm.trans hn) n hn hid)

theorem idOf_eq {space : Text} (h : space ≠ []) (name : Text) :
    Symbol.idOf space name = space ++ 58 :: name := by
  have hcolon : (":" : Text) = [58] := by decide
  rw [Symbol.idOf, if_neg (by simpa using h), hcolon, List.append_assoc]
  rfl

/-- The names of namespaces differ, are made of letters, digits and underscores, are the
first that were free, and tell namespaces and symbols apart. -/
structure Unambiguous (p : Program) : Prop where
  distinct : ∀ n < p.namespaces.size, ∀ m < p.namespaces.size,
    (p.spaceAt n).id = (p.spaceAt m).id → n = m
  name : ∀ n < p.namespaces.size, (p.spaceAt n).id ≠ [] ∧ Text.IsName (p.spaceAt n).id
  chosen : p.NamedInOrder
  symbol : ∀ n < p.namespaces.size, ∀ m < p.namespaces.size, ∀ name other,
    Symbol.idOf (p.spaceAt n).id name = Symbol.idOf (p.spaceAt m).id other →
      n = m ∧ name = other
  property : ∀ n < p.namespaces.size, ∀ name other,
    Symbol.idOf (p.spaceAt n).id name ≠ Symbol.idOf [] other
  found : ∀ n < p.namespaces.size, p.byId? (p.spaceAt n).id = some n

theorem NamedInOrder.id_ne (h : p.NamedInOrder) (hn : n < p.namespaces.size) :
    (p.spaceAt n).id ≠ [] :=
  (h n hn).ne_nil (shortName_ne _)

theorem Identified.unambiguous (h : p.Identified) (hnamed : p.NamedInOrder) :
    p.Unambiguous where
  distinct := h.distinct
  name n hn := ⟨hnamed.id_ne hn, (hnamed n hn).isName (SourceUnit.isName_shortName _)⟩
  chosen := hnamed
  symbol n hn m hm name other heq := by
    rw [idOf_eq (hnamed.id_ne hn), idOf_eq (hnamed.id_ne hm)] at heq
    obtain ⟨hid, hname⟩ := Text.append_cons_inj (h.word n hn).colon_not_mem
      (h.word m hm).colon_not_mem heq
    exact ⟨h.distinct n hn m hm hid, hname⟩
  property n hn name other heq := by
    -- The identifier of a property starts with a dot, that of a namespace has none.
    have hdot := (h.word n hn).dot_not_mem
    rw [idOf_eq (hnamed.id_ne hn)] at heq
    cases hid : (p.spaceAt n).id with
    | nil => exact hnamed.id_ne hn hid
    | cons x rest =>
        have hmark : Symbol.idOf [] other = 46 :: other := rfl
        rw [hid, hmark, List.cons_append, List.cons.injEq] at heq
        rw [hid, heq.1] at hdot
        exact hdot List.mem_cons_self
  found n hn := h.byId?_eq hn

/-- However namespaces are opened, and whatever is done in between, their names are
unambiguous. -/
theorem names_unambiguous (loader : Loader) {workingDir : Text} {patterns : List Text}
    (hcreate : create workingDir patterns readPattern = .ok p₀)
    (h : History loader (fun _ => True) p₀ p) : p.Unambiguous := by
  have hempty : p₀.NamedInOrder := by
    intro n hn
    rw [size_create hcreate] at hn
    exact absurd hn (Nat.not_lt_zero n)
  exact (h.identified (identified_create hcreate)).unambiguous (h.namedInOrder hempty)

def crowdedProgram : Program :=
  let p : Program := { workingDir := "/" }
  let p := (p.openUnit ⟨[], "/a/util.wv"⟩).2
  let p := (p.openUnit ⟨[], "/b/util.wv"⟩).2
  (p.openUnit ⟨[], "/c/util_2.wv"⟩).2

set_option maxRecDepth 10000 in
theorem names_unambiguous_sample :
    create "/" [] = .ok { workingDir := "/" } ∧
      History (.ofSources []) (fun _ => True) { workingDir := "/" } crowdedProgram ∧
      crowdedProgram.Unambiguous ∧
      (List.range crowdedProgram.namespaces.size).map (fun n => (crowdedProgram.spaceAt n).id) =
        ["util", "util_2", "util_2_2"] := by
  have hcreate := create_nil "/" Glob.reader
  have hhistory : History (.ofSources []) (fun _ => True) { workingDir := "/" } crowdedProgram :=
    (((History.refl _).openUnit trivial).openUnit trivial).openUnit trivial
  exact ⟨hcreate, hhistory, names_unambiguous _ hcreate hhistory, by decide +kernel⟩

end Program

end Splice

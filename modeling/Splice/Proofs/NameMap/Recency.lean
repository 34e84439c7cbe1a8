import Splice.Proofs.Instant
import Splice.Proofs.NameMap.History

/-!
# The newest builds

Which of two builds is newer is read off the written times.  That is the order of the times
themselves, but for a build whose time abridges the time of a later one: it counts as the
newer of the two.  Where no time abridges another one, the newest build is the one with the
latest time, and what is kept when older builds are removed are the builds with the latest
times.
-/

namespace Splice

variable {a b c : BuildRecord}

namespace BuildRecord

theorem isNewer_iff :
    a.isNewer b = true ↔
      a.time.text = b.time.text ∧ Text.le b.id a.id = true ∨
        a.time.text ≠ b.time.text ∧ Text.le b.time.text a.time.text = true := by
  rw [isNewer]
  by_cases hsame : a.time.text = b.time.text
  · rw [if_pos (beq_iff_eq.mpr hsame)]
    simp only [hsame, ne_eq, not_true, false_and, true_and, or_false]
  · rw [if_neg (by simpa only [beq_iff_eq] using hsame)]
    simp only [hsame, ne_eq, not_false_eq_true, false_and, true_and, false_or]

theorem isNewer_total (a b : BuildRecord) : (a.isNewer b || b.isNewer a) = true := by
  rw [Bool.or_eq_true, isNewer_iff, isNewer_iff]
  generalize a.time.text = x
  generalize b.time.text = y
  by_cases hsame : x = y
  · rcases Text.le_total b.id a.id with hle | hle
    · exact Or.inl (Or.inl ⟨hsame, hle⟩)
    · exact Or.inr (Or.inl ⟨hsame.symm, hle⟩)
  · rcases Text.le_total y x with hle | hle
    · exact Or.inl (Or.inr ⟨hsame, hle⟩)
    · exact Or.inr (Or.inr ⟨Ne.symm hsame, hle⟩)

theorem isNewer_trans (hab : a.isNewer b = true) (hbc : b.isNewer c = true) :
    a.isNewer c = true := by
  rw [isNewer_iff] at *
  generalize a.time.text = x at *
  generalize b.time.text = y at *
  generalize c.time.text = z at *
  rcases hab with ⟨rfl, hid⟩ | ⟨hne, hle⟩
  · rcases hbc with ⟨rfl, hid'⟩ | ⟨hne', hle'⟩
    · exact Or.inl ⟨rfl, Text.le_trans hid' hid⟩
    · exact Or.inr ⟨hne', hle'⟩
  · rcases hbc with ⟨rfl, hid'⟩ | ⟨hne', hle'⟩
    · exact Or.inr ⟨hne, hle⟩
    · refine Or.inr ⟨?_, Text.le_trans hle' hle⟩
      rintro rfl
      exact hne (Text.le_antisymm hle' hle)

/-- An older build counts as newer exactly if its time abridges the time of the other one. -/
theorem isNewer_iff_abridges (ha : a.time.HasPlainYear) (hb : b.time.HasPlainYear)
    (h : a.time.nanoseconds < b.time.nanoseconds) :
    a.isNewer b = true ↔ a.time.Abridges b.time := by
  rw [isNewer_iff, ← Instant.le_text_iff ha hb h]
  simp only [Instant.text_ne ha hb h, false_and, false_or, ne_eq, not_false_eq_true, true_and]

/-- Builds whose written times have the order of their times. -/
structure Chronicle (bs : List BuildRecord) : Prop where
  plain : ∀ b ∈ bs, b.time.HasPlainYear
  different : bs.Pairwise fun a b => a.time ≠ b.time
  whole : ∀ a ∈ bs, ∀ b ∈ bs, ¬a.time.Abridges b.time

def laterThan (bs : List BuildRecord) (t : Instant) : Nat :=
  bs.countP fun b => t.nanoseconds < b.time.nanoseconds

end BuildRecord

namespace NameMap

open BuildRecord (Chronicle laterThan)

variable {m : NameMap} {k : Nat}

theorem perm_newestFirst (m : NameMap) : m.newestFirst.Perm m.builds := List.mergeSort_perm ..

theorem pairwise_isNewer_newestFirst (m : NameMap) :
    m.newestFirst.Pairwise fun a b => a.isNewer b = true :=
  @List.pairwise_mergeSort _ BuildRecord.isNewer
    (fun _ _ _ hab hbc => BuildRecord.isNewer_trans hab hbc) BuildRecord.isNewer_total m.builds

/-- The builds stand in the order of their times, the latest one first. -/
theorem pairwise_newestFirst (h : Chronicle m.builds) :
    m.newestFirst.Pairwise fun a b => b.time.nanoseconds < a.time.nanoseconds := by
  have hperm := m.perm_newestFirst
  have hdifferent : m.newestFirst.Pairwise fun a b => a.time ≠ b.time :=
    (hperm.pairwise_iff fun hab => hab.symm).mpr h.different
  refine (m.pairwise_isNewer_newestFirst.and hdifferent).imp_of_mem ?_
  intro a b ha hb hab
  have ha' := hperm.mem_iff.mp ha
  have hb' := hperm.mem_iff.mp hb
  have hne : a.time.nanoseconds ≠ b.time.nanoseconds := fun heq =>
    hab.2 (by cases ha : a.time; cases hb : b.time; simp_all)
  rcases Int.lt_or_gt_of_ne hne with hlt | hgt
  · have habridges :=
      (BuildRecord.isNewer_iff_abridges (h.plain a ha') (h.plain b hb') hlt).mp hab.1
    exact absurd habridges (h.whole a ha' b hb')
  · exact hgt

/-- The first elements of a list in strict order are those that few elements come before. -/
theorem mem_take_iff_countP {α : Type} {r : α → α → Bool}
    (hasymm : ∀ a b, r a b = true → r b a = false) {xs : List α}
    (h : xs.Pairwise fun a b => r a b = true) {b : α} :
    b ∈ xs.take k ↔ b ∈ xs ∧ xs.countP (r · b) < k := by
  induction xs generalizing k with
  | nil => simp
  | cons first rest ih =>
      rw [List.pairwise_cons] at h
      have hself : r first first = false := by
        by_contra hr
        rw [Bool.not_eq_false] at hr
        rw [hasymm first first hr] at hr
        cases hr
      cases k with
      | zero => simp
      | succ k =>
          rw [List.take_succ_cons, List.mem_cons, List.mem_cons, ih h.2, List.countP_cons]
          constructor
          · rintro (rfl | ⟨hb, hfew⟩)
            · have hnone : rest.countP (r · b) = 0 :=
                List.countP_eq_zero.mpr fun c hc => by simp [hasymm b c (h.1 c hc)]
              simp [hnone, hself]
            · refine ⟨.inr hb, ?_⟩
              split <;> omega
          · rintro ⟨rfl | hb, hfew⟩
            · exact .inl rfl
            · refine .inr ⟨hb, ?_⟩
              simp only [h.1 b hb, if_true] at hfew
              omega

/-- The first builds of a list in descending order are those with few later ones. -/
theorem mem_take_iff {bs : List BuildRecord} {b : BuildRecord}
    (h : bs.Pairwise fun a b => b.time.nanoseconds < a.time.nanoseconds) :
    b ∈ bs.take k ↔ b ∈ bs ∧ laterThan bs b.time < k := by
  have hasymm : ∀ a b : BuildRecord, decide (b.time.nanoseconds < a.time.nanoseconds) = true →
      decide (a.time.nanoseconds < b.time.nanoseconds) = false :=
    fun a b hlt => decide_eq_false (Int.lt_asymm (of_decide_eq_true hlt))
  exact mem_take_iff_countP hasymm (h.imp decide_eq_true)

/-- The newest build is the one with the latest time. -/
theorem latest_eq (h : Chronicle m.builds) (hb : b ∈ m.builds)
    (hlast : ∀ c ∈ m.builds, c.time.nanoseconds ≤ b.time.nanoseconds) : m.latest = .ok b := by
  have hperm := m.perm_newestFirst
  have hsorted := pairwise_newestFirst h
  have hreadable := Instant.hasPlainYear_iff.mp (h.plain b hb)
  rw [latest]
  cases hfirst : m.newestFirst with
  | nil =>
      rw [hfirst] at hperm
      cases hperm.mem_iff.mpr hb
  | cons first rest =>
      rw [hfirst] at hsorted hperm
      rw [List.pairwise_cons] at hsorted
      have hsame : first = b := by
        rcases List.mem_cons.mp (hperm.mem_iff.mpr hb) with heq | hmem
        · exact heq.symm
        · have hlt := hsorted.1 b hmem
          have hle := hlast first (hperm.mem_iff.mp List.mem_cons_self)
          omega
      subst hsame
      simp only [hreadable]

/-- Only builds with few later ones are kept. -/
theorem builds_prune (h : Chronicle m.builds) (hids : (m.builds.map (·.id)).Nodup) (keep : Int) :
    (m.prune keep).1.builds =
        m.builds.filter (fun b => laterThan m.builds b.time < keep.toNat) ∧
      (m.prune keep).2 = m.builds.countP fun b => keep.toNat ≤ laterThan m.builds b.time := by
  have hperm := m.perm_newestFirst
  have hlater : ∀ t, laterThan m.newestFirst t = laterThan m.builds t :=
    fun t => hperm.countP_eq _
  have hkept : ∀ b ∈ m.builds,
      (!!((m.newestFirst.take keep.toNat).map (·.id)).contains b.id) =
        decide (laterThan m.builds b.time < keep.toNat) := by
    intro b hb
    rw [Bool.not_not, Bool.eq_iff_iff, List.contains_iff_mem, decide_eq_true_iff, ← hlater]
    constructor
    · intro hmem
      obtain ⟨c, hc, hid⟩ := List.mem_map.mp hmem
      have hc' := hperm.mem_iff.mp ((List.take_subset ..) hc)
      rw [← List.inj_on_of_nodup_map hids hc' hb hid]
      exact ((mem_take_iff (pairwise_newestFirst h)).mp hc).2
    · intro hfew
      exact List.mem_map_of_mem
        ((mem_take_iff (pairwise_newestFirst h)).mpr ⟨hperm.mem_iff.mpr hb, hfew⟩)
  have hbuilds : (m.prune keep).1.builds =
      m.builds.filter fun b => laterThan m.builds b.time < keep.toNat :=
    List.filter_congr hkept
  refine ⟨hbuilds, ?_⟩
  have hremoved : (m.prune keep).2 = m.builds.length - (m.prune keep).1.builds.length := rfl
  have hsplit := List.length_eq_countP_add_countP
    (fun b => decide (laterThan m.builds b.time < keep.toNat)) (l := m.builds)
  rw [hremoved, hbuilds, ← List.countP_eq_length_filter, hsplit, Nat.add_sub_cancel_left]
  refine List.countP_congr fun b _ => ?_
  simp

end NameMap

namespace NameStore

open BuildRecord (Chronicle laterThan)
open Recording (standing)

variable {s : NameStore} {bs : List BuildRecord} {history : List Recording}

/-- The newest of some builds are those with the latest times. -/
structure GoesByTime (s : NameStore) (bs : List BuildRecord) : Prop where
  latest_eq : ∀ b ∈ bs, (∀ c ∈ bs, c.time.nanoseconds ≤ b.time.nanoseconds) →
    s.latest = .ok b ∧ ∀ code, s.lookup [] code = s.lookup b.id code
  /-- So many of the newest builds are kept, and the number of all others is told. -/
  prune_eq : ∀ keep : Int, ∃ kept,
    s.prune keep = .ok (kept, bs.countP fun b => keep.toNat ≤ laterThan bs b.time) ∧
      kept.map.builds = bs.filter fun b => laterThan bs b.time < keep.toNat

theorem goesByTime (hopen : s.isOpen = true) (hwritable : s.readOnly = false)
    (h : Chronicle s.map.builds) (hids : (s.map.builds.map (·.id)).Nodup)
    (hnamed : ∀ b ∈ s.map.builds, b.id ≠ []) : s.GoesByTime s.map.builds := by
  constructor
  · intro b hb hlast
    have hmap := NameMap.latest_eq h hb hlast
    refine ⟨?_, fun code => ?_⟩
    · rw [latest, request_eq hopen, hmap]
      rfl
    · have hlookup : s.map.lookup [] code = s.map.lookup b.id code := by
        rw [NameMap.lookup_of_ne_nil (hnamed b hb), NameMap.lookup, hmap]
        rfl
      rw [lookup, lookup, request_eq hopen, request_eq hopen, hlookup]
  · intro keep
    obtain ⟨hbuilds, hremoved⟩ := NameMap.builds_prune h hids keep
    refine ⟨{ s with map := (s.map.prune keep).1 }, ?_, hbuilds⟩
    rw [prune, change_eq hopen hwritable, ← hremoved]
    rfl

/-- After a history of recordings under pairwise different times, an older build counts as
newer than a later one exactly if its time abridges the later time.  If that is so for none
of the builds that stand, the newest builds are those with the latest times. -/
theorem newest_by_time (hopen : s.isOpen = true) (hwritable : s.readOnly = false)
    (hempty : s.map.builds = []) (hplain : ∀ r ∈ history, r.time.HasPlainYear)
    (hdifferent : history.Pairwise fun q r => q.time ≠ r.time) :
    let bs := (standing history).map Recording.build
    (s.takeAll history).map.builds = bs ∧
      (∀ a ∈ bs, ∀ b ∈ bs, a.time.nanoseconds < b.time.nanoseconds →
        (a.isNewer b = true ↔ a.time.Abridges b.time)) ∧
      ((∀ a ∈ bs, ∀ b ∈ bs, ¬a.time.Abridges b.time) → (s.takeAll history).GoesByTime bs) := by
  intro bs
  have hbuilds : (s.takeAll history).map.builds = bs := by
    rw [builds_takeAll hopen hwritable, hempty]
    rfl
  have hstanding : ∀ b ∈ bs, ∃ r ∈ history, r.isSound = true ∧ r.build = b := by
    intro b hb
    obtain ⟨r, hr, rfl⟩ := List.mem_map.mp hb
    exact ⟨r, (Recording.standing_sublist history).subset hr,
      Recording.isSound_of_mem_standing hr, rfl⟩
  have hplain' : ∀ b ∈ bs, b.time.HasPlainYear := by
    intro b hb
    obtain ⟨r, hr, -, rfl⟩ := hstanding b hb
    exact hplain r hr
  refine ⟨hbuilds, ?_, fun hwhole => ?_⟩
  · exact fun a ha b hb hlt =>
      BuildRecord.isNewer_iff_abridges (hplain' a ha) (hplain' b hb) hlt
  · obtain ⟨hopen', hwritable'⟩ := takeAll_isOpen hopen hwritable history
    have hchronicle : Chronicle (s.takeAll history).map.builds := by
      rw [hbuilds]
      refine ⟨hplain', ?_, hwhole⟩
      exact List.pairwise_map.mpr (hdifferent.sublist (Recording.standing_sublist history))
    have hids : ((s.takeAll history).map.builds.map (·.id)).Nodup := by
      rw [hbuilds, List.map_map]
      exact Recording.nodup_id_standing history
    have hnamed : ∀ b ∈ (s.takeAll history).map.builds, b.id ≠ [] := by
      rw [hbuilds]
      intro b hb
      obtain ⟨r, -, hsound, rfl⟩ := hstanding b hb
      exact Recording.id_ne_nil hsound
    have hgoes := goesByTime hopen' hwritable' hchronicle hids hnamed
    rwa [hbuilds] at hgoes

def fresh : NameStore where
  path := "names.db"
  place := some "/names.db"
  map := {}

def recordingAt (id : Text) (nanoseconds : Int) : Recording :=
  ⟨⟨1000000000⟩, id, "/m.wv", ⟨nanoseconds⟩, []⟩

def mixedHistory : List Recording :=
  [recordingAt "a" 250000000, recordingAt " " 9000000000, recordingAt "b" 500000000,
    ⟨⟨0⟩, "b", [], ⟨8000000000⟩, [⟨0, [], "x", [], 1⟩, ⟨0, [], "y", [], 1⟩]⟩,
    recordingAt "c" Instant.unset.nanoseconds, recordingAt "a" 125000000]

theorem newest_by_time_mixed :
    (∀ r ∈ mixedHistory, r.time.HasPlainYear) ∧
      (mixedHistory.Pairwise fun q r => q.time ≠ r.time) ∧
      (fresh.takeAll mixedHistory).GoesByTime
        [⟨"b", "/m.wv", ⟨500000000⟩, 0⟩, ⟨"c", "/m.wv", ⟨1000000000⟩, 0⟩,
          ⟨"a", "/m.wv", ⟨125000000⟩, 0⟩] := by
  have hplain : ∀ r ∈ mixedHistory, r.time.HasPlainYear := by decide +kernel
  have hdifferent : mixedHistory.Pairwise fun q r => q.time ≠ r.time := by decide +kernel
  obtain ⟨-, -, hgoes⟩ := newest_by_time (s := fresh) rfl rfl rfl hplain hdifferent
  exact ⟨hplain, hdifferent, hgoes (by decide +kernel)⟩

/-- Two builds, the second one half a second later than the first one. -/
def halfSecondApart : NameStore := fresh.takeAll [recordingAt "a" 0, recordingAt "b" 500000000]

/-- The build that counts as the newest, and is kept, is the older one. -/
theorem older_build_newest :
    halfSecondApart.map.builds = [⟨"a", "/m.wv", ⟨0⟩, 0⟩, ⟨"b", "/m.wv", ⟨500000000⟩, 0⟩] ∧
      halfSecondApart.latest = .ok ⟨"a", "/m.wv", ⟨0⟩, 0⟩ ∧
      ∃ kept, halfSecondApart.prune 1 = .ok (kept, 1) ∧
        kept.map.builds = [⟨"a", "/m.wv", ⟨0⟩, 0⟩] := by
  have hopen : halfSecondApart.isOpen = true := by decide +kernel
  have hwritable : halfSecondApart.readOnly = false := by decide +kernel
  have hsorted : halfSecondApart.map.newestFirst =
      [⟨"a", "/m.wv", ⟨0⟩, 0⟩, ⟨"b", "/m.wv", ⟨500000000⟩, 0⟩] := by
    rw [NameMap.newestFirst, List.mergeSort_of_pairwise]
    · decide +kernel
    · decide +kernel
  have hlatest : halfSecondApart.map.latest = .ok ⟨"a", "/m.wv", ⟨0⟩, 0⟩ := by
    rw [NameMap.latest, hsorted]
    rfl
  have hprune : halfSecondApart.map.prune 1 = ({ builds := [⟨"a", "/m.wv", ⟨0⟩, 0⟩] }, 1) := by
    rw [NameMap.prune, hsorted]
    decide +kernel
  have hkept : halfSecondApart.prune 1 =
      .ok ({ halfSecondApart with map := { builds := [⟨"a", "/m.wv", ⟨0⟩, 0⟩] } }, 1) := by
    rw [prune, change_eq hopen hwritable, hprune]
    rfl
  refine ⟨by decide +kernel, ?_, _, hkept, rfl⟩
  rw [latest, request_eq hopen, hlatest]
  rfl

end NameStore

end Splice

import Mathlib.Data.Set.Card
import Splice.Proofs.NameMap.Recency

/-!
# The tables as a finite map

What the tables hold is a map from identifiers to builds with their names, as long as no
identifier stands twice, every name belongs to a build, and builds count their names.  Recording a
build, removing builds and keeping the newest ones keep the tables so (`IsConsistent`), and are a
change of one entry, a restriction, and a restriction to the entries with few newer ones.
-/

namespace Splice

/-- A build as it was recorded, without its identifier. -/
structure Saved where
  entry : Text
  time : Instant
  names : List NameEntry
deriving DecidableEq

def Saved.record (x : Saved) (id : Text) : BuildRecord := ⟨id, x.entry, x.time, x.names.length⟩

abbrev BuildMap := Text → Option Saved

namespace BuildMap

def newer (c : BuildMap) (id : Text) : Set Text :=
  {other | other ≠ id ∧ ∃ x y, c other = some x ∧ c id = some y ∧
    (x.record other).isNewer (y.record id) = true}

noncomputable def prune (c : BuildMap) (keep : Int) : BuildMap := fun id =>
  if (c.newer id).ncard < keep.toNat then c id else none

def outdated (c : BuildMap) (keep : Int) : Set Text :=
  {id | c id ≠ none ∧ keep.toNat ≤ (c.newer id).ncard}

def IsNewest (c : BuildMap) (b : BuildRecord) : Prop :=
  ∃ x, c b.id = some x ∧ b = x.record b.id ∧ c.newer b.id = ∅

open Classical in
noncomputable def latest (c : BuildMap) : Except NameMap.Error BuildRecord :=
  if h : ∃ b, c.IsNewest b then
    match h.choose.time.unreadable? with
    | none => .ok h.choose
    | some (rest, expected) => .error (.unreadableTime h.choose.time.text rest expected)
  else .error .nothingRecorded

/-- What a number stands for in a build; no identifier means the newest build. -/
noncomputable def lookup (c : BuildMap) (build : Text) (code : Int64) :
    Except NameMap.Error NameEntry := do
  let build ← if build.isEmpty then c.latest.map (·.id) else .ok build
  match (c build).bind fun x => x.names.find? (·.code == code) with
  | some e => .ok e
  | none => .error (.notMapped code build)

def entries (c : BuildMap) (build : Text) : List NameEntry :=
  (((c build).map (·.names)).getD []).mergeSort fun a b => a.code ≤ b.code

end BuildMap

namespace NameMap

/-- What the tables hold under each identifier. -/
def view (m : NameMap) : BuildMap := fun id =>
  (m.builds.find? (·.id == id)).map fun b => ⟨b.entry, b.time, m.namesOf id⟩

/-- No identifier stands twice, every name belongs to a build, and every build counts its names. -/
structure IsConsistent (m : NameMap) : Prop where
  nodup_ids : (m.builds.map (·.id)).Nodup
  named : ∀ b ∈ m.builds, b.id.isAllBlank = false
  owned : ∀ x ∈ m.names, ∃ b ∈ m.builds, b.id = x.1
  counted : ∀ b ∈ m.builds, b.symbolCount = (m.namesOf b.id).length
  nodup_codes : ∀ id, ((m.namesOf id).map (·.code)).Nodup

theorem isConsistent_empty : IsConsistent {} :=
  ⟨List.nodup_nil, by simp, by simp, by simp, fun _ => List.nodup_nil⟩

variable {m : NameMap} {b : BuildRecord} {id entry : Text} {time : Instant} {es : List NameEntry}

theorem mem_namesOf {e : NameEntry} : e ∈ m.namesOf id ↔ (id, e) ∈ m.names := by
  simp [namesOf]

theorem view_eq_none (h : ∀ b ∈ m.builds, b.id ≠ id) : m.view id = none := by
  have hnone : m.builds.find? (·.id == id) = none :=
    List.find?_eq_none.mpr fun b hb => by simpa using h b hb
  rw [view, hnone]
  rfl

namespace IsConsistent

theorem view_eq_some (h : m.IsConsistent) (hb : b ∈ m.builds) :
    m.view b.id = some ⟨b.entry, b.time, m.namesOf b.id⟩ := by
  cases hfind : m.builds.find? (·.id == b.id) with
  | none => exact absurd (beq_self_eq_true b.id) (List.find?_eq_none.mp hfind b hb)
  | some b' =>
      have hid : b'.id = b.id := by simpa using List.find?_some hfind
      obtain rfl : b' = b :=
        List.inj_on_of_nodup_map h.nodup_ids (List.mem_of_find?_eq_some hfind) hb hid
      rw [view, hfind]
      rfl

theorem exists_saved (h : m.IsConsistent) (hb : b ∈ m.builds) :
    ∃ x, m.view b.id = some x ∧ x.record b.id = b := by
  refine ⟨_, h.view_eq_some hb, ?_⟩
  rw [Saved.record, ← h.counted b hb]

theorem exists_build (h : m.IsConsistent) {x : Saved} (hx : m.view id = some x) :
    ∃ b ∈ m.builds, b.id = id ∧ x.record id = b := by
  obtain ⟨b, hfind, -⟩ := Option.map_eq_some_iff.mp hx
  have hmem := List.mem_of_find?_eq_some hfind
  have hid : b.id = id := by simpa using List.find?_some hfind
  subst hid
  obtain ⟨y, hy, hrecord⟩ := h.exists_saved hmem
  rw [hx] at hy
  exact ⟨b, hmem, rfl, by rw [Option.some.inj hy]; exact hrecord⟩

theorem namesOf_eq (h : m.IsConsistent) (id : Text) :
    m.namesOf id = ((m.view id).map (·.names)).getD [] := by
  by_cases hbuild : ∃ b ∈ m.builds, b.id = id
  · obtain ⟨b, hb, rfl⟩ := hbuild
    rw [h.view_eq_some hb]
    rfl
  · have hnone : ∀ b ∈ m.builds, b.id ≠ id := fun b hb heq => hbuild ⟨b, hb, heq⟩
    rw [view_eq_none hnone]
    refine List.eq_nil_iff_forall_not_mem.mpr fun e he => ?_
    exact hbuild (h.owned _ (mem_namesOf.mp he))

theorem entries_eq (h : m.IsConsistent) (build : Text) :
    m.entries build = m.view.entries build := by
  rw [BuildMap.entries, ← h.namesOf_eq]
  rfl

theorem find?_eq (h : m.IsConsistent) (build : Text) (code : Int64) :
    m.find? build code = (m.view build).bind fun x => x.names.find? (·.code == code) := by
  rw [NameMap.find?_eq, h.namesOf_eq]
  cases m.view build with
  | none => rfl
  | some x => rfl

end IsConsistent

/-- Rows of a removed build are gone, and those of any other one stay. -/
theorem filter_filter_key {α : Type} (key : α → Text) (gone : Text → Bool) (id : Text)
    (rows : List α) :
    (rows.filter fun x => !gone (key x)).filter (fun x => key x == id) =
      if gone id then [] else rows.filter fun x => key x == id := by
  have hrows : ∀ x ∈ rows, (key x == id && !gone (key x)) = (!gone id && (key x == id)) := by
    intro x _
    by_cases hx : key x = id
    · rw [hx, beq_self_eq_true, Bool.true_and, Bool.and_true]
    · rw [beq_false_of_ne hx, Bool.false_and, Bool.and_false]
  rw [List.filter_filter, List.filter_congr hrows]
  cases gone id with
  | true => simp
  | false => simp

theorem namesOf_removeBuilds_eq (m : NameMap) (gone : Text → Bool) (id : Text) :
    (m.removeBuilds gone).namesOf id = if gone id then [] else m.namesOf id := by
  have hrows := filter_filter_key (fun x : Text × NameEntry => x.1) gone id m.names
  rw [namesOf, NameMap.removeBuilds, hrows]
  split
  · rfl
  · rfl

theorem find?_removeBuilds (m : NameMap) (gone : Text → Bool) (id : Text) :
    (m.removeBuilds gone).builds.find? (·.id == id) =
      if gone id then none else m.builds.find? (·.id == id) := by
  rw [← List.head?_filter, ← List.head?_filter, NameMap.removeBuilds,
    filter_filter_key BuildRecord.id gone id m.builds]
  split
  · rfl
  · rfl

theorem view_removeBuilds (m : NameMap) (gone : Text → Bool) (id : Text) :
    (m.removeBuilds gone).view id = if gone id then none else m.view id := by
  rw [view, find?_removeBuilds, namesOf_removeBuilds_eq]
  split
  · rfl
  · rfl

theorem IsConsistent.removeBuilds (h : m.IsConsistent) (gone : Text → Bool) :
    (m.removeBuilds gone).IsConsistent := by
  have hbuilds : (m.removeBuilds gone).builds.Sublist m.builds := List.filter_sublist
  have hkept : ∀ b ∈ (m.removeBuilds gone).builds, gone b.id = false := by
    intro b hb
    simpa using List.of_mem_filter hb
  refine ⟨h.nodup_ids.sublist (hbuilds.map _), fun b hb => h.named b (hbuilds.subset hb), ?_, ?_,
    ?_⟩
  · intro x hx
    obtain ⟨hx, hgone⟩ := List.mem_filter.mp hx
    obtain ⟨b, hb, hid⟩ := h.owned x hx
    exact ⟨b, List.mem_filter.mpr ⟨hb, by rw [hid]; exact hgone⟩, hid⟩
  · intro b hb
    rw [namesOf_removeBuilds_eq, hkept b hb]
    exact h.counted b (hbuilds.subset hb)
  · intro id
    rw [namesOf_removeBuilds_eq]
    split
    · exact List.nodup_nil
    · exact h.nodup_codes id

theorem namesOf_recorded_of_ne {other : Text} (hne : other ≠ id) (m : NameMap) (entry : Text)
    (time : Instant) (es : List NameEntry) :
    (m.recorded id entry time es).namesOf other = m.namesOf other := by
  have hnew : (es.map (Prod.mk id)).filter (·.1 == other) = [] := by
    rw [List.filter_eq_nil_iff]
    intro x hx
    obtain ⟨e, -, rfl⟩ := List.mem_map.mp hx
    simpa using hne.symm
  have hold := namesOf_removeBuilds_eq m (· == id) other
  rw [beq_false_of_ne hne, if_neg (by decide)] at hold
  rw [← hold, namesOf, recorded, List.filter_append, hnew, List.append_nil]
  rfl

theorem view_recorded (m : NameMap) (id entry : Text) (time : Instant) (es : List NameEntry) :
    (m.recorded id entry time es).view = Function.update m.view id (some ⟨entry, time, es⟩) := by
  have hbuilds : (m.recorded id entry time es).builds =
      (m.removeBuilds (· == id)).builds ++ [⟨id, entry, time, es.length⟩] := rfl
  funext other
  by_cases hother : other = id
  · subst hother
    have hnone : (m.removeBuilds (· == other)).builds.find? (·.id == other) = none := by
      rw [find?_removeBuilds, beq_self_eq_true, if_pos rfl]
    rw [Function.update_self, view, namesOf_recorded, hbuilds, List.find?_append, hnone]
    simp
  · have hsame : (m.recorded id entry time es).builds.find? (·.id == other) =
        m.builds.find? (·.id == other) := by
      rw [hbuilds, List.find?_append, find?_removeBuilds, beq_false_of_ne hother,
        if_neg (by decide)]
      simp [Ne.symm hother]
    rw [Function.update_of_ne hother, view, view, hsame, namesOf_recorded_of_ne hother]

theorem IsConsistent.recorded (h : m.IsConsistent) (hid : id.isAllBlank = false)
    (hcodes : (es.map (·.code)).Nodup) (entry : Text) (time : Instant) :
    (m.recorded id entry time es).IsConsistent := by
  have hcleared := h.removeBuilds (· == id)
  have hgone : ∀ b ∈ (m.removeBuilds (· == id)).builds, b.id ≠ id := by
    intro b hb
    simpa using List.of_mem_filter hb
  refine ⟨?_, ?_, ?_, ?_, ?_⟩
  · have hids : (m.recorded id entry time es).builds.map (·.id) =
        (m.removeBuilds (· == id)).builds.map (·.id) ++ [id] := List.map_append
    rw [hids]
    refine hcleared.nodup_ids.append (List.nodup_singleton id) ?_
    simpa using hgone
  · intro b hb
    rcases List.mem_append.mp hb with hb | hb
    · exact hcleared.named b hb
    · rw [List.mem_singleton.mp hb]
      exact hid
  · intro x hx
    rcases List.mem_append.mp hx with hx | hx
    · obtain ⟨b, hb, hbuild⟩ := hcleared.owned x hx
      exact ⟨b, List.mem_append_left _ hb, hbuild⟩
    · obtain ⟨e, -, rfl⟩ := List.mem_map.mp hx
      exact ⟨⟨id, entry, time, es.length⟩, List.mem_append_right _ List.mem_cons_self, rfl⟩
  · intro b hb
    rcases List.mem_append.mp hb with hb | hb
    · have hcount := hcleared.counted b hb
      rw [namesOf_removeBuilds_eq, beq_false_of_ne (hgone b hb), if_neg (by decide)] at hcount
      rw [namesOf_recorded_of_ne (hgone b hb), hcount]
    · rw [List.mem_singleton.mp hb, namesOf_recorded]
  · intro other
    by_cases hother : other = id
    · rw [hother, namesOf_recorded]
      exact hcodes
    · rw [namesOf_recorded_of_ne hother]
      exact h.nodup_codes other

end NameMap

/-! ## The newest builds -/

def BuildRecord.outranks (a b : BuildRecord) : Bool := a.id != b.id && a.isNewer b

theorem BuildRecord.outranks_asymm {a b : BuildRecord} (h : a.outranks b = true) :
    b.outranks a = false := by
  rw [outranks, Bool.and_eq_true, bne_iff_ne] at h
  rw [outranks, Bool.and_eq_false_iff]
  refine .inr (Bool.eq_false_iff.mpr fun hback => ?_)
  rcases isNewer_iff.mp h.2 with ⟨htime, hle⟩ | ⟨hne, hle⟩
  · rcases isNewer_iff.mp hback with ⟨-, hle'⟩ | ⟨hne', -⟩
    · exact h.1 (Text.le_antisymm hle' hle)
    · exact hne' htime.symm
  · rcases isNewer_iff.mp hback with ⟨htime, -⟩ | ⟨-, hle'⟩
    · exact hne htime.symm
    · exact hne (Text.le_antisymm hle' hle)

namespace NameMap

variable {m : NameMap} {b : BuildRecord} {k : Nat}

/-- The builds that are newer than a stored one, by their identifiers. -/
theorem IsConsistent.newer_eq (h : m.IsConsistent) (hb : b ∈ m.builds) :
    m.view.newer b.id = {id | id ∈ (m.builds.filter (·.outranks b)).map (·.id)} := by
  obtain ⟨y, hy, hrecord⟩ := h.exists_saved hb
  ext id
  rw [Set.mem_ofPred_eq, List.mem_map]
  constructor
  · rintro ⟨hne, x, y', hx, hy', hnewer⟩
    obtain ⟨a, ha, rfl, hsaved⟩ := h.exists_build hx
    rw [hy] at hy'
    rw [← Option.some.inj hy', hrecord, hsaved] at hnewer
    refine ⟨a, List.mem_filter.mpr ⟨ha, ?_⟩, rfl⟩
    rw [BuildRecord.outranks, hnewer, Bool.and_true, bne_iff_ne]
    exact hne
  · rintro ⟨a, ha, rfl⟩
    obtain ⟨ha, houtranks⟩ := List.mem_filter.mp ha
    rw [BuildRecord.outranks, Bool.and_eq_true, bne_iff_ne] at houtranks
    obtain ⟨x, hx, hsaved⟩ := h.exists_saved ha
    refine ⟨houtranks.1, x, y, hx, hy, ?_⟩
    rw [hsaved, hrecord]
    exact houtranks.2

/-- Identifiers of stored builds are as many as the builds. -/
theorem IsConsistent.ncard_ids (h : m.IsConsistent) (p : BuildRecord → Bool) :
    {id | id ∈ (m.builds.filter p).map (·.id)}.ncard = (m.builds.filter p).length := by
  have hnodup : ((m.builds.filter p).map (·.id)).Nodup :=
    h.nodup_ids.sublist (List.filter_sublist.map _)
  have hset : {id | id ∈ (m.builds.filter p).map (·.id)} =
      ↑((m.builds.filter p).map (·.id)).toFinset := by
    ext id
    simp
  rw [hset, Set.ncard_coe_finset, List.toFinset_card_of_nodup hnodup, List.length_map]

theorem IsConsistent.ncard_newer (h : m.IsConsistent) (hb : b ∈ m.builds) :
    (m.view.newer b.id).ncard = m.builds.countP (·.outranks b) := by
  rw [h.newer_eq hb, h.ncard_ids, List.countP_eq_length_filter]

theorem IsConsistent.pairwise_newestFirst (h : m.IsConsistent) :
    m.newestFirst.Pairwise fun a b => a.outranks b = true := by
  have hids : m.newestFirst.Pairwise fun a b => a.id ≠ b.id := by
    have hnodup := (m.perm_newestFirst.map (·.id)).nodup_iff.mpr h.nodup_ids
    rwa [List.Nodup, List.pairwise_map] at hnodup
  refine (m.pairwise_isNewer_newestFirst.and hids).imp fun hab => ?_
  rw [BuildRecord.outranks, hab.1, Bool.and_true, bne_iff_ne]
  exact hab.2

/-- Kept are the builds with few newer ones. -/
theorem IsConsistent.mem_kept_iff (h : m.IsConsistent) (hb : b ∈ m.builds) :
    b.id ∈ (m.newestFirst.take k).map (·.id) ↔ (m.view.newer b.id).ncard < k := by
  have hperm := m.perm_newestFirst
  have htake : b ∈ m.newestFirst.take k ↔ (m.view.newer b.id).ncard < k := by
    rw [mem_take_iff_countP (fun _ _ => BuildRecord.outranks_asymm) h.pairwise_newestFirst,
      h.ncard_newer hb, hperm.countP_eq]
    exact and_iff_right (hperm.mem_iff.mpr hb)
  rw [← htake, List.mem_map]
  constructor
  · rintro ⟨a, ha, hid⟩
    have hmem := hperm.mem_iff.mp (List.mem_of_mem_take ha)
    rwa [← List.inj_on_of_nodup_map h.nodup_ids hmem hb hid]
  · intro hmem
    exact ⟨b, hmem, rfl⟩

theorem IsConsistent.view_prune (h : m.IsConsistent) (keep : Int) :
    (m.prune keep).1.view = m.view.prune keep := by
  funext id
  rw [prune, view_removeBuilds, BuildMap.prune]
  cases hview : m.view id with
  | none => simp
  | some x =>
      obtain ⟨b, hb, rfl, -⟩ := h.exists_build hview
      have hkept := h.mem_kept_iff (k := keep.toNat) hb
      rw [← List.contains_iff_mem] at hkept
      simp only [← hkept]
      cases ((m.newestFirst.take keep.toNat).map (·.id)).contains b.id with
      | true => rfl
      | false => rfl

theorem IsConsistent.prune (h : m.IsConsistent) (keep : Int) : (m.prune keep).1.IsConsistent :=
  h.removeBuilds fun id => !((m.newestFirst.take keep.toNat).map BuildRecord.id).contains id

/-- As many builds are removed as do not count among the newest ones. -/
theorem IsConsistent.removed_prune (h : m.IsConsistent) (keep : Int) :
    (m.prune keep).2 = (m.view.outdated keep).ncard := by
  let gone := fun b : BuildRecord =>
    !((m.newestFirst.take keep.toNat).map (·.id)).contains b.id
  have hgone : ∀ b ∈ m.builds, gone b = true ↔ keep.toNat ≤ (m.view.newer b.id).ncard := by
    intro b hb
    rw [← Nat.not_lt, ← h.mem_kept_iff hb, Bool.not_eq_true', ← Bool.not_eq_true,
      List.contains_iff_mem]
  have hset : m.view.outdated keep = {id | id ∈ (m.builds.filter gone).map (·.id)} := by
    ext id
    rw [BuildMap.outdated, Set.mem_ofPred_eq, Set.mem_ofPred_eq, List.mem_map]
    constructor
    · rintro ⟨hstored, hmany⟩
      obtain ⟨x, hx⟩ := Option.ne_none_iff_exists'.mp hstored
      obtain ⟨b, hb, rfl, -⟩ := h.exists_build hx
      exact ⟨b, List.mem_filter.mpr ⟨hb, (hgone b hb).mpr hmany⟩, rfl⟩
    · rintro ⟨b, hb, rfl⟩
      obtain ⟨hb, hmany⟩ := List.mem_filter.mp hb
      rw [h.view_eq_some hb]
      exact ⟨Option.some_ne_none _, (hgone b hb).mp hmany⟩
  have hremoved : (m.prune keep).2 =
      m.builds.length - (m.builds.filter fun b => !gone b).length := rfl
  have hsplit := List.length_eq_length_filter_add (l := m.builds) gone
  rw [hset, h.ncard_ids, hremoved]
  omega

theorem IsConsistent.newer_eq_empty_iff (h : m.IsConsistent) (hb : b ∈ m.builds) :
    m.view.newer b.id = ∅ ↔ m.builds.countP (·.outranks b) = 0 := by
  rw [h.newer_eq hb, List.countP_eq_length_filter, List.length_eq_zero_iff,
    Set.eq_empty_iff_forall_notMem]
  constructor
  · intro hnone
    refine List.eq_nil_iff_forall_not_mem.mpr fun a ha => ?_
    exact hnone a.id (List.mem_map_of_mem ha)
  · intro hnil id hid
    rw [Set.mem_ofPred_eq, hnil] at hid
    cases hid

/-- The build in front of all others is the newest one. -/
theorem IsConsistent.isNewest_iff (h : m.IsConsistent) :
    m.view.IsNewest b ↔ ∃ older, m.newestFirst = b :: older := by
  have hperm := m.perm_newestFirst
  have hfirst : b ∈ m.newestFirst.take 1 ↔ ∃ older, m.newestFirst = b :: older := by
    cases m.newestFirst with
    | nil => simp
    | cons first older => simp [eq_comm]
  rw [← hfirst, mem_take_iff_countP (fun _ _ => BuildRecord.outranks_asymm)
    h.pairwise_newestFirst, hperm.countP_eq, Nat.lt_one_iff, hperm.mem_iff]
  constructor
  · rintro ⟨x, hx, hrecord, hnone⟩
    obtain ⟨b', hb', -, hsaved⟩ := h.exists_build hx
    rw [← hrecord] at hsaved
    subst hsaved
    exact ⟨hb', (h.newer_eq_empty_iff hb').mp hnone⟩
  · rintro ⟨hb, hnone⟩
    obtain ⟨x, hx, hsaved⟩ := h.exists_saved hb
    exact ⟨x, hx, hsaved.symm, (h.newer_eq_empty_iff hb).mpr hnone⟩

theorem IsConsistent.latest_eq (h : m.IsConsistent) : m.latest = m.view.latest := by
  rw [latest, BuildMap.latest]
  cases hfirst : m.newestFirst with
  | nil =>
      have hnone : ¬∃ b, m.view.IsNewest b := by
        rintro ⟨b, hb⟩
        obtain ⟨older, holder⟩ := h.isNewest_iff.mp hb
        rw [hfirst] at holder
        cases holder
      rw [dif_neg hnone]
  | cons b older =>
      have hsome : ∃ b, m.view.IsNewest b := ⟨b, h.isNewest_iff.mpr ⟨older, hfirst⟩⟩
      have hchosen : hsome.choose = b := by
        obtain ⟨others, hothers⟩ := h.isNewest_iff.mp hsome.choose_spec
        rw [hfirst] at hothers
        exact (List.cons.inj hothers).1.symm
      rewrite [dif_pos hsome, hchosen]
      rfl

theorem IsConsistent.lookup_eq (h : m.IsConsistent) (build : Text) (code : Int64) :
    m.lookup build code = m.view.lookup build code := by
  have hfind : m.find? = fun build code =>
      (m.view build).bind fun x => x.names.find? (·.code == code) := by
    funext build code
    exact h.find?_eq build code
  rewrite [lookup, BuildMap.lookup, h.latest_eq, hfind]
  rfl

end NameMap

end Splice

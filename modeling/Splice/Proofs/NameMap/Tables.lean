import Mathlib.Data.List.Nodup
import Splice.NameMap.Basic

/-!
# The tables of recorded names

Recording a build goes through its names one by one and stops at the first number that was
met before.  All in all it succeeds exactly for an identifier that is not blank and for
numbers that are pairwise different, and the tables then hold the build and its names in
place of all that was held under the identifier.  Looking up a number and listing the names
of a build read off the names that the build owns.
-/

namespace Splice.NameMap

variable {m m' : NameMap} {id build entry : Text} {time : Instant} {code : Int64}
  {e : NameEntry} {es : List NameEntry}

def namesOf (m : NameMap) (build : Text) : List NameEntry :=
  (m.names.filter (·.1 == build)).map (·.2)

theorem find?_eq (m : NameMap) (build : Text) (code : Int64) :
    m.find? build code = (m.namesOf build).find? (·.code == code) := by
  rw [find?, namesOf, List.find?_map, List.find?_filter]
  simp only [Bool.decide_and, Bool.decide_eq_true, Function.comp_apply]

theorem find?_eq_none_iff : m.find? build code = none ↔ code ∉ (m.namesOf build).map (·.code) := by
  rw [find?_eq, List.find?_eq_none]
  simp only [beq_iff_eq, List.mem_map, not_exists, not_and]

/-- A name is found under its number if no other name of the build has it. -/
theorem find?_eq_some (hnodup : ((m.namesOf build).map (·.code)).Nodup)
    (he : e ∈ m.namesOf build) : m.find? build e.code = some e := by
  cases hfind : m.find? build e.code with
  | none =>
      rw [find?_eq_none_iff] at hfind
      exact absurd (List.mem_map_of_mem he) hfind
  | some e' =>
      rw [find?_eq] at hfind
      have hcode : e'.code = e.code := by simpa using List.find?_some hfind
      rw [List.inj_on_of_nodup_map hnodup (List.mem_of_find?_eq_some hfind) he hcode]

def withNames (m : NameMap) (id : Text) (es : List NameEntry) : NameMap :=
  { m with names := m.names ++ es.map (Prod.mk id) }

theorem namesOf_withNames (m : NameMap) (id : Text) (es : List NameEntry) :
    (m.withNames id es).namesOf id = m.namesOf id ++ es := by
  have hown : (es.map (Prod.mk id)).filter (·.1 == id) = es.map (Prod.mk id) := by
    rw [List.filter_eq_self]
    intro x hx
    obtain ⟨e, -, rfl⟩ := List.mem_map.mp hx
    exact beq_self_eq_true id
  rw [namesOf, withNames, List.filter_append, hown, List.map_append, List.map_map]
  exact congrArg _ (List.map_id es)

theorem addName_of_not_mem (h : e.code ∉ (m.namesOf id).map (·.code)) :
    addName id m e = .ok (m.withNames id [e]) := by
  rw [addName, find?_eq_none_iff.mpr h]
  rfl

theorem addName_of_mem (h : e.code ∈ (m.namesOf id).map (·.code)) :
    addName id m e = .error (.repeatedCode e.code) := by
  rw [addName, if_pos]
  rw [← Option.ne_none_iff_isSome]
  exact fun hnone => find?_eq_none_iff.mp hnone h

/-- Names with pairwise different numbers are all added. -/
theorem foldlM_addName (h : ((m.namesOf id ++ es).map (·.code)).Nodup) :
    es.foldlM (addName id) m = .ok (m.withNames id es) := by
  induction es generalizing m with
  | nil =>
      rw [withNames, List.map_nil, List.append_nil]
      rfl
  | cons e rest ih =>
      have hnew : e.code ∉ (m.namesOf id).map (·.code) := by
        rw [List.map_append, List.nodup_append] at h
        exact fun hold => h.2.2 _ hold _ (List.mem_map_of_mem List.mem_cons_self) rfl
      rw [List.foldlM_cons, addName_of_not_mem hnew]
      have hrest := ih (m := m.withNames id [e]) (by
        rwa [namesOf_withNames, List.append_assoc])
      refine hrest.trans ?_
      rw [withNames, withNames, withNames, List.append_assoc]
      rfl

def firstRepeated : (met : List Int64) → List Int64 → Int64
  | _, [] => 0
  | met, code :: later => if code ∈ met then code else firstRepeated (met ++ [code]) later

/-- A number that is met again stops the recording. -/
theorem foldlM_addName_eq_error (hm : ((m.namesOf id).map (·.code)).Nodup)
    (h : ¬((m.namesOf id ++ es).map (·.code)).Nodup) :
    es.foldlM (addName id) m =
      .error (.repeatedCode (firstRepeated ((m.namesOf id).map (·.code)) (es.map (·.code)))) := by
  induction es generalizing m with
  | nil =>
      rw [List.append_nil] at h
      exact absurd hm h
  | cons e rest ih =>
      rw [List.map_cons, firstRepeated]
      by_cases hold : e.code ∈ (m.namesOf id).map (·.code)
      · rw [List.foldlM_cons, addName_of_mem hold, if_pos hold]
        rfl
      · have hnames : ((m.withNames id [e]).namesOf id).map (·.code) =
            (m.namesOf id).map (·.code) ++ [e.code] := by
          rw [namesOf_withNames, List.map_append, List.map_singleton]
        have hm' : (((m.withNames id [e]).namesOf id).map (·.code)).Nodup := by
          rw [hnames]
          exact hm.append (List.nodup_singleton _) (by simpa using hold)
        have hrest := ih hm' (by rwa [namesOf_withNames, List.append_assoc])
        rw [List.foldlM_cons, addName_of_not_mem hold, if_neg hold, ← hnames]
        exact hrest

/-- The tables after a build was recorded: what was held under its identifier is gone. -/
def recorded (m : NameMap) (id entry : Text) (time : Instant) (es : List NameEntry) : NameMap :=
  let cleared := m.removeBuilds (· == id)
  { cleared with
    builds := cleared.builds ++ [⟨id, entry, time, es.length⟩]
    names := cleared.names ++ es.map (Prod.mk id) }

theorem namesOf_removeBuilds (m : NameMap) (id : Text) :
    (m.removeBuilds (· == id)).namesOf id = [] := by
  rw [namesOf, List.map_eq_nil_iff, removeBuilds, List.filter_filter, List.filter_eq_nil_iff]
  simp

theorem namesOf_recorded (m : NameMap) (id entry : Text) (time : Instant) (es : List NameEntry) :
    (m.recorded id entry time es).namesOf id = es := by
  have hnames := namesOf_withNames (m.removeBuilds (· == id)) id es
  rwa [namesOf_removeBuilds, List.nil_append] at hnames

theorem save_eq_foldlM (m : NameMap) (entry : Text) (time : Instant) (es : List NameEntry)
    (hid : id.isAllBlank = false) :
    ∃ cleared : NameMap, cleared.namesOf id = [] ∧
      cleared.withNames id es = m.recorded id entry time es ∧
      m.save id entry time es = es.foldlM (addName id) cleared :=
  ⟨{ m.removeBuilds (· == id) with
      builds := (m.removeBuilds (· == id)).builds ++ [⟨id, entry, time, es.length⟩] },
    namesOf_removeBuilds m id, rfl, by rw [save, if_neg (by simp [hid])]⟩

theorem save_eq_ok (hid : id.isAllBlank = false) (hnodup : (es.map (·.code)).Nodup) :
    m.save id entry time es = .ok (m.recorded id entry time es) := by
  obtain ⟨cleared, hempty, hrecorded, hsave⟩ := save_eq_foldlM m entry time es hid
  rw [hsave, ← hrecorded]
  exact foldlM_addName (by rwa [hempty, List.nil_append])

theorem save_eq_error (hid : id.isAllBlank = false) (hrepeats : ¬(es.map (·.code)).Nodup) :
    m.save id entry time es = .error (.repeatedCode (firstRepeated [] (es.map (·.code)))) := by
  obtain ⟨cleared, hempty, -, hsave⟩ := save_eq_foldlM m entry time es hid
  have hcleared : ((cleared.namesOf id).map (·.code)).Nodup := by
    rw [hempty]
    exact List.nodup_nil
  have hboth : ¬((cleared.namesOf id ++ es).map (·.code)).Nodup := by
    rwa [hempty, List.nil_append]
  rw [hsave, foldlM_addName_eq_error hcleared hboth, hempty]
  rfl

/-- Recording succeeds exactly for an identifier that is not blank and numbers that are
pairwise different. -/
theorem save_eq_ok_iff :
    m.save id entry time es = .ok m' ↔
      id.isAllBlank = false ∧ (es.map (·.code)).Nodup ∧ m' = m.recorded id entry time es := by
  constructor
  · intro h
    have hid : id.isAllBlank = false := by
      rw [Bool.eq_false_iff]
      intro hblank
      rw [save, if_pos hblank] at h
      cases h
    have hnodup : (es.map (·.code)).Nodup := by
      by_contra hrepeats
      rw [save_eq_error hid hrepeats] at h
      cases h
    rw [save_eq_ok hid hnodup] at h
    cases h
    exact ⟨hid, hnodup, rfl⟩
  · rintro ⟨hid, hnodup, rfl⟩
    exact save_eq_ok hid hnodup

theorem lookup_of_ne_nil (h : build ≠ []) :
    m.lookup build code =
      match m.find? build code with
      | some e => .ok e
      | none => .error (.notMapped code build) := by
  rw [lookup, if_neg (by simpa using h)]
  rfl

theorem perm_entries (m : NameMap) (build : Text) : (m.entries build).Perm (m.namesOf build) :=
  List.mergeSort_perm ..

/-- Names with pairwise different numbers are listed by ascending number. -/
theorem pairwise_entries (h : ((m.namesOf build).map (·.code)).Nodup) :
    (m.entries build).Pairwise fun a b => a.code < b.code := by
  have hle : (m.entries build).Pairwise fun a b => decide (a.code ≤ b.code) = true :=
    List.pairwise_mergeSort
      (fun a b c hab hbc => by
        simpa using Int64.le_trans (by simpa using hab) (by simpa using hbc))
      (fun a b => by simpa using Int64.le_total a.code b.code) (m.namesOf build)
  have hne : (m.entries build).Pairwise fun a b => a.code ≠ b.code := by
    have hcodes := ((m.perm_entries build).map (·.code)).nodup_iff.mpr h
    rwa [List.Nodup, List.pairwise_map] at hcodes
  exact (hle.and hne).imp fun hab => Int64.lt_of_le_of_ne (of_decide_eq_true hab.1) hab.2

end Splice.NameMap

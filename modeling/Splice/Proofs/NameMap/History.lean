import Splice.NameMap.Store
import Splice.Proofs.NameMap.Tables

/-!
# Histories of recordings

A store goes through a history of recordings, some of which fail and change nothing.  What
it holds in the end are the builds of the recordings that stand: those that succeeded and
were not replaced by a later one under the same identifier.
-/

namespace Splice

/-- What is asked of a store when a build is to be recorded. -/
structure Recording where
  /-- The present time. -/
  now : Instant
  id : Text
  entry : Text
  /-- The time that is given for the build, if it is not the one that stands for none. -/
  given : Instant
  names : List NameEntry
deriving DecidableEq

namespace Recording

def time (r : Recording) : Instant := if r.given == Instant.unset then r.now else r.given

def build (r : Recording) : BuildRecord := ⟨r.id, r.entry, r.time, r.names.length⟩

def isSound (r : Recording) : Bool :=
  !r.id.isAllBlank && decide (r.names.map (·.code)).Nodup

/-- Whether one of some recordings replaces what is recorded under an identifier. -/
def replaces (history : List Recording) (id : Text) : Bool :=
  history.any fun r => r.isSound && r.id == id

/-- The recordings of a history that stand in the end. -/
def standing : List Recording → List Recording
  | [] => []
  | r :: later =>
      if r.isSound && !replaces later r.id then r :: standing later else standing later

variable {r : Recording} {history : List Recording}

theorem standing_sublist (history : List Recording) : (standing history).Sublist history := by
  induction history with
  | nil => exact .slnil
  | cons r later ih =>
      rw [standing]
      split
      · exact ih.cons_cons r
      · exact ih.cons r

theorem isSound_iff :
    r.isSound = true ↔ r.id.isAllBlank = false ∧ (r.names.map (·.code)).Nodup := by
  rw [isSound, Bool.and_eq_true, Bool.not_eq_true', decide_eq_true_iff]

theorem isSound_of_mem_standing (h : r ∈ standing history) : r.isSound = true := by
  induction history with
  | nil => cases h
  | cons first later ih =>
      rw [standing] at h
      split at h
      · next hfirst =>
          rw [Bool.and_eq_true] at hfirst
          rcases List.mem_cons.mp h with rfl | h
          · exact hfirst.1
          · exact ih h
      · exact ih h

theorem id_ne_nil (h : r.isSound = true) : r.id ≠ [] := by
  intro hid
  rw [isSound, hid] at h
  cases h

/-- No identifier stands twice. -/
theorem nodup_id_standing (history : List Recording) : ((standing history).map id).Nodup := by
  induction history with
  | nil => exact List.nodup_nil
  | cons r later ih =>
      rw [standing]
      split
      · next hr =>
          rw [List.map_cons, List.nodup_cons]
          refine ⟨fun hmem => ?_, ih⟩
          obtain ⟨q, hq, hid⟩ := List.mem_map.mp hmem
          have hreplaces : replaces later r.id = true := by
            rw [replaces, List.any_eq_true]
            refine ⟨q, (standing_sublist later).subset hq, ?_⟩
            rw [isSound_of_mem_standing hq, hid, beq_self_eq_true, Bool.and_true]
          rw [hreplaces, Bool.not_true, Bool.and_false] at hr
          cases hr
      · exact ih

end Recording

namespace NameStore

open Recording (standing replaces)

variable {s s' : NameStore} {r : Recording} {history : List Recording} {build : Text}
  {code : Int64}

theorem request_eq {α : Type} (hopen : s.isOpen = true) (action : Text)
    (answer : Except NameMap.Error α) :
    s.request action answer = answer.mapError NameMap.Error.toFailure :=
  if_pos hopen

theorem change_eq {α : Type} (hopen : s.isOpen = true) (hwritable : s.readOnly = false)
    (action : Text) (answer : Except NameMap.Error α) :
    s.change action answer = answer.mapError NameMap.Error.toFailure := by
  rw [change, if_neg (by simp [hwritable]), request_eq hopen]

/-- A store that can be changed records exactly what its tables take. -/
theorem save_eq (hopen : s.isOpen = true) (hwritable : s.readOnly = false) (id entry : Text)
    (time : Instant) (es : List NameEntry) :
    s.save id entry time es =
      ((s.map.save id entry time es).mapError NameMap.Error.toFailure).map
        fun map => { s with map } := by
  rw [save]
  split
  · next hblank =>
      rw [NameMap.save, if_pos hblank]
      rfl
  · rw [change_eq hopen hwritable]

theorem lookup_eq (hopen : s.isOpen = true) (hbuild : build ≠ []) :
    s.lookup build code =
      match s.map.find? build code with
      | some e => .ok e
      | none => .error (NameMap.Error.notMapped code build).toFailure := by
  rw [lookup, request_eq hopen, NameMap.lookup_of_ne_nil hbuild]
  cases s.map.find? build code with
  | none => rfl
  | some e => rfl

/-- One recording; if it fails, the store stays as it was. -/
def take (s : NameStore) (r : Recording) : NameStore :=
  match s.record r.now r.id r.entry r.given r.names with
  | .ok s' => s'
  | .error _ => s

def takeAll (s : NameStore) (history : List Recording) : NameStore := history.foldl take s

theorem take_eq (hopen : s.isOpen = true) (hwritable : s.readOnly = false) (r : Recording) :
    s.take r =
      if r.isSound then { s with map := s.map.recorded r.id r.entry r.time r.names } else s := by
  have hrecord : s.record r.now r.id r.entry r.given r.names =
      ((s.map.save r.id r.entry r.time r.names).mapError NameMap.Error.toFailure).map
        fun map => { s with map } :=
    save_eq hopen hwritable ..
  rw [take, hrecord]
  by_cases hsound : r.isSound = true
  · obtain ⟨hid, hnodup⟩ := Recording.isSound_iff.mp hsound
    rw [if_pos hsound, NameMap.save_eq_ok hid hnodup]
    rfl
  · rw [if_neg hsound]
    cases hsave : s.map.save r.id r.entry r.time r.names with
    | error e => rfl
    | ok m =>
        obtain ⟨hid, hnodup, -⟩ := NameMap.save_eq_ok_iff.mp hsave
        exact absurd (Recording.isSound_iff.mpr ⟨hid, hnodup⟩) hsound

theorem take_isOpen (hopen : s.isOpen = true) (hwritable : s.readOnly = false) (r : Recording) :
    (s.take r).isOpen = true ∧ (s.take r).readOnly = false := by
  rw [take_eq hopen hwritable]
  split
  · exact ⟨hopen, hwritable⟩
  · exact ⟨hopen, hwritable⟩

theorem takeAll_isOpen (hopen : s.isOpen = true) (hwritable : s.readOnly = false)
    (history : List Recording) :
    (s.takeAll history).isOpen = true ∧ (s.takeAll history).readOnly = false := by
  induction history generalizing s with
  | nil => exact ⟨hopen, hwritable⟩
  | cons r later ih =>
      obtain ⟨hopen', hwritable'⟩ := take_isOpen hopen hwritable r
      exact ih hopen' hwritable'

/-- A store holds the builds that stand, behind those it held before that are not replaced. -/
theorem builds_takeAll (hopen : s.isOpen = true) (hwritable : s.readOnly = false)
    (history : List Recording) :
    (s.takeAll history).map.builds =
      (s.map.builds.filter fun b => !replaces history b.id) ++
        (standing history).map Recording.build := by
  induction history generalizing s with
  | nil => simp [takeAll, standing, replaces]
  | cons r later ih =>
      obtain ⟨hopen', hwritable'⟩ := take_isOpen hopen hwritable r
      have hlater : (s.takeAll (r :: later)).map.builds = _ := ih hopen' hwritable'
      rw [hlater, take_eq hopen hwritable, standing]
      by_cases hsound : r.isSound = true
      · have hreplaces : ∀ id, replaces (r :: later) id = (r.id == id || replaces later id) := by
          intro id
          rw [replaces, List.any_cons, hsound, Bool.true_and]
          rfl
        have hfilter : ∀ b : BuildRecord,
            (!replaces later b.id && !(b.id == r.id)) = !replaces (r :: later) b.id := by
          intro b
          rw [hreplaces, Bool.not_or, Bool.and_comm, BEq.comm]
        simp only [hsound, if_true, NameMap.recorded, NameMap.removeBuilds, List.filter_append,
          List.filter_filter, hfilter, List.append_assoc, Bool.true_and]
        cases hr : replaces later r.id with
        | true => simp [hr]
        | false =>
            simp only [hr, Bool.not_false, List.filter_cons_of_pos, List.filter_nil, if_true,
              List.map_cons, List.singleton_append]
            rfl
      · have hreplaces : ∀ id, replaces (r :: later) id = replaces later id := by
          intro id
          rw [replaces, List.any_cons, Bool.eq_false_iff.mpr hsound, Bool.false_and,
            Bool.false_or]
          rfl
        simp only [hsound, hreplaces, Bool.false_eq_true, if_false, Bool.false_and]

end NameStore

end Splice

import Splice.NameMap.Transaction
import Splice.Proofs.NameMap.History

/-!
# Changes go through as a whole or not at all

Whatever the database refuses, a change that is reported as made is the change that the tables
prescribe, made as a whole, and one that is not reported leaves everything as it was.  Only
refusals stand in the way of a change: where some attempt meets none, and the attempts before it
met nothing but locks, the outcome is that of undisturbed tables.
-/

namespace Splice

/-- Some attempt is undisturbed, and those before it meet nothing but locks. -/
def Weather.Settles (w : Weather) : Prop :=
  ∃ k < NameMap.maxAttempts, (∀ i, w k i = none) ∧
    ∀ j < k, ∀ i fault, w j i = some fault → fault = .locked

theorem Weather.clear_settles : Weather.clear.Settles :=
  ⟨0, by decide, fun _ => rfl, fun _ hj => absurd hj (Nat.not_lt_zero _)⟩

namespace NameMap

variable {α : Type} {w : Weather} {calls : Nat → Option DatabaseFault} {m m' : NameMap}
  {id entry : Text} {time : Instant} {es : List NameEntry} {outcome : Except Trouble α}
  {attempt : Nat → Except Trouble α}

/-- An attempt comes to its outcome, unless one of its calls is refused. -/
def Attempts (calls : Nat → Option DatabaseFault) (outcome result : Except Trouble α) : Prop :=
  result = outcome ∨ ∃ i fault, calls i = some fault ∧ result = .error (.refused fault)

theorem Attempts.eq_of_clear {result : Except Trouble α} (h : Attempts calls outcome result)
    (hclear : ∀ i, calls i = none) : result = outcome := by
  rcases h with h | ⟨i, fault, hi, -⟩
  · exact h
  · rw [hclear i] at hi
    cases hi

theorem attempts_callAt (calls : Nat → Option DatabaseFault) (i : Nat)
    (outcome : Except Trouble α) : Attempts calls outcome (callAt calls i outcome) := by
  rw [callAt]
  cases hi : calls i with
  | none => exact .inl rfl
  | some fault => exact .inr ⟨i, fault, hi, rfl⟩

def runAll (statements : List Statement) (m : NameMap) : Except Trouble NameMap :=
  statements.foldlM (fun m statement => statement.run m) m

theorem attempts_runFrom (calls : Nat → Option DatabaseFault) (statements : List Statement)
    (i : Nat) (m : NameMap) :
    Attempts calls (runAll statements m) (runFrom calls i statements m) := by
  induction statements generalizing i m with
  | nil => exact .inl rfl
  | cons statement later ih =>
      rw [runFrom, runAll, List.foldlM_cons]
      rcases attempts_callAt calls i (statement.run m) with h | ⟨j, fault, hj, h⟩
      · rw [h]
        cases statement.run m with
        | error trouble => exact .inl rfl
        | ok m => exact ih (i + 1) m
      · rw [h]
        exact .inr ⟨j, fault, hj, rfl⟩

/-- A transaction either does all of its statements, or is without effect. -/
theorem attempts_transact (calls : Nat → Option DatabaseFault) (statements : List Statement)
    (m : NameMap) : Attempts calls (runAll statements m) (transact calls statements m) := by
  rw [transact]
  rcases attempts_callAt calls 0 (.ok ()) with h | ⟨j, fault, hj, h⟩
  · rcases attempts_runFrom calls statements 1 m with h' | ⟨j, fault, hj, h'⟩
    · rw [h, h']
      cases runAll statements m with
      | error trouble => exact .inl rfl
      | ok m' => exact attempts_callAt calls (statements.length + 1) (.ok m')
    · rw [h, h']
      exact .inr ⟨j, fault, hj, rfl⟩
  · rw [h]
    exact .inr ⟨j, fault, hj, rfl⟩

theorem exists_retryFrom (attempt : Nat → Except Trouble α) (left k : Nat) :
    ∃ j, retryFrom attempt left k = attempt j := by
  induction left generalizing k with
  | zero => exact ⟨k, rfl⟩
  | succ left ih =>
      rw [retryFrom]
      split
      · exact ih (k + 1)
      · exact ⟨k, rfl⟩

/-- What comes of retries is what comes of one of the attempts. -/
theorem withRetry_cases (h : ∀ k, Attempts (w k) outcome (attempt k)) :
    withRetry attempt = outcome ∨ ∃ fault, withRetry attempt = .error (.refused fault) := by
  obtain ⟨j, hj⟩ := exists_retryFrom attempt (maxAttempts - 1) 0
  rw [withRetry, hj]
  rcases h j with h | ⟨-, fault, -, h⟩
  · exact .inl h
  · exact .inr ⟨fault, h⟩

/-- An attempt that meets no lock is the last one. -/
theorem retryFrom_of_eq {left k : Nat} (h : attempt k = outcome)
    (hreal : ∀ fault, outcome ≠ .error (.refused fault)) :
    retryFrom attempt left k = outcome := by
  cases left with
  | zero => exact h
  | succ left =>
      rw [retryFrom, h]
      split
      · exact absurd rfl (hreal .locked)
      · rfl

/-- Locks are outlasted until an attempt is undisturbed. -/
theorem retryFrom_eq (h : ∀ k, Attempts (w k) outcome (attempt k))
    (hreal : ∀ fault, outcome ≠ .error (.refused fault)) {left k n : Nat} (hkn : k ≤ n)
    (hn : n ≤ k + left) (hclear : ∀ i, w n i = none)
    (hlocks : ∀ j < n, ∀ i fault, w j i = some fault → fault = .locked) :
    retryFrom attempt left k = outcome := by
  induction left generalizing k with
  | zero =>
      obtain rfl : k = n := by omega
      exact (h k).eq_of_clear hclear
  | succ left ih =>
      rcases Nat.eq_or_lt_of_le hkn with rfl | hlt
      · exact retryFrom_of_eq ((h k).eq_of_clear hclear) hreal
      · rcases h k with hattempt | ⟨i, fault, hfault, hattempt⟩
        · exact retryFrom_of_eq hattempt hreal
        · rw [retryFrom, hattempt, hlocks k hlt i fault hfault]
          exact ih (k := k + 1) hlt (by omega)

theorem withRetry_eq (h : ∀ k, Attempts (w k) outcome (attempt k))
    (hreal : ∀ fault, outcome ≠ .error (.refused fault)) (hw : w.Settles) :
    withRetry attempt = outcome := by
  obtain ⟨n, hn, hclear, hlocks⟩ := hw
  have hleft : n ≤ 0 + (maxAttempts - 1) := by omega
  exact retryFrom_eq h hreal (Nat.zero_le n) hleft hclear hlocks

/-- Behind the new build its names are added one by one, each of them to a build that is there. -/
theorem runAll_addName (hid : m.builds.any (·.id == id) = true) :
    runAll (es.map (.addName id)) m = (es.foldlM (addName id) m).mapError .rejected := by
  induction es generalizing m with
  | nil => rfl
  | cons e rest ih =>
      have hstep : (Statement.addName id e).run m = (addName id m e).mapError .rejected := by
        rw [Statement.run, if_pos hid]
      rw [List.map_cons, runAll, List.foldlM_cons, List.foldlM_cons, hstep]
      cases hadd : addName id m e with
      | error error => rfl
      | ok m' =>
          have hbuilds : m'.builds = m.builds := by
            rw [addName] at hadd
            split at hadd
            · cases hadd
            · rw [← Except.ok.inj hadd]
          exact ih (by rw [hbuilds]; exact hid)

/-- The statements of a recording make of the tables what recording makes of them. -/
theorem runAll_saveStatements (hid : id.isAllBlank = false) :
    runAll (saveStatements ⟨id, entry, time, es.length⟩ es) m =
      (m.save id entry time es).mapError .rejected := by
  let b : BuildRecord := ⟨id, entry, time, es.length⟩
  let cleared := m.removeBuilds (· == id)
  let filled := { cleared with builds := cleared.builds ++ [b] }
  have hfree : cleared.builds.any (·.id == id) = false := by
    simp [cleared, removeBuilds]
  have hadd : (Statement.addBuild b).run cleared = .ok filled := by
    rw [Statement.run, hfree]
    rfl
  have hfilled : filled.builds.any (·.id == id) = true := by
    simp [filled, b]
  rw [save, if_neg (by simp [hid])]
  calc runAll (saveStatements b es) m
      = runAll (.addBuild b :: .prepare :: es.map (.addName id)) cleared := rfl
    _ = runAll (.prepare :: es.map (.addName id)) filled := by
        rw [runAll, List.foldlM_cons, hadd]
        rfl
    _ = runAll (es.map (.addName id)) filled := rfl
    _ = (es.foldlM (addName id) filled).mapError .rejected := runAll_addName hfilled

/-- A recording is made as a whole, or it is refused. -/
theorem saveUnder_cases (hid : id.isAllBlank = false) :
    m.saveUnder w id entry time es = (m.save id entry time es).mapError .rejected ∨
      ∃ fault, m.saveUnder w id entry time es = .error (.refused fault) := by
  rw [← runAll_saveStatements hid]
  exact withRetry_cases fun k => attempts_transact (w k) _ m

theorem saveUnder_eq (hid : id.isAllBlank = false) (hw : w.Settles) :
    m.saveUnder w id entry time es = (m.save id entry time es).mapError .rejected := by
  rw [← runAll_saveStatements hid]
  refine withRetry_eq (fun k => attempts_transact (w k) _ m) ?_ hw
  intro fault heq
  rw [runAll_saveStatements hid] at heq
  cases hsave : m.save id entry time es with
  | error e =>
      rw [hsave] at heq
      cases heq
  | ok m' =>
      rw [hsave] at heq
      cases heq

theorem pruneUnder_cases (keep : Int) :
    m.pruneUnder w keep = .ok (m.prune keep) ∨
      ∃ fault, m.pruneUnder w keep = .error (.refused fault) :=
  withRetry_cases fun k => attempts_callAt (w k) 0 _

theorem pruneUnder_eq (keep : Int) (hw : w.Settles) : m.pruneUnder w keep = .ok (m.prune keep) := by
  refine withRetry_eq (fun k => attempts_callAt (w k) 0 _) ?_ hw
  intro fault heq
  cases heq

end NameMap

end Splice

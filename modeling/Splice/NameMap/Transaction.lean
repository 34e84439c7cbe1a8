import Splice.NameMap.Store

/-!
# Changes of tables in a database

The tables of a store stand in a database.  A change is made statement by statement, every
statement minds the keys of the tables, and the database may refuse any call.  What comes of the
statements counts once they all went well and were committed; until then the tables are what they
were.  A change that is met by a lock is tried again, five times in all.
-/

namespace Splice

/-- Why a database does not carry out a call. -/
inductive DatabaseFault where
  | locked
  | broken (cause : Text)
deriving DecidableEq, Repr

def DatabaseFault.message : DatabaseFault → Text
  | locked => "database is locked (5) (SQLITE_BUSY)"
  | broken cause => cause

/-- What the database refuses, by attempt and by call of the attempt. -/
abbrev Weather := Nat → Nat → Option DatabaseFault

def Weather.clear : Weather := fun _ _ => none

/-- Why a change comes to nothing. -/
inductive Trouble where
  | refused (fault : DatabaseFault)
  | rejected (e : NameMap.Error)
  /-- A build has the identifier already. -/
  | repeatedBuild (id : Text)
  /-- No build has the identifier. -/
  | missingBuild (id : Text)
deriving DecidableEq, Repr

def Trouble.toFailure (action : Text) : Trouble → Failure
  | refused fault => .plain (action ++ ": " ++ fault.message)
  | rejected e => e.toFailure
  | repeatedBuild _ =>
      .plain (action ++ ": constraint failed: UNIQUE constraint failed: builds.build_id (1555)")
  | missingBuild _ => .plain (action ++ ": constraint failed: FOREIGN KEY constraint failed (787)")

namespace NameMap

/-! ## Statements -/

inductive Statement where
  | removeBuild (id : Text)
  | addBuild (b : BuildRecord)
  /-- Makes ready for names to be added. -/
  | prepare
  | addName (build : Text) (e : NameEntry)
deriving DecidableEq, Repr

/-- What the tables are behind a statement. -/
def Statement.run : Statement → NameMap → Except Trouble NameMap
  | removeBuild id, m => .ok (m.removeBuilds (· == id))
  | addBuild b, m =>
      if m.builds.any (·.id == b.id) then .error (.repeatedBuild b.id)
      else .ok { m with builds := m.builds ++ [b] }
  | prepare, m => .ok m
  | addName build e, m =>
      if m.builds.any (·.id == build) then (NameMap.addName build m e).mapError .rejected
      else .error (.missingBuild build)

/-- One call of an attempt. -/
def callAt {α : Type} (calls : Nat → Option DatabaseFault) (i : Nat) (answer : Except Trouble α) :
    Except Trouble α :=
  match calls i with
  | some fault => .error (.refused fault)
  | none => answer

/-- Statements one after another, the first of which is the call with the number `i`. -/
def runFrom (calls : Nat → Option DatabaseFault) :
    (i : Nat) → List Statement → NameMap → Except Trouble NameMap
  | _, [], m => .ok m
  | i, statement :: later, m =>
      match callAt calls i (statement.run m) with
      | .error trouble => .error trouble
      | .ok m => runFrom calls (i + 1) later m

/-- Statements between the begin and the commit of a transaction. -/
def transact (calls : Nat → Option DatabaseFault) (statements : List Statement) (m : NameMap) :
    Except Trouble NameMap := do
  callAt calls 0 (.ok ())
  let m ← runFrom calls 1 statements m
  callAt calls (statements.length + 1) (.ok m)

/-! ## Attempts -/

/-- An attempt with a number, and up to `left` further ones as long as they meet a lock. -/
def retryFrom {α : Type} (attempt : Nat → Except Trouble α) : (left k : Nat) → Except Trouble α
  | 0, k => attempt k
  | left + 1, k =>
      match attempt k with
      | .error (.refused .locked) => retryFrom attempt left (k + 1)
      | outcome => outcome

def maxAttempts : Nat := 5

def withRetry {α : Type} (attempt : Nat → Except Trouble α) : Except Trouble α :=
  retryFrom attempt (maxAttempts - 1) 0

/-! ## Changes -/

def saveStatements (b : BuildRecord) (entries : List NameEntry) : List Statement :=
  .removeBuild b.id :: .addBuild b :: .prepare :: entries.map (.addName b.id)

/-- Records a build as the weather allows it. -/
def saveUnder (w : Weather) (m : NameMap) (id entry : Text) (time : Instant)
    (entries : List NameEntry) : Except Trouble NameMap :=
  withRetry fun k =>
    transact (w k) (saveStatements ⟨id, entry, time, entries.length⟩ entries) m

/-- Removes all builds but the newest ones, in one call. -/
def pruneUnder (w : Weather) (m : NameMap) (keep : Int) : Except Trouble (NameMap × Nat) :=
  withRetry fun k => callAt (w k) 0 (.ok (m.prune keep))

end NameMap

namespace NameStore

/-- Lets the outcome of a change through to a store that can be changed. -/
def settle {α : Type} (s : NameStore) (action : Text) (outcome : Except Trouble α) :
    Except Failure α :=
  if !s.isOpen then .error (closedFailure action)
  else if s.readOnly then .error (.plain (action ++ ": " ++ StoreFault.readOnly.message))
  else outcome.mapError (Trouble.toFailure action)

def saveUnder (w : Weather) (s : NameStore) (id entry : Text) (time : Instant)
    (entries : List NameEntry) : Except Failure NameStore :=
  if id.isAllBlank then .error (NameMap.Error.toFailure .blankId)
  else (s.settle "save build" (s.map.saveUnder w id entry time entries)).map
    fun map => { s with map }

def pruneUnder (w : Weather) (s : NameStore) (keep : Int) : Except Failure (NameStore × Nat) :=
  (s.settle "prune builds" (s.map.pruneUnder w keep)).map fun (map, removed) =>
    ({ s with map }, removed)

end NameStore

end Splice

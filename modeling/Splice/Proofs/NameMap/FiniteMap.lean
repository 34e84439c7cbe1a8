import Splice.Proofs.NameMap.Contents
import Splice.Proofs.NameMap.Transaction

/-!
# A store is a finite map of builds

A store is asked to record builds, to remove old ones, to look up numbers and to list names, over
and over again.  It answers as a map from identifiers to builds does (`BuildMap.serve`): recording
a build changes the entry of its identifier and no other one, a recording that fails changes
nothing, and what is read is what was recorded last and was not removed since.  The database may
refuse a change, and then nothing of the change has been made.
-/

namespace Splice

inductive NameRequest where
  | save (r : Recording)
  | prune (keep : Int)
  | lookup (build : Text) (code : Int64)
  | entries (build : Text)
deriving DecidableEq

def NameRequest.isChange : NameRequest → Bool
  | save _ => true
  | prune _ => true
  | lookup _ _ => false
  | entries _ => false

inductive NameAnswer where
  | saved
  | pruned (removed : Nat)
  | found (e : NameEntry)
  | listed (es : List NameEntry)
  | failed (f : Failure)
deriving DecidableEq

def Recording.error (r : Recording) : NameMap.Error :=
  if r.id.isAllBlank then .blankId
  else .repeatedCode (NameMap.firstRepeated [] (r.names.map (·.code)))

def Recording.saved (r : Recording) : Saved := ⟨r.entry, r.time, r.names⟩

/-- What a map answers to a request, and the map behind it. -/
noncomputable def BuildMap.serve (c : BuildMap) : NameRequest → NameAnswer × BuildMap
  | .save r =>
      if r.isSound then (.saved, Function.update c r.id (some r.saved))
      else (.failed r.error.toFailure, c)
  | .prune keep => (.pruned (c.outdated keep).ncard, c.prune keep)
  | .lookup build code =>
      match c.lookup build code with
      | .ok e => (.found e, c)
      | .error e => (.failed e.toFailure, c)
  | .entries build => (.listed (c.entries build), c)

/-- A map serves a history of requests with answers, up to another map.  Requests of some kinds
may be refused instead, and are then without effect. -/
inductive BuildMap.Serves (refuses : Weather → NameRequest → Prop) :
    BuildMap → List (Weather × NameRequest) → List NameAnswer → BuildMap → Prop
  | nil {c : BuildMap} : Serves refuses c [] [] c
  | served {c c' : BuildMap} {w : Weather} {q : NameRequest} {later : List (Weather × NameRequest)}
      {answers : List NameAnswer} (h : Serves refuses (c.serve q).2 later answers c') :
      Serves refuses c ((w, q) :: later) ((c.serve q).1 :: answers) c'
  | refused {c c' : BuildMap} {w : Weather} {q : NameRequest}
      {later : List (Weather × NameRequest)} {answers : List NameAnswer} (hrefused : refuses w q)
      (f : Failure) (h : Serves refuses c later answers c') :
      Serves refuses c ((w, q) :: later) (.failed f :: answers) c'

/-- What is recorded under an identifier by a request, going by its answer. -/
def recordedBy (id : Text) : (Weather × NameRequest) × NameAnswer → Option Saved
  | ((_, .save r), .saved) => if id = r.id then some r.saved else none
  | _ => none

/-- The build that was recorded last under an identifier. -/
def lastSaved (id : Text) : List ((Weather × NameRequest) × NameAnswer) → Option Saved
  | [] => none
  | step :: later => lastSaved id later <|> recordedBy id step

theorem recordedBy_failed (id : Text) (w : Weather) (q : NameRequest) (f : Failure) :
    recordedBy id ((w, q), .failed f) = none := by
  cases q with
  | save r => rfl
  | prune keep => rfl
  | lookup build code => rfl
  | entries build => rfl

/-- Behind a request a map holds what the request recorded, or else what it held before, unless
the build was removed. -/
theorem BuildMap.serve_cases (c : BuildMap) (w : Weather) (q : NameRequest) (id : Text) :
    (c.serve q).2 id = none ∧ recordedBy id ((w, q), (c.serve q).1) = none ∨
      (c.serve q).2 id = (recordedBy id ((w, q), (c.serve q).1) <|> c id) := by
  cases q with
  | save r =>
      right
      rw [BuildMap.serve]
      by_cases hsound : r.isSound = true
      · rw [if_pos hsound, recordedBy]
        dsimp only
        by_cases hid : id = r.id
        · rw [hid, Function.update_self, if_pos rfl]
          rfl
        · rw [Function.update_of_ne hid, if_neg hid]
          rfl
      · rw [if_neg hsound]
        rfl
  | prune keep =>
      have hprune : (c.serve (.prune keep)).2 id =
          if (c.newer id).ncard < keep.toNat then c id else none := rfl
      rw [hprune]
      split
      · exact .inr rfl
      · exact .inl ⟨rfl, rfl⟩
  | lookup build code =>
      right
      rw [BuildMap.serve]
      split
      · rfl
      · rfl
  | entries build => exact .inr rfl

/-- What a map holds under an identifier is the build that was recorded last under it, unless that
build was removed. -/
theorem BuildMap.Serves.eq_lastSaved {refuses : Weather → NameRequest → Prop} {c c' : BuildMap}
    {history : List (Weather × NameRequest)} {answers : List NameAnswer}
    (h : BuildMap.Serves refuses c history answers c') (id : Text) :
    c' id = none ∨ c' id = (lastSaved id (history.zip answers) <|> c id) := by
  induction h with
  | nil => exact .inr rfl
  | @refused c c' w q later answers _ f _ ih =>
      rw [List.zip_cons_cons, lastSaved, recordedBy_failed]
      simpa using ih
  | @served c c' w q later answers _ ih =>
      rw [List.zip_cons_cons, lastSaved]
      rcases ih with hnone | hlast
      · exact .inl hnone
      rw [hlast]
      rcases c.serve_cases w q id with ⟨hnone, hrecorded⟩ | hheld
      · rw [hnone, hrecorded]
        cases lastSaved id (later.zip answers) with
        | none => exact .inl rfl
        | some x => exact .inr rfl
      · rw [hheld]
        right
        cases lastSaved id (later.zip answers) with
        | none => rfl
        | some x => rfl

namespace NameStore

/-- What a store answers to a request, and the store behind it. -/
def ask (s : NameStore) : NameRequest → NameAnswer × NameStore
  | .save r =>
      match s.record r.now r.id r.entry r.given r.names with
      | .ok s' => (.saved, s')
      | .error f => (.failed f, s)
  | .prune keep =>
      match s.prune keep with
      | .ok (s', removed) => (.pruned removed, s')
      | .error f => (.failed f, s)
  | .lookup build code =>
      match s.lookup build code with
      | .ok e => (.found e, s)
      | .error f => (.failed f, s)
  | .entries build =>
      match s.entries build with
      | .ok es => (.listed es, s)
      | .error f => (.failed f, s)

/-- The same where the database refuses changes as the weather has it. -/
def askUnder (w : Weather) (s : NameStore) : NameRequest → NameAnswer × NameStore
  | .save r =>
      match s.saveUnder w r.id r.entry r.time r.names with
      | .ok s' => (.saved, s')
      | .error f => (.failed f, s)
  | .prune keep =>
      match s.pruneUnder w keep with
      | .ok (s', removed) => (.pruned removed, s')
      | .error f => (.failed f, s)
  | q => s.ask q

def askAll (s : NameStore) : List (Weather × NameRequest) → List NameAnswer × NameStore
  | [] => ([], s)
  | (w, q) :: later =>
      let rest := (s.askUnder w q).2.askAll later
      ((s.askUnder w q).1 :: rest.1, rest.2)

/-- Whether a request may be refused whatever the store holds. -/
def MayRefuse (s : NameStore) (w : Weather) (q : NameRequest) : Prop :=
  s.isOpen = false ∨ q.isChange = true ∧ (s.readOnly = true ∨ ¬w.Settles)

variable {s : NameStore} {w : Weather} {r : Recording}

theorem settle_eq_change {α : Type} (s : NameStore) (action : Text)
    (answer : Except NameMap.Error α) :
    s.settle action (answer.mapError .rejected) = s.change action answer := by
  rw [settle, change, request]
  cases s.isOpen with
  | false => rfl
  | true =>
      cases s.readOnly with
      | true => rfl
      | false =>
          cases answer with
          | error e => rfl
          | ok a => rfl

/-- In weather that settles, a store does what it does undisturbed. -/
theorem askUnder_eq (hw : w.Settles) (s : NameStore) (q : NameRequest) :
    s.askUnder w q = s.ask q := by
  cases q with
  | save r =>
      have hsave : s.saveUnder w r.id r.entry r.time r.names =
          s.record r.now r.id r.entry r.given r.names := by
        rw [saveUnder, record, save]
        cases hblank : r.id.isAllBlank with
        | true => rfl
        | false =>
            rw [NameMap.saveUnder_eq hblank hw, settle_eq_change]
            rfl
      rw [askUnder, hsave]
      rfl
  | prune keep =>
      have hprune : s.pruneUnder w keep = s.prune keep := by
        have hchange := s.settle_eq_change "prune builds" (.ok (s.map.prune keep))
        rw [pruneUnder, NameMap.pruneUnder_eq keep hw, prune, ← hchange]
        rfl
      rw [askUnder, hprune]
      rfl
  | lookup build code => rfl
  | entries build => rfl

theorem exists_settle_error {α : Type} (s : NameStore) (action : Text) (trouble : Trouble) :
    ∃ f, s.settle action (.error trouble : Except Trouble α) = .error f := by
  rw [settle]
  split
  · exact ⟨_, rfl⟩
  · split
    · exact ⟨_, rfl⟩
    · exact ⟨_, rfl⟩

/-- Only weather that does not settle comes between a store and a change, and then nothing of the
change has been made. -/
theorem askUnder_cases (s : NameStore) (w : Weather) (q : NameRequest) :
    s.askUnder w q = s.ask q ∨
      (q.isChange = true ∧ ¬w.Settles) ∧ ∃ f, s.askUnder w q = (.failed f, s) := by
  by_cases hw : w.Settles
  · exact .inl (askUnder_eq hw s q)
  cases q with
  | save r =>
      have hcalm := askUnder_eq Weather.clear_settles s (.save r)
      rw [askUnder, saveUnder] at hcalm
      rw [askUnder, saveUnder]
      cases hblank : r.id.isAllBlank with
      | true =>
          rw [hblank] at hcalm
          exact .inl hcalm
      | false =>
          rw [hblank, if_neg (by decide),
            NameMap.saveUnder_eq hblank Weather.clear_settles] at hcalm
          rw [if_neg (by decide)]
          rcases @NameMap.saveUnder_cases w s.map r.id r.entry r.time r.names hblank with
            hsave | ⟨fault, hsave⟩
          · rw [hsave]
            exact .inl hcalm
          · obtain ⟨f, hf⟩ := @exists_settle_error NameMap s "save build" (.refused fault)
            rw [hsave, hf]
            exact .inr ⟨⟨rfl, hw⟩, f, rfl⟩
  | prune keep =>
      have hcalm := askUnder_eq Weather.clear_settles s (.prune keep)
      rw [askUnder, pruneUnder, NameMap.pruneUnder_eq keep Weather.clear_settles] at hcalm
      rw [askUnder, pruneUnder]
      rcases NameMap.pruneUnder_cases (w := w) (m := s.map) keep with hprune | ⟨fault, hprune⟩
      · rw [hprune]
        exact .inl hcalm
      · obtain ⟨f, hf⟩ := @exists_settle_error (NameMap × Nat) s "prune builds" (.refused fault)
        rw [hprune, hf]
        exact .inr ⟨⟨rfl, hw⟩, f, rfl⟩
  | lookup build code => exact .inl rfl
  | entries build => exact .inl rfl

/-! ## One request -/

/-- A store answers a request as the map does that it holds, and holds the map behind the request
afterwards. -/
def Follows (s : NameStore) (q : NameRequest) (outcome : NameAnswer × NameStore) : Prop :=
  ∃ m : NameMap, outcome = ((s.map.view.serve q).1, { s with map := m }) ∧
    m.view = (s.map.view.serve q).2 ∧ m.IsConsistent

theorem follows_save (h : s.map.IsConsistent) (hopen : s.isOpen = true)
    (hwritable : s.readOnly = false) (r : Recording) : s.Follows (.save r) (s.ask (.save r)) := by
  have hrecord : s.record r.now r.id r.entry r.given r.names =
      ((s.map.save r.id r.entry r.time r.names).mapError NameMap.Error.toFailure).map
        fun map => { s with map } := save_eq hopen hwritable ..
  rw [ask, hrecord, Follows, BuildMap.serve]
  by_cases hsound : r.isSound = true
  · obtain ⟨hid, hnodup⟩ := Recording.isSound_iff.mp hsound
    rw [if_pos hsound, NameMap.save_eq_ok hid hnodup]
    exact ⟨_, rfl, NameMap.view_recorded .., h.recorded hid hnodup r.entry r.time⟩
  · have herror : s.map.save r.id r.entry r.time r.names = .error r.error := by
      rw [Recording.error]
      cases hblank : r.id.isAllBlank with
      | true => rw [NameMap.save, if_pos hblank, if_pos rfl]
      | false =>
          rw [if_neg (by decide)]
          exact NameMap.save_eq_error hblank fun hnodup =>
            hsound (Recording.isSound_iff.mpr ⟨hblank, hnodup⟩)
    rw [if_neg hsound, herror]
    exact ⟨s.map, rfl, rfl, h⟩

theorem follows_prune (h : s.map.IsConsistent) (hopen : s.isOpen = true)
    (hwritable : s.readOnly = false) (keep : Int) :
    s.Follows (.prune keep) (s.ask (.prune keep)) := by
  have hprune : s.prune keep =
      .ok ({ s with map := (s.map.prune keep).1 }, (s.map.prune keep).2) := by
    rw [prune, change_eq hopen hwritable]
    rfl
  rw [ask, hprune, Follows, BuildMap.serve, ← h.removed_prune]
  exact ⟨_, rfl, h.view_prune keep, h.prune keep⟩

theorem follows_lookup (h : s.map.IsConsistent) (hopen : s.isOpen = true) (build : Text)
    (code : Int64) : s.Follows (.lookup build code) (s.ask (.lookup build code)) := by
  rw [ask, lookup, request_eq hopen, h.lookup_eq, Follows, BuildMap.serve]
  cases s.map.view.lookup build code with
  | ok e => exact ⟨s.map, rfl, rfl, h⟩
  | error e => exact ⟨s.map, rfl, rfl, h⟩

theorem follows_entries (h : s.map.IsConsistent) (hopen : s.isOpen = true) (build : Text) :
    s.Follows (.entries build) (s.ask (.entries build)) := by
  rw [ask, entries, request_eq hopen, h.entries_eq]
  exact ⟨s.map, rfl, rfl, h⟩

theorem exists_request_error {α : Type} (hclosed : s.isOpen = false) (action : Text)
    (answer : Except NameMap.Error α) : ∃ f, s.request action answer = .error f := by
  rw [request, hclosed]
  exact ⟨_, rfl⟩

theorem exists_change_error {α : Type} (h : s.isOpen = false ∨ s.readOnly = true) (action : Text)
    (answer : Except NameMap.Error α) : ∃ f, s.change action answer = .error f := by
  rw [change]
  split
  · exact ⟨_, rfl⟩
  next hfixed =>
    refine exists_request_error ?_ action answer
    rcases h with hclosed | hread
    · exact hclosed
    · simpa [hread] using hfixed

/-- A store that is closed, or is asked for a change and cannot be changed, turns a request down. -/
theorem exists_ask_eq (q : NameRequest)
    (h : s.isOpen = false ∨ q.isChange = true ∧ s.readOnly = true) :
    ∃ f, s.ask q = (.failed f, s) := by
  have hchange : q.isChange = true → s.isOpen = false ∨ s.readOnly = true :=
    fun _ => h.imp_right And.right
  have hread : q.isChange = false → s.isOpen = false := by
    intro hq
    rcases h with hclosed | ⟨hq', -⟩
    · exact hclosed
    · rw [hq] at hq'
      cases hq'
  cases q with
  | save r =>
      obtain ⟨f, hf⟩ := exists_change_error (hchange rfl) "save build"
        (s.map.save r.id r.entry r.time r.names)
      rw [Recording.time] at hf
      rw [ask, record, save, hf]
      split
      next hok =>
        split at hok
        · cases hok
        · cases hok
      next f' _ => exact ⟨f', rfl⟩
  | prune keep =>
      obtain ⟨f, hf⟩ := exists_change_error (hchange rfl) "prune builds" (.ok (s.map.prune keep))
      rw [ask, prune, hf]
      exact ⟨f, rfl⟩
  | lookup build code =>
      rw [ask, lookup]
      obtain ⟨f, hf⟩ := exists_request_error (hread rfl)
        (if build.isEmpty then "load latest build" else "lookup code") (s.map.lookup build code)
      rw [hf]
      exact ⟨f, rfl⟩
  | entries build =>
      obtain ⟨f, hf⟩ := exists_request_error (hread rfl) "load entries"
        (.ok (s.map.entries build))
      rw [ask, entries, hf]
      exact ⟨f, rfl⟩

theorem follows_or_refused (h : s.map.IsConsistent) (w : Weather) (q : NameRequest) :
    s.Follows q (s.askUnder w q) ∨
      s.MayRefuse w q ∧ ∃ f, s.askUnder w q = (.failed f, s) := by
  rcases s.askUnder_cases w q with hask | ⟨⟨hchange, hw⟩, f, hask⟩
  · rw [hask]
    by_cases hlocked : s.isOpen = false ∨ q.isChange = true ∧ s.readOnly = true
    · refine .inr ⟨?_, exists_ask_eq q hlocked⟩
      rcases hlocked with hclosed | ⟨hchange, hfixed⟩
      · exact .inl hclosed
      · exact .inr ⟨hchange, .inl hfixed⟩
    · rw [not_or, Bool.not_eq_false, not_and, Bool.not_eq_true] at hlocked
      obtain ⟨hopen, hwritable⟩ := hlocked
      left
      cases q with
      | save r => exact follows_save h hopen (hwritable rfl) r
      | prune keep => exact follows_prune h hopen (hwritable rfl) keep
      | lookup build code => exact follows_lookup h hopen build code
      | entries build => exact follows_entries h hopen build
  · exact .inr ⟨.inr ⟨hchange, .inr hw⟩, f, hask⟩

/-- A request that fails leaves the store as it is. -/
theorem askUnder_of_failed {q : NameRequest} {f : Failure}
    (h : (s.askUnder w q).1 = .failed f) : (s.askUnder w q).2 = s := by
  cases q with
  | save r =>
      revert h
      rw [askUnder]
      cases s.saveUnder w r.id r.entry r.time r.names with
      | ok s' => exact fun h => NameAnswer.noConfusion h
      | error f' => exact fun _ => rfl
  | prune keep =>
      revert h
      rw [askUnder]
      cases s.pruneUnder w keep with
      | ok pruned => exact fun h => NameAnswer.noConfusion h
      | error f' => exact fun _ => rfl
  | lookup build code =>
      change (s.ask (.lookup build code)).2 = s
      rw [ask]
      split
      · rfl
      · rfl
  | entries build =>
      change (s.ask (.entries build)).2 = s
      rw [ask]
      split
      · rfl
      · rfl

/-- A store goes through a history of requests as the map does that it holds. -/
structure BehavesAsMap (s : NameStore) (history : List (Weather × NameRequest)) : Prop where
  serves : BuildMap.Serves s.MayRefuse s.map.view history (s.askAll history).1
    (s.askAll history).2.map.view
  /-- What is held under an identifier was recorded last under it. -/
  last : ∀ id, (s.askAll history).2.map.view id = none ∨ (s.askAll history).2.map.view id =
    (lastSaved id (history.zip (s.askAll history).1) <|> s.map.view id)
  /-- Names belong to stored builds, and the builds count them. -/
  consistent : (s.askAll history).2.map.IsConsistent
  /-- A request that fails leaves the whole store as it is. -/
  unchanged : ∀ w q f, ((s.askAll history).2.askUnder w q).1 = .failed f →
    ((s.askAll history).2.askUnder w q).2 = (s.askAll history).2
  /-- Undisturbed requests are those of the store itself. -/
  undisturbed : ∀ w, w.Settles → ∀ q, (s.askAll history).2.askUnder w q =
    (s.askAll history).2.ask q

theorem serves_askAll (h : s.map.IsConsistent) (history : List (Weather × NameRequest)) :
    BuildMap.Serves s.MayRefuse s.map.view history (s.askAll history).1
      (s.askAll history).2.map.view ∧ (s.askAll history).2.map.IsConsistent := by
  induction history generalizing s with
  | nil => exact ⟨.nil, h⟩
  | cons first later ih =>
      obtain ⟨w, q⟩ := first
      rw [askAll]
      rcases follows_or_refused h w q with ⟨m, hask, hview, hm⟩ | ⟨hrefused, f, hask⟩
      · rw [hask]
        obtain ⟨hserves, hconsistent⟩ := ih (s := { s with map := m }) hm
        refine ⟨.served ?_, hconsistent⟩
        rw [← hview]
        exact hserves
      · rw [hask]
        obtain ⟨hserves, hconsistent⟩ := ih h
        exact ⟨.refused hrefused f hserves, hconsistent⟩

/-- Whatever a store is asked for, and whatever the database refuses of it, the store behaves as a
finite map of builds. -/
theorem behaves_as_map (h : s.map.IsConsistent) (history : List (Weather × NameRequest)) :
    s.BehavesAsMap history := by
  obtain ⟨hserves, hconsistent⟩ := serves_askAll h history
  exact ⟨hserves, hserves.eq_lastSaved, hconsistent, fun _ _ _ => askUnder_of_failed,
    fun _ hw q => askUnder_eq hw _ q⟩

def lockedFor (attempts : Nat) : Weather := fun k _ =>
  if k < attempts then some .locked else none

/-- A build with two names is recorded, and three times it is tried to replace it: with a number
that occurs twice, against a lock that lasts, and against one that does not. -/
def disturbedHistory : List (Weather × NameRequest) :=
  [(.clear, .save ⟨⟨0⟩, "a", "/m.wv", ⟨0⟩,
      [⟨0, [], "x", "property", 2⟩, ⟨1, [], "y", "property", 1⟩]⟩),
    (.clear, .save ⟨⟨0⟩, "a", "/m.wv", ⟨1⟩, [⟨0, [], "u", [], 1⟩, ⟨0, [], "v", [], 1⟩]⟩),
    (lockedFor 5, .save ⟨⟨0⟩, "a", "/m.wv", ⟨2⟩, [⟨0, [], "w", [], 1⟩]⟩),
    (.clear, .lookup "a" 1),
    (lockedFor 4, .save ⟨⟨0⟩, "a", "/m.wv", ⟨3⟩, [⟨0, [], "z", [], 1⟩]⟩),
    (.clear, .lookup "a" 0),
    (.clear, .lookup "a" 1)]

theorem behaves_as_map_disturbed :
    fresh.map.IsConsistent ∧ fresh.BehavesAsMap disturbedHistory ∧
      (fresh.askAll disturbedHistory).1 =
        [.saved, .failed (NameMap.Error.repeatedCode 0).toFailure,
          .failed (.plain "save build: database is locked (5) (SQLITE_BUSY)"),
          .found ⟨1, [], "y", "property", 1⟩, .saved, .found ⟨0, [], "z", [], 1⟩,
          .failed (NameMap.Error.notMapped 1 "a").toFailure] :=
  ⟨NameMap.isConsistent_empty, behaves_as_map NameMap.isConsistent_empty disturbedHistory,
    by decide +kernel⟩

end NameStore

end Splice

import Splice.Proofs.Ledger.Basic
import Splice.Tree.Node

/-!
# Accounting for reads

A ledger accounts for a list of reads if every record lists exactly the readers
that belong to it: the record of a binding those that read the binding, be it
directly or through a record of a foreign name tied to it, and the record of a
foreign name those that mention the name.  Entering a read, tying a record to its
binding and taking a read off again all keep a ledger accounting for the reads that
are left.
-/

namespace Splice

structure PlacedRead where
  file : NamespaceId
  read : Read
deriving DecidableEq, Repr, Inhabited

def PlacedRead.reader (e : PlacedRead) : Reader := ⟨e.file, e.read.offset⟩

namespace Ledger

/-- Whether a read is one of a binding, directly or by a foreign name that is tied
to it. -/
def resolves (l : Ledger) (u : UsageId) (r : Read) : Bool :=
  r.usage == some u || r.record.any fun f => (l.foreignUsage f).resolved == some u

def readersOf (l : Ledger) (u : UsageId) (reads : List PlacedRead) : List Reader :=
  (reads.filter fun e => l.resolves u e.read).map PlacedRead.reader

def foreignReadersOf (f : ForeignId) (reads : List PlacedRead) : List Reader :=
  (reads.filter fun e => e.read.record == some f).map PlacedRead.reader

/-- Every record lists the reads that belong to it, each as often as it occurs. -/
structure Accounts (l : Ledger) (reads : List PlacedRead) : Prop where
  usage : ∀ u, (l.usage u).readers.Perm (l.readersOf u reads)
  foreign : ∀ f, (l.foreignUsage f).readers.Perm (foreignReadersOf f reads)
  single : ∀ e ∈ reads, e.read.usage = none ∨ e.read.record = none

variable {l l' : Ledger} {reads reads' : List PlacedRead} {u : UsageId} {f : ForeignId}

theorem accounts_empty : Accounts {} [] where
  usage u := by simp [readersOf, Ledger.usage]
  foreign f := by simp [foreignReadersOf, foreignUsage]
  single e he := by simp at he

theorem Accounts.perm (h : l.Accounts reads) (hperm : reads.Perm reads') :
    l.Accounts reads' where
  usage u := (h.usage u).trans ((hperm.filter _).map _)
  foreign f := (h.foreign f).trans ((hperm.filter _).map _)
  single e he := h.single e (hperm.mem_iff.mpr he)

theorem resolves_congr
    (hresolved : ∀ f, (l'.foreignUsage f).resolved = (l.foreignUsage f).resolved) :
    l'.resolves = l.resolves := by
  funext u r
  simp only [resolves, hresolved]

/-- What counts is the lists of readers and the ties alone. -/
theorem Accounts.congr (h : l.Accounts reads)
    (husage : ∀ u, (l'.usage u).readers = (l.usage u).readers)
    (hforeign : ∀ f, (l'.foreignUsage f).readers = (l.foreignUsage f).readers)
    (hresolved : ∀ f, (l'.foreignUsage f).resolved = (l.foreignUsage f).resolved) :
    l'.Accounts reads where
  usage u := by
    rw [husage, readersOf, resolves_congr hresolved]
    exact h.usage u
  foreign f := by
    rw [hforeign]
    exact h.foreign f
  single := h.single

/-- A read that belongs to a record stands in its list. -/
theorem Accounts.mem_readers (h : l.Accounts reads) {e : PlacedRead} (he : e ∈ reads)
    (hres : l.resolves u e.read = true) : e.reader ∈ (l.usage u).readers := by
  rw [(h.usage u).mem_iff]
  exact List.mem_map.mpr ⟨e, List.mem_filter.mpr ⟨he, hres⟩, rfl⟩

theorem Accounts.addReader (h : l.Accounts reads) (hu : u < l.usages.size)
    (file : NamespaceId) (offset : Nat) :
    (l.addReader u ⟨file, offset⟩).Accounts (reads ++ [⟨file, ⟨offset, some u, none⟩⟩]) where
  usage v := by
    have hold := h.usage v
    have hres : (l.addReader u ⟨file, offset⟩).resolves = l.resolves :=
      resolves_congr fun _ => rfl
    rw [readersOf, hres, List.filter_append, List.map_append]
    by_cases huv : u = v
    · subst v
      rw [Ledger.addReader, usage_modifyUsage, if_pos ⟨rfl, hu⟩]
      have hnew : l.resolves u ⟨offset, some u, none⟩ = true := by
        simp [resolves]
      simpa [readersOf, hnew, PlacedRead.reader] using hold.append_right [⟨file, offset⟩]
    · rw [Ledger.addReader, usage_modifyUsage, if_neg (by tauto)]
      have hnew : l.resolves v ⟨offset, some u, none⟩ = false := by
        simp [resolves, huv]
      simpa [readersOf, hnew] using hold
  foreign f := by
    simpa [foreignReadersOf, Ledger.addReader] using h.foreign f
  single e he := by
    rcases List.mem_append.mp he with hold | hnew
    · exact h.single e hold
    · right
      simp only [List.mem_singleton] at hnew
      simp [hnew]

theorem foreignUsage_addForeignReader (l : Ledger) (f g : ForeignId) (r : Reader) :
    (l.addForeignReader f r).foreignUsage g =
      if f = g ∧ g < l.foreign.size then
        { l.foreignUsage g with readers := (l.foreignUsage g).readers ++ [r] }
      else l.foreignUsage g := by
  simp only [Ledger.addForeignReader]
  split
  · rw [Ledger.addReader, foreignUsage_modifyUsage, foreignUsage_modifyForeign]
  · rw [foreignUsage_modifyForeign]

/-- A reader of a record that is tied to a binding reads the binding too. -/
theorem readers_addForeignReader (hf : f < l.foreign.size)
    (hresolved : ∀ u, (l.foreignUsage f).resolved = some u → u < l.usages.size)
    (r : Reader) (v : UsageId) :
    ((l.addForeignReader f r).usage v).readers =
      (l.usage v).readers ++ if (l.foreignUsage f).resolved = some v then [r] else [] := by
  simp only [Ledger.addForeignReader, foreignUsage_modifyForeign_of_lt hf, if_true]
  cases htie : (l.foreignUsage f).resolved with
  | none => simp
  | some w =>
      simp only [Ledger.addReader, usage_modifyUsage, usages_modifyForeign,
        usage_modifyForeign, Option.some.injEq]
      by_cases hwv : w = v
      · subst v
        simp [hresolved w htie]
      · simp [hwv]

theorem Accounts.addForeignReader (h : l.Accounts reads) (hf : f < l.foreign.size)
    (hresolved : ∀ u, (l.foreignUsage f).resolved = some u → u < l.usages.size)
    (file : NamespaceId) (offset : Nat) :
    (l.addForeignReader f ⟨file, offset⟩).Accounts
      (reads ++ [⟨file, ⟨offset, none, some f⟩⟩]) := by
  have hres : (l.addForeignReader f ⟨file, offset⟩).resolves = l.resolves := by
    apply resolves_congr
    intro g
    rw [foreignUsage_addForeignReader]
    split <;> rfl
  constructor
  · intro v
    rw [readers_addForeignReader hf hresolved, readersOf, hres, List.filter_append,
      List.map_append]
    apply (h.usage v).append
    by_cases htie : (l.foreignUsage f).resolved = some v
    · simp [resolves, htie, PlacedRead.reader]
    · simp [resolves, htie]
  · intro g
    rw [foreignUsage_addForeignReader, foreignReadersOf, List.filter_append, List.map_append]
    by_cases hfg : f = g
    · subst g
      simpa [hf, foreignReadersOf, PlacedRead.reader] using
        (h.foreign f).append_right [⟨file, offset⟩]
    · simpa [foreignReadersOf, hfg] using h.foreign g
  · intro e he
    rcases List.mem_append.mp he with hold | hnew
    · exact h.single e hold
    · left
      simp only [List.mem_singleton] at hnew
      simp [hnew]

/-! ## Tying a record to its binding -/

theorem foreignUsage_tie (hf : f < l.foreign.size) (u : UsageId) (g : ForeignId) :
    (l.tie f u).foreignUsage g =
      if f = g then { l.foreignUsage g with resolved := some u } else l.foreignUsage g := by
  rw [Ledger.tie, foreignUsage_modifyUsage, foreignUsage_modifyForeign_of_lt hf]

/-- The binding takes over the readers of the record. -/
theorem readers_usage_tie (hu : u < l.usages.size) (f : ForeignId) (v : UsageId) :
    ((l.tie f u).usage v).readers =
      (l.usage v).readers ++ if u = v then (l.foreignUsage f).readers else [] := by
  rw [Ledger.tie, usage_modifyUsage]
  by_cases huv : u = v
  · subst v
    simp [hu]
  · simp [huv]

theorem resolves_tie (hf : f < l.foreign.size) (hfree : (l.foreignUsage f).resolved = none)
    {r : Read} (hsingle : r.usage = none ∨ r.record = none) (v : UsageId) :
    (l.tie f u).resolves v r = (l.resolves v r || (decide (u = v) && r.record == some f)) := by
  rcases hsingle with husage | hrecord
  · cases hr : r.record with
    | none => simp [resolves, hr]
    | some g =>
        simp only [resolves, husage, hr, foreignUsage_tie hf, Option.any_some]
        by_cases hfg : f = g
        · subst g
          simp [hfree]
          rfl
        · simp [hfg, Ne.symm hfg]
  · simp [resolves, hrecord]

/-- What meets one of two conditions is what meets the first and what meets the second, if
nothing meets both. -/
theorem filter_or_perm {α : Type} {first second : α → Bool} {xs : List α}
    (hdisjoint : ∀ x ∈ xs, ¬(first x = true ∧ second x = true)) :
    (xs.filter fun x => first x || second x).Perm (xs.filter first ++ xs.filter second) := by
  have hfirst : (xs.filter fun x => first x || second x).filter first = xs.filter first := by
    rw [List.filter_filter]
    exact List.filter_congr fun x _ => by cases first x <;> simp
  have hsecond : (xs.filter fun x => first x || second x).filter (fun x => !first x) =
      xs.filter second := by
    rw [List.filter_filter]
    apply List.filter_congr
    intro x hx
    have hnot := hdisjoint x hx
    cases hone : first x <;> simp_all
  have hparts := List.filter_append_perm first (xs.filter fun x => first x || second x)
  rw [hfirst, hsecond] at hparts
  exact hparts.symm

theorem Accounts.tie (h : l.Accounts reads) (hf : f < l.foreign.size) (hu : u < l.usages.size)
    (hfree : (l.foreignUsage f).resolved = none) : (l.tie f u).Accounts reads := by
  constructor
  · intro v
    have hfilter : (reads.filter fun e => (l.tie f u).resolves v e.read) =
        reads.filter fun e =>
          l.resolves v e.read || (decide (u = v) && e.read.record == some f) :=
      List.filter_congr fun e he => resolves_tie hf hfree (h.single e he) v
    rw [readers_usage_tie hu, readersOf, hfilter]
    by_cases huv : u = v
    · subst v
      simp only [decide_true, Bool.true_and, if_true]
      -- A read through the record was a read of no binding before the tie.
      have hdisjoint : ∀ e ∈ reads,
          ¬((l.resolves u e.read) = true ∧ (e.read.record == some f) = true) := by
        rintro e he ⟨hres, hrec⟩
        have hrecord : e.read.record = some f := by simpa using hrec
        rcases h.single e he with husage | hnone
        · simp [resolves, husage, hrecord, hfree] at hres
        · rw [hrecord] at hnone
          cases hnone
      refine ((h.usage u).append (h.foreign f)).trans ?_
      rw [readersOf, foreignReadersOf, ← List.map_append]
      exact ((filter_or_perm hdisjoint).map _).symm
    · simpa [readersOf, huv] using h.usage v
  · intro g
    have hreaders : ((l.tie f u).foreignUsage g).readers = (l.foreignUsage g).readers := by
      rw [foreignUsage_tie hf]
      split <;> rfl
    rw [hreaders]
    exact h.foreign g
  · exact h.single

private theorem filter_ne_of_size_le {v : UsageId} (hv : ¬v < l.usages.size) (r : Reader) :
    (l.usage v).readers.filter (· != r) = (l.usage v).readers := by
  simp [usage_of_size_le (Nat.le_of_not_lt hv)]

theorem readers_removeReader (l : Ledger) (u v : UsageId) (r : Reader) :
    ((l.removeReader u r).usage v).readers =
      if u = v then (l.usage v).readers.filter (· != r) else (l.usage v).readers := by
  rw [removeReader, usage_modifyUsage]
  by_cases huv : u = v
  · by_cases hv : v < l.usages.size
    · simp [huv, hv]
    · rw [if_neg (by tauto), if_pos huv, filter_ne_of_size_le hv]
  · simp [huv]

@[simp] theorem foreignUsage_removeReader (l : Ledger) (u : UsageId) (f : ForeignId)
    (r : Reader) : (l.removeReader u r).foreignUsage f = l.foreignUsage f := rfl

theorem foreignUsage_removeForeignReader (l : Ledger) (f g : ForeignId) (r : Reader) :
    (l.removeForeignReader f r).foreignUsage g =
      if f = g then
        { l.foreignUsage g with readers := (l.foreignUsage g).readers.filter (· != r) }
      else l.foreignUsage g := by
  have hmodify : (l.modifyForeign f fun usage =>
        { usage with readers := usage.readers.filter (· != r) }).foreignUsage g =
      if f = g then
        { l.foreignUsage g with readers := (l.foreignUsage g).readers.filter (· != r) }
      else l.foreignUsage g := by
    rw [foreignUsage_modifyForeign]
    by_cases hfg : f = g
    · by_cases hg : g < l.foreign.size
      · simp [hfg, hg]
      · simp [hfg, hg, foreignUsage_of_size_le (Nat.le_of_not_lt hg)]
    · simp [hfg]
  simp only [removeForeignReader]
  split
  · rw [foreignUsage_removeReader]
    exact hmodify
  · exact hmodify

theorem readers_removeForeignReader (l : Ledger) (f : ForeignId) (v : UsageId) (r : Reader) :
    ((l.removeForeignReader f r).usage v).readers =
      if (l.foreignUsage f).resolved = some v then (l.usage v).readers.filter (· != r)
      else (l.usage v).readers := by
  have hresolved : ((l.modifyForeign f fun usage =>
        { usage with readers := usage.readers.filter (· != r) }).foreignUsage f).resolved =
      (l.foreignUsage f).resolved := by
    rw [foreignUsage_modifyForeign]
    split <;> rfl
  simp only [removeForeignReader, hresolved]
  cases htie : (l.foreignUsage f).resolved with
  | none => simp
  | some w => simp [readers_removeReader]

/-- Releasing a read drops its reader from the bindings it is a read of. -/
theorem readers_release (l : Ledger) (file : NamespaceId) (r : Read) (v : UsageId) :
    ((l.release file r).usage v).readers =
      if l.resolves v r then (l.usage v).readers.filter (· != ⟨file, r.offset⟩)
      else (l.usage v).readers := by
  have hown : ∀ u, ((l.removeReader u ⟨file, r.offset⟩).usage v).readers =
      if u = v then (l.usage v).readers.filter (· != ⟨file, r.offset⟩)
      else (l.usage v).readers := fun u => readers_removeReader l u v _
  cases husage : r.usage with
  | none =>
      cases hrecord : r.record with
      | none => simp [release, resolves, husage, hrecord]
      | some f =>
          simp [release, resolves, husage, hrecord, readers_removeForeignReader]
  | some u =>
      cases hrecord : r.record with
      | none => simp [release, resolves, husage, hrecord, hown]
      | some f =>
          simp only [release, resolves, husage, hrecord, readers_removeForeignReader, hown,
            foreignUsage_removeReader]
          by_cases huv : u = v
          · by_cases htie : (l.foreignUsage f).resolved = some v
            · simp [huv, htie]
            · simp [huv, htie]
          · by_cases htie : (l.foreignUsage f).resolved = some v
            · simp [huv, htie]
            · simp [huv, htie]

theorem foreignUsage_release (l : Ledger) (file : NamespaceId) (r : Read) (g : ForeignId) :
    (l.release file r).foreignUsage g =
      if r.record = some g then
        { l.foreignUsage g with
          readers := (l.foreignUsage g).readers.filter (· != ⟨file, r.offset⟩) }
      else l.foreignUsage g := by
  cases husage : r.usage with
  | none =>
      cases hrecord : r.record with
      | none => simp [release, husage, hrecord]
      | some f => simp [release, husage, hrecord, foreignUsage_removeForeignReader]
  | some u =>
      cases hrecord : r.record with
      | none => simp [release, husage, hrecord]
      | some f => simp [release, husage, hrecord, foreignUsage_removeForeignReader]

private theorem perm_filter_ne {readers rest : List Reader} {r : Reader}
    (hperm : readers.Perm (r :: rest)) (hr : r ∉ rest) : (readers.filter (· != r)).Perm rest := by
  have hrest : rest.filter (· != r) = rest := by
    rw [List.filter_eq_self]
    intro x hx
    simp only [bne_iff_ne, ne_eq]
    rintro rfl
    exact hr hx
  simpa [hrest] using hperm.filter (· != r)

/-- A ledger from which one read is taken off accounts for the others, if no other
read stands at the same place. -/
theorem Accounts.release {e : PlacedRead} (h : l.Accounts (e :: reads))
    (he : e.reader ∉ reads.map PlacedRead.reader) :
    (l.release e.file e.read).Accounts reads where
  usage v := by
    have hres : (l.release e.file e.read).resolves = l.resolves := by
      apply resolves_congr
      intro f
      rw [foreignUsage_release]
      split <;> rfl
    have hold := h.usage v
    rw [readersOf, List.filter_cons] at hold
    rw [readers_release, readersOf, hres]
    by_cases hev : l.resolves v e.read = true
    · rw [if_pos hev] at hold ⊢
      apply perm_filter_ne hold
      intro hmem
      exact he (List.map_subset _ (List.filter_subset_self _) hmem)
    · rw [if_neg hev] at hold ⊢
      exact hold
  foreign f := by
    have hold := h.foreign f
    rw [foreignReadersOf, List.filter_cons] at hold
    rw [foreignUsage_release, foreignReadersOf]
    by_cases hef : e.read.record = some f
    · rw [if_pos (by simpa using hef)] at hold
      rw [if_pos hef]
      apply perm_filter_ne hold
      intro hmem
      exact he (List.map_subset _ (List.filter_subset_self _) hmem)
    · rw [if_neg (by simpa using hef)] at hold
      rw [if_neg hef]
      exact hold
  single x hx := h.single x (List.mem_cons_of_mem e hx)

/-- Taking off a list of reads leaves a ledger that accounts for the rest. -/
theorem Accounts.foldl_release {file : NamespaceId} (dropped : List Read)
    (h : l.Accounts (dropped.map (⟨file, ·⟩) ++ reads))
    (hnodup : ((dropped.map (PlacedRead.mk file) ++ reads).map PlacedRead.reader).Nodup) :
    (dropped.foldl (Ledger.release file) l).Accounts reads := by
  induction dropped generalizing l with
  | nil => simpa using h
  | cons r rest ih =>
      simp only [List.map_cons, List.cons_append] at h hnodup
      obtain ⟨hfresh, hrest⟩ := List.nodup_cons.mp hnodup
      exact ih (h.release hfresh) hrest

end Ledger

end Splice

import Splice.Proofs.Program.Enums

/-!
# Values that move forward

The counter that gives values starts at 1, passes every explicit value that it meets and
skips those that are explicit anywhere else.  So its values are the least ones that move
forward: if values can be given at all that are positive, above every value before them and
not explicit, then the counter gives such values, and no larger ones than it must.  The
counter goes wrong at the end of the numbers only.  Behind an entry with the greatest number
there is no value left, but the counter comes round to the smallest one.
-/

namespace Splice.Program

variable {p q : Program} {taken : List Int64} {next : Int64} {c : OwnedEntry}
  {cs cs' es : List OwnedEntry}

/-- The values that are given to entries from a counter on move forward: none is taken, and
each is above all values before it. -/
structure Forward (taken : List Int64) (next : Int64) (cs : List OwnedEntry) : Prop where
  le : ∀ c ∈ cs, c.entry.explicit = false → next ≤ c.entry.value
  free : ∀ c ∈ cs, c.entry.explicit = false → c.entry.value ∉ taken
  above : cs.Pairwise fun b c => c.entry.explicit = false → b.entry.value < c.entry.value

theorem Forward.nil : Forward taken next [] where
  le _ hc := absurd hc List.not_mem_nil
  free _ hc := absurd hc List.not_mem_nil
  above := List.Pairwise.nil

theorem Forward.cons (hrest : Forward taken next cs)
    (hle : c.entry.explicit = false → next ≤ c.entry.value)
    (hfree : c.entry.explicit = false → c.entry.value ∉ taken)
    (habove : ∀ d ∈ cs, d.entry.explicit = false → c.entry.value < d.entry.value) :
    Forward taken next (c :: cs) where
  le d hd := by
    rcases List.mem_cons.mp hd with rfl | hd
    · exact hle
    · exact hrest.le d hd
  free d hd := by
    rcases List.mem_cons.mp hd with rfl | hd
    · exact hfree
    · exact hrest.free d hd
  above := List.Pairwise.cons habove hrest.above

theorem Forward.lt_head (h : Forward taken next (c :: cs)) :
    ∀ d ∈ cs, d.entry.explicit = false → c.entry.value < d.entry.value :=
  (List.pairwise_cons.mp h.above).1

theorem Forward.behind (h : Forward taken next (c :: cs)) : Forward taken next cs where
  le d hd := h.le d (List.mem_cons_of_mem c hd)
  free d hd := h.free d (List.mem_cons_of_mem c hd)
  above := (List.pairwise_cons.mp h.above).2

/-- What stands behind an entry moves forward from every value up to that of the entry. -/
theorem Forward.past (h : Forward taken next (c :: cs)) {value : Int64}
    (hvalue : value ≤ c.entry.value) : Forward (value :: taken) (value + 1) cs where
  le d hd hauto := by
    have hlt := h.lt_head d hd hauto
    grind
  free d hd hauto := by
    have hlt := h.lt_head d hd hauto
    have hfree := h.behind.free d hd hauto
    grind
  above := h.behind.above

theorem Forward.of_cons_taken {value : Int64} (h : Forward (value :: taken) next cs) :
    Forward taken next cs where
  le := h.le
  free d hd hauto hmem := h.free d hd hauto (List.mem_cons_of_mem value hmem)
  above := h.above

theorem Forward.of_le {floor : Int64} (h : Forward taken next cs)
    (hle : ∀ d ∈ cs, d.entry.explicit = false → floor ≤ d.entry.value) :
    Forward taken floor cs where
  le := hle
  free := h.free
  above := h.above

/-- The search from a counter on finds no more than any free value from there on. -/
theorem Finds.between {value other : Int64} (h : Finds taken next value) (hfree : other ∉ taken)
    (hle : next ≤ other) : next ≤ value ∧ value ≤ other := by
  induction h with
  | free _ => exact ⟨Int64.le_refl _, hle⟩
  | @skip next value hmem _ ih =>
      have hne : next ≠ other := fun heq => hfree (heq ▸ hmem)
      have hlt : next < other := by grind
      obtain ⟨hge, hle⟩ := ih (by grind)
      exact ⟨by grind, hle⟩

theorem GivenValue.eq_of_explicit {c' : OwnedEntry} (h : GivenValue c c')
    (hexplicit : c.entry.explicit = true) : c' = c := by
  obtain ⟨value, rfl, hvalue⟩ := h
  rw [hvalue hexplicit]

theorem GivenValue.explicit_eq {c' : OwnedEntry} (h : GivenValue c c') :
    c'.entry.explicit = c.entry.explicit := by
  obtain ⟨value, rfl, -⟩ := h
  rfl

def NotAbove (c e : OwnedEntry) : Prop :=
  c.entry.explicit = e.entry.explicit ∧ c.entry.value ≤ e.entry.value

/-- What bounds the second values from below by a value that is passed bounds the first. -/
theorem lt_of_notAbove {value : Int64} (h : List.Forall₂ NotAbove cs es)
    (hes : ∀ e ∈ es, e.entry.explicit = false → value < e.entry.value)
    (hcs : ∀ c ∈ cs, c.entry.explicit = false → value + 1 ≤ c.entry.value) :
    ∀ c ∈ cs, c.entry.explicit = false → value < c.entry.value := by
  induction h with
  | nil => exact fun c hc => absurd hc List.not_mem_nil
  | @cons d e cs es hde _ ih =>
      intro c hc hauto
      rcases List.mem_cons.mp hc with rfl | hc
      · -- There is a value above the one that is passed, so the next one exists.
        have hlt := hes e List.mem_cons_self (hde.1.symm.trans hauto)
        have hge := hcs c List.mem_cons_self hauto
        grind
      · exact ih (fun e he => hes e (List.mem_cons_of_mem _ he))
          (fun d hd => hcs d (List.mem_cons_of_mem _ hd)) c hc hauto

def passed (next value : Int64) : Int64 := if value ≥ next then value + 1 else next

theorem Forward.behind_explicit (h : Forward taken next (c :: es)) :
    Forward taken (passed next c.entry.value) es := by
  apply h.behind.of_le
  intro d hd hauto
  have hle := h.behind.le d hd hauto
  have habove := h.lt_head d hd hauto
  unfold passed
  split <;> grind

/-- An explicit entry in front of values that the loop gave from behind it on. -/
theorem Forward.cons_explicit (hexplicit : c.entry.explicit = true)
    (hes : Forward taken next (c :: es)) (hloop : Forward taken (passed next c.entry.value) cs)
    (hbelow : List.Forall₂ NotAbove cs es) : Forward taken next (c :: cs) := by
  unfold passed at hloop
  have habove : ∀ d ∈ cs, d.entry.explicit = false → c.entry.value < d.entry.value := by
    by_cases hpassed : c.entry.value ≥ next
    · rw [if_pos hpassed] at hloop
      exact lt_of_notAbove hbelow hes.lt_head hloop.le
    · rw [if_neg hpassed] at hloop
      intro d hd hauto
      have hle := hloop.le d hd hauto
      grind
  have hle : ∀ d ∈ cs, d.entry.explicit = false → next ≤ d.entry.value := by
    intro d hd hauto
    have hd' := habove d hd hauto
    have hge := hloop.le d hd hauto
    split at hge <;> grind
  have hnot : c.entry.explicit ≠ false := by
    rw [hexplicit]
    decide
  exact (hloop.of_le hle).cons (absurd · hnot) (absurd · hnot) habove

/-- A value that was found in front of values that the loop gave from behind it on. -/
theorem Forward.cons_automatic (hge : next ≤ c.entry.value) (hfree : c.entry.value ∉ taken)
    (hlt : ∀ e ∈ es, e.entry.explicit = false → c.entry.value < e.entry.value)
    (hloop : Forward (c.entry.value :: taken) (c.entry.value + 1) cs)
    (hbelow : List.Forall₂ NotAbove cs es) : Forward taken next (c :: cs) := by
  have habove := lt_of_notAbove hbelow hlt hloop.le
  have hfloor : ∀ d ∈ cs, d.entry.explicit = false → next ≤ d.entry.value := by
    intro d hd hauto
    have hd' := habove d hd hauto
    grind
  exact (hloop.of_cons_taken.of_le hfloor).cons (fun _ => hge) (fun _ => hfree) habove

/-- If values can be given that move forward, those of the loop do, and are the least. -/
theorem Assigns.forward (h : Assigns taken next cs cs') (hes : List.Forall₂ GivenValue cs es)
    (hforward : Forward taken next es) :
    Forward taken next cs' ∧ List.Forall₂ NotAbove cs' es := by
  induction h generalizing es with
  | nil =>
      cases hes
      exact ⟨Forward.nil, List.Forall₂.nil⟩
  | explicit hexplicit _ ih =>
      cases hes with
      | cons hgiven hrest =>
          rw [hgiven.eq_of_explicit hexplicit] at hforward ⊢
          obtain ⟨hloop, hbelow⟩ := ih hrest hforward.behind_explicit
          exact ⟨hforward.cons_explicit hexplicit hloop hbelow,
            List.Forall₂.cons ⟨rfl, Int64.le_refl _⟩ hbelow⟩
  | @automatic taken next value c cs cs' hauto hfinds _ ih =>
      cases hes with
      | @cons _ e _ es hgiven hrest =>
          have heauto := hgiven.explicit_eq.trans hauto
          have hfree := hforward.free e List.mem_cons_self heauto
          obtain ⟨hge, hle⟩ := hfinds.between hfree (hforward.le e List.mem_cons_self heauto)
          obtain ⟨hloop, hbelow⟩ := ih hrest (hforward.past hle)
          have hlt : ∀ d ∈ es, d.entry.explicit = false → value < d.entry.value := by
            intro d hd hdauto
            have habove := hforward.lt_head d hd hdauto
            grind
          exact ⟨Forward.cons_automatic hge hfinds.not_mem hlt hloop hbelow,
            List.Forall₂.cons ⟨hauto.trans heauto.symm, hle⟩ hbelow⟩

/-! ## Room for values -/

def numberFrom : Int → List OwnedEntry → List OwnedEntry
  | _, [] => []
  | n, c :: rest =>
      if c.entry.explicit then c :: numberFrom n rest
      else { c with entry := { c.entry with value := Int64.ofInt n } } :: numberFrom (n + 1) rest

theorem givenValue_numberFrom (n : Int) (cs : List OwnedEntry) :
    List.Forall₂ GivenValue cs (numberFrom n cs) := by
  induction cs generalizing n with
  | nil => exact List.Forall₂.nil
  | cons c rest ih =>
      rw [numberFrom]
      split
      · exact List.Forall₂.cons ⟨c.entry.value, rfl, fun _ => rfl⟩ (ih n)
      · next hexplicit =>
          exact List.Forall₂.cons ⟨_, rfl, fun h => absurd h hexplicit⟩ (ih (n + 1))

def waiting (cs : List OwnedEntry) : Nat := cs.countP fun c => !c.entry.explicit

theorem waiting_cons (c : OwnedEntry) (cs : List OwnedEntry) :
    waiting (c :: cs) = waiting cs + if c.entry.explicit then 0 else 1 := by
  rw [waiting, List.countP_cons]
  cases c.entry.explicit <;> rfl

theorem le_numberFrom {n : Int} (hlow : -2 ^ 63 ≤ n) (hfit : n + waiting cs ≤ 2 ^ 63) :
    ∀ d ∈ numberFrom n cs, d.entry.explicit = false → n ≤ d.entry.value.toInt := by
  induction cs generalizing n with
  | nil => exact fun d hd => absurd hd List.not_mem_nil
  | cons c rest ih =>
      rw [waiting_cons] at hfit
      intro d hd hauto
      rw [numberFrom] at hd
      split at hd
      · next hexplicit =>
          rw [if_pos hexplicit] at hfit
          rcases List.mem_cons.mp hd with rfl | hd
          · rw [hexplicit] at hauto
            cases hauto
          · exact ih hlow (by simpa using hfit) d hd hauto
      · next hexplicit =>
          rw [if_neg hexplicit] at hfit
          rcases List.mem_cons.mp hd with rfl | hd
          · rw [Int64.toInt_ofInt_of_le hlow (by omega)]
          · have hle := ih (n := n + 1) (by omega) (by omega) d hd hauto
            omega

/-- Numbers above all explicit values move forward, as long as there are enough of them. -/
theorem forward_numberFrom {n : Int} (hlow : -2 ^ 63 ≤ n) (hfit : n + waiting cs ≤ 2 ^ 63)
    (hnext : next.toInt ≤ n) (htaken : ∀ v ∈ taken, v.toInt < n)
    (hcs : ∀ c ∈ cs, c.entry.explicit = true → c.entry.value.toInt < n) :
    Forward taken next (numberFrom n cs) := by
  induction cs generalizing n with
  | nil => exact Forward.nil
  | cons c rest ih =>
      have hrest := fun d hd => hcs d (List.mem_cons_of_mem c hd)
      rw [waiting_cons] at hfit
      rw [numberFrom]
      split
      · next hexplicit =>
          rw [if_pos hexplicit] at hfit
          have hfit' : n + waiting rest ≤ 2 ^ 63 := by simpa using hfit
          have hnot : c.entry.explicit ≠ false := by
            rw [hexplicit]
            decide
          refine (ih hlow hfit' hnext htaken hrest).cons (absurd · hnot) (absurd · hnot) ?_
          intro d hd hauto
          have hle := le_numberFrom hlow hfit' d hd hauto
          have hlt := hcs c List.mem_cons_self hexplicit
          rw [Int64.lt_iff_toInt_lt]
          omega
      · next hexplicit =>
          rw [if_neg hexplicit] at hfit
          have hvalue : (Int64.ofInt n).toInt = n := Int64.toInt_ofInt_of_le hlow (by omega)
          refine (ih (n := n + 1) (by omega) (by omega) (by omega)
            (fun v hv => Int.lt_trans (htaken v hv) (Int.lt_succ n))
            (fun d hd hauto => Int.lt_trans (hrest d hd hauto) (Int.lt_succ n))).cons ?_ ?_ ?_
          · intro _
            rw [Int64.le_iff_toInt_le, hvalue]
            exact hnext
          · intro _ hmem
            have hlt := htaken _ hmem
            rw [hvalue] at hlt
            exact absurd hlt (Int.lt_irrefl n)
          · intro d hd hauto
            have hle := le_numberFrom (n := n + 1) (by omega) (by omega) d hd hauto
            rw [Int64.lt_iff_toInt_lt, hvalue]
            omega

/-- The values of a program move forward: an entry without an explicit value has one that is
at least 1, above all values before it, and explicit nowhere in the program. -/
def MovesForward (p : Program) : Prop := Forward p.explicitValues 1 p.enumEntries

/-- Values that the entries of a program can be given so that they move forward. -/
structure Admits (p : Program) (es : List OwnedEntry) : Prop where
  given : List.Forall₂ GivenValue p.enumEntries es
  forward : Forward p.explicitValues 1 es

theorem filter_explicit_of_givenValue (h : List.Forall₂ GivenValue cs es) :
    (es.filter fun c => c.entry.explicit) = cs.filter fun c => c.entry.explicit := by
  induction h with
  | nil => rfl
  | @cons c e cs es hgiven _ ih =>
      rw [List.filter_cons, List.filter_cons, hgiven.explicit_eq, ih]
      split
      · next hexplicit => rw [hgiven.eq_of_explicit hexplicit]
      · rfl

/-- Values that move forward differ, so that there are no more entries than values. -/
theorem Admits.length_le (h : p.Admits es) (hnodup : p.explicitValues.Nodup) :
    p.enumEntries.length ≤ 2 ^ 64 := by
  have hexplicit : es.Pairwise fun b c => b.entry.explicit = true → c.entry.explicit = true →
      b.entry.value ≠ c.entry.value := by
    rw [explicitValues, explicitEntries, ← filter_explicit_of_givenValue h.given, List.Nodup,
      List.pairwise_map, List.pairwise_filter] at hnodup
    exact hnodup
  have hmem : ∀ c ∈ es, c.entry.explicit = true → c.entry.value ∈ p.explicitValues := by
    intro c hc hexplicit
    rw [explicitValues, explicitEntries, ← filter_explicit_of_givenValue h.given]
    exact List.mem_map_of_mem (List.mem_filter.mpr ⟨hc, hexplicit⟩)
  have hvalues : (es.map fun c => c.entry.value).Nodup := by
    rw [List.Nodup, List.pairwise_map]
    refine (hexplicit.and h.forward.above).imp_of_mem ?_
    rintro b c hb hc ⟨hexplicit, habove⟩ heq
    cases hcauto : c.entry.explicit with
    | false => exact Int64.ne_of_lt (habove hcauto) heq
    | true =>
        cases hbauto : b.entry.explicit with
        | false => exact h.forward.free b hb hbauto (heq ▸ hmem c hc hcauto)
        | true => exact hexplicit hbauto hcauto heq
  have hle := length_le_of_nodup hvalues
  rw [List.length_map, ← h.given.length_eq] at hle
  exact hle

theorem explicitValues_assigned (p : Program) : p.assigned.explicitValues = p.explicitValues := by
  rw [explicitValues, explicitEntries, filter_explicit_of_givenValue (givenValue_assigned p)]
  rfl

theorem Admits.assigned (h : p.Admits es) (hnodup : p.explicitValues.Nodup) :
    p.assigned.MovesForward ∧ List.Forall₂ NotAbove p.assigned.enumEntries es := by
  have hforward := (assigns_assigned (h.length_le hnodup)).forward h.given h.forward
  rwa [MovesForward, explicitValues_assigned]

theorem admits_assigned (h : p.assigned.MovesForward) : p.Admits p.assigned.enumEntries where
  given := givenValue_assigned p
  forward := by
    rw [MovesForward, explicitValues_assigned] at h
    exact h

/-- Values above all explicit ones are left if there are enough numbers behind these. -/
theorem admits_numberFrom {bound : Nat} (hbound : ∀ v ∈ p.explicitValues, v.toInt ≤ bound)
    (hfit : bound + waiting p.enumEntries < 2 ^ 63) :
    p.Admits (numberFrom (bound + 1) p.enumEntries) where
  given := givenValue_numberFrom _ _
  forward := by
    refine forward_numberFrom (by omega) (by omega) ?_ ?_ ?_
    · have hone : (1 : Int64).toInt = 1 := rfl
      omega
    · exact fun v hv => Int.lt_add_one_of_le (hbound v hv)
    · intro c hc hexplicit
      have hmem : c.entry.value ∈ p.explicitValues :=
        List.mem_map_of_mem (List.mem_filter.mpr ⟨hc, hexplicit⟩)
      exact Int.lt_add_one_of_le (hbound _ hmem)

/-- The values that a program is given move forward exactly if there are values that do, and
then they are the least.  There are some if the numbers behind the explicit values are as
many as the entries that wait for one. -/
theorem values_move_forward_iff (p q : Program) (hp : p.enumsAssigned = false)
    (hrun : assignEnumValues p = .ok () q) :
    (q.MovesForward ↔ ∃ es, p.Admits es) ∧
    (∀ es, p.Admits es → List.Forall₂ NotAbove q.enumEntries es) ∧
    ∀ bound : Nat, (∀ v ∈ p.explicitValues, v.toInt ≤ bound) →
      bound + waiting p.enumEntries < 2 ^ 63 → q.MovesForward := by
  obtain ⟨-, c, owner, -, -, hfails⟩ | ⟨hnodup, hgiven⟩ := assignEnumValues_cases hp
  · rw [hfails] at hrun
    cases hrun
  · rw [hgiven] at hrun
    cases hrun
    refine ⟨⟨fun h => ⟨_, admits_assigned h⟩, ?_⟩, ?_, ?_⟩
    · rintro ⟨es, hes⟩
      exact (hes.assigned hnodup).1
    · exact fun es hes => (hes.assigned hnodup).2
    · exact fun bound hbound hfit => ((admits_numberFrom hbound hfit).assigned hnodup).1

/-- A value that the counter comes to first is explicit in the second file, and a larger one
in the first. -/
def interleavedProgram : Program :=
  { namespaces :=
      #[{ id := "a"
          unit := ⟨[], "/a"⟩
          key := "/a"
          enums := [⟨"E", 0, [⟨"A", false, 0, 0⟩, ⟨"B", false, 0, 0⟩, ⟨"C", true, 7, 0⟩,
            ⟨"D", false, 0, 0⟩]⟩] },
        { id := "b"
          unit := ⟨[], "/b"⟩
          key := "/b"
          enums := [⟨"F", 0, [⟨"G", true, 2, 0⟩, ⟨"H", false, 0, 0⟩]⟩] }] }

theorem values_move_forward_interleaved :
    interleavedProgram.enumsAssigned = false ∧
      ∃ q, assignEnumValues interleavedProgram = .ok () q ∧ q.MovesForward ∧
        q.enumEntries.map (fun c => c.entry.value) = [1, 3, 7, 8, 2, 9] := by
  obtain ⟨-, -, hroom⟩ :=
    values_move_forward_iff interleavedProgram interleavedProgram.assigned rfl rfl
  have hwaiting : waiting interleavedProgram.enumEntries = 4 := by decide +kernel
  have hexplicit : interleavedProgram.explicitValues = [7, 2] := rfl
  refine ⟨rfl, interleavedProgram.assigned, rfl, hroom 7 ?_ ?_, by decide +kernel⟩
  · rw [hexplicit]
    intro v hv
    obtain rfl | rfl := List.mem_pair.mp hv <;> decide
  · rw [hwaiting]
    norm_num

/-- An entry waits for its value behind one that has the greatest number. -/
def exhaustedProgram : Program :=
  { namespaces :=
      #[{ id := "m"
          unit := ⟨[], "/m.wv"⟩
          key := "/m.wv"
          enums := [⟨"E", 0, [⟨"A", true, 9223372036854775807, 0⟩, ⟨"B", false, 0, 0⟩]⟩] }] }

/-- The counter comes round, and the entry is given the smallest number there is. -/
theorem value_behind_greatest :
    ∃ q, assignEnumValues exhaustedProgram = .ok () q ∧
      q.enumEntries.map (fun c => c.entry.value) = [9223372036854775807, -9223372036854775808] ∧
      ¬q.MovesForward := by
  refine ⟨exhaustedProgram.assigned, rfl, by decide, fun h => ?_⟩
  have hmem : ⟨0, "E", "B", false, -9223372036854775808, 0⟩ ∈
      exhaustedProgram.assigned.enumEntries := List.mem_of_getElem? (i := 1) rfl
  exact absurd (h.le _ hmem rfl) (by decide)

end Splice.Program

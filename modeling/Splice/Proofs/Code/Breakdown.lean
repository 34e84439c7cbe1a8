import Splice.Proofs.Code.Grammar

/-!
# Where reading breaks down

The head of an instruction announces how many operands follow it.  Code from outside may
announce any number, and some of them are impossible: more operands than a list can hold,
or a function without a body.  `Code.Breaks` says, without a reader, that there is such a
head where an instruction is expected, be it at the top level or among the operands of
other instructions.  The reader breaks down there and nowhere else, as far as counts go: a machine
that runs out of memory or of stack on a count or a nesting below the limit is not looked at.

A step of the reader either has an answer at once or reads a head and goes on behind it
(`Instr.decodeFuel_cases`), so code gets shorter with every step and the bounds on the
recursion of the reader are never reached.
-/

namespace Splice

namespace Opcode

/-- No instruction has so many operands: they are more than any list has, or a function
is left without a body. -/
def Impossible (op : Opcode) (operands : Nat) : Prop :=
  Instr.maxCount < operands ∨ op = func ∧ operands = 0

end Opcode

namespace Instr

/-- Some bytes are what stands before the operands of an operation, and announce a number
of operands, reckoned with 64 bits. -/
inductive Head : Code → Opcode → Nat → Prop
  | fixed {op : Opcode} {n : Nat} (hop : op.shape = .fixed n) : Head [op.byte] op n
  | counted {op : Opcode} {scale extra : Nat} {digits : Code} {count : UInt64}
      (hop : op.shape = .counted scale extra) (hdigits : Varint.Spells digits count) :
      Head (op.byte :: digits) op (op.announced count.toNat % 2 ^ 64)
  | syscall {bytes digits : Code} {name : Text} {argc : UInt64} (hname : SpellsText bytes name)
      (hargc : Varint.Spells digits argc) :
      Head (Opcode.syscall.byte :: (bytes ++ digits)) .syscall argc.toNat

/-- The instruction at the front of some code has an impossible head, or one of its
operands has. -/
inductive Breaks : Code → Prop
  | here {head rest : Code} {op : Opcode} {n : Nat} (hhead : Head head op n)
      (himpossible : op.Impossible n) : Breaks (head ++ rest)
  | inside {head body rest : Code} {op : Opcode} {n : Nat} {is : List Instr}
      (hhead : Head head op n) (hpossible : n ≤ maxCount)
      (hbody : WrittenAll Opcode.Wrapping body is) (hmore : is.length < n) (hrest : Breaks rest) :
      Breaks (head ++ (body ++ rest))

theorem Head.length_pos {head : Code} {op : Opcode} {n : Nat} (h : Head head op n) :
    0 < head.length := by
  cases h <;> simp

theorem operandCount_eq_error {scale extra : Nat} {count : UInt64}
    (h : maxCount < (scale * count.toNat + extra) % 2 ^ 64) :
    operandCount scale extra count = .error .impossibleCount := by
  cases hcount : operandCount scale extra count with
  | ok n =>
      obtain ⟨rfl, hle⟩ := operandCount_eq_ok_iff.mp hcount
      exact absurd h (Nat.not_lt.mpr hle)
  | error e =>
      simp only [operandCount] at hcount
      split at hcount
      · exact hcount.symm
      · cases hcount

/-- A head that announces too much is refused. -/
theorem decodeFuel_of_lt {head : Code} {op : Opcode} {n : Nat} (h : Head head op n)
    (hn : maxCount < n) (fuel : Nat) (rest : Code) :
    decodeFuel (fuel + 1) (head ++ rest) = .error .impossibleCount := by
  cases h with
  | fixed hop =>
      have hsmall : n ≤ maxCount := by cases op <;> cases hop <;> decide
      exact absurd hn (Nat.not_lt.mpr hsmall)
  | counted hop hdigits =>
      rw [Opcode.announced_of_counted hop] at hn
      simp only [List.cons_append, decodeFuel_counted hop, takeVarint_append hdigits,
        operandCount_eq_error hn, bind, Except.bind]
  | @syscall _ _ _ argc hname hargc =>
      have hargs : maxCount < (1 * argc.toNat + 0) % 2 ^ 64 := by
        have := argc.toNat_lt
        omega
      simp only [List.cons_append, List.append_assoc, decodeFuel, Opcode.ofByte?_byte,
        takeText_append hname, takeVarint_append hargc, operandCount_eq_error hargs, bind,
        Except.bind]

/-- Behind a head the reader goes on with the operands. -/
theorem exists_decodeFuel_eq {head : Code} {op : Opcode} {n : Nat} (h : Head head op n)
    (hn : n ≤ maxCount) (rest : Code) :
    ∃ wrap : List Instr → Instr, ∀ fuel, decodeFuel (fuel + 1) (head ++ rest) = (do
      let (operands, rest) ← decodeManyFuel fuel n rest
      if op == .func && operands.isEmpty then .error .impossibleCount
      else .ok (wrap operands, rest)) := by
  cases h with
  | fixed hop =>
      have hfunc : (op == .func) = false := by cases op <;> cases hop <;> rfl
      refine ⟨node op, fun fuel => ?_⟩
      simp only [List.cons_append, List.nil_append, decodeFuel_fixed hop, hfunc, Bool.false_and,
        Bool.false_eq_true, if_false]
  | @counted _ scale extra _ count hop hdigits =>
      have hcount : operandCount scale extra count = .ok (op.announced count.toNat % 2 ^ 64) := by
        rw [operandCount_eq_ok_iff, Opcode.announced_of_counted hop] at *
        exact ⟨rfl, hn⟩
      refine ⟨node op, fun fuel => ?_⟩
      simp only [List.cons_append, decodeFuel_counted hop, takeVarint_append hdigits, hcount, bind,
        Except.bind]
  | @syscall _ _ name argc hname hargc =>
      have hargs : operandCount 1 0 argc = .ok argc.toNat := by
        have hlt := argc.toNat_lt
        rw [operandCount_eq_ok_iff]
        exact ⟨by omega, hn⟩
      have hfunc : (Opcode.syscall == .func) = false := rfl
      refine ⟨syscall name, fun fuel => ?_⟩
      simp only [List.cons_append, List.append_assoc, decodeFuel, Opcode.ofByte?_byte,
        takeText_append hname, takeVarint_append hargc, hargs, bind, Except.bind, hfunc,
        Bool.false_and, Bool.false_eq_true, if_false]

theorem ne_of_takeVarint {code : Code} {e : DecodeError} (h : takeVarint code = .error e) :
    e ≠ .impossibleCount := by
  rw [takeVarint] at h
  cases hread : Varint.decode code with
  | ok read => simp [hread, Except.mapError] at h
  | error fault =>
      rw [hread] at h
      cases h
      cases fault <;> simp [DecodeError.ofVarint]

theorem ne_of_takeText {code : Code} {e : DecodeError} (h : takeText code = .error e) :
    e ≠ .impossibleCount := by
  rw [takeText] at h
  cases hhead : takeVarint code with
  | error fault =>
      rw [hhead] at h
      cases h
      exact ne_of_takeVarint hhead
  | ok read =>
      simp only [hhead, bind, Except.bind] at h
      split at h
      · cases h
        simp
      · cases h

/-- A step of the reader reads a head, or has an answer whatever the bound is. -/
theorem decodeFuel_cases (code : Code) :
    (∃ head op n rest, code = head ++ rest ∧ Head head op n) ∨
      ∃ answer, answer ≠ .error .impossibleCount ∧ ∀ fuel, decodeFuel (fuel + 1) code = answer := by
  have hfails {e : DecodeError} (hne : e ≠ .impossibleCount) :
      (.error e : Except DecodeError (Instr × Code)) ≠ .error .impossibleCount :=
    fun h => hne (Except.error.inj h)
  cases code with
  | nil => exact .inr ⟨.error .endOfCode, hfails (by decide), fun fuel => by rw [decodeFuel]⟩
  | cons b code =>
      cases hop : Opcode.ofByte? b with
      | none =>
          refine .inr ⟨.error (.unknownOpcode b), hfails (by simp), fun fuel => ?_⟩
          simp only [decodeFuel, hop]
      | some op =>
          obtain rfl := Opcode.eq_byte_of_ofByte? hop
          cases hshape : op.shape with
          | fixed n => exact .inl ⟨[op.byte], op, n, code, rfl, .fixed hshape⟩
          | counted scale extra =>
              cases hcount : takeVarint code with
              | error e =>
                  refine .inr ⟨_, hfails (ne_of_takeVarint hcount), fun fuel => ?_⟩
                  simp only [decodeFuel_counted hshape, hcount, bind, Except.bind]
              | ok read =>
                  obtain ⟨digits, rfl, hdigits⟩ := takeVarint_eq_ok_iff.mp hcount
                  exact .inl ⟨op.byte :: digits, op, _, read.2, rfl, .counted hshape hdigits⟩
          | payload =>
              obtain rfl | rfl | rfl | rfl := Opcode.eq_of_payload hshape
              · cases hn : takeVarint code with
                | error e =>
                    refine .inr ⟨_, hfails (ne_of_takeVarint hn), fun fuel => ?_⟩
                    simp only [decodeFuel, Opcode.ofByte?_byte, hn, bind, Except.bind]
                | ok read =>
                    refine .inr ⟨.ok (number (Varint.unfold read.1), read.2), by simp,
                      fun fuel => ?_⟩
                    simp only [decodeFuel, Opcode.ofByte?_byte, hn, bind, Except.bind]
              · cases ht : takeText code with
                | error e =>
                    refine .inr ⟨_, hfails (ne_of_takeText ht), fun fuel => ?_⟩
                    simp only [decodeFuel, Opcode.ofByte?_byte, ht, bind, Except.bind]
                | ok read =>
                    refine .inr ⟨.ok (string read.1, read.2), by simp, fun fuel => ?_⟩
                    simp only [decodeFuel, Opcode.ofByte?_byte, ht, bind, Except.bind]
              · cases hname : takeText code with
                | error e =>
                    refine .inr ⟨_, hfails (ne_of_takeText hname), fun fuel => ?_⟩
                    simp only [decodeFuel, Opcode.ofByte?_byte, hname, bind, Except.bind]
                | ok read =>
                    cases hargc : takeVarint read.2 with
                    | error e =>
                        refine .inr ⟨_, hfails (ne_of_takeVarint hargc), fun fuel => ?_⟩
                        simp only [decodeFuel, Opcode.ofByte?_byte, hname, hargc, bind, Except.bind]
                    | ok more =>
                        obtain ⟨bytes, rfl, hbytes⟩ := exists_of_takeText_eq_ok hname
                        obtain ⟨digits, hrest, hdigits⟩ := takeVarint_eq_ok_iff.mp hargc
                        refine .inl ⟨Opcode.syscall.byte :: (bytes ++ digits), .syscall, _, more.2,
                          ?_, .syscall hbytes hdigits⟩
                        rw [hrest, List.cons_append, List.append_assoc]
              · cases hname : takeText code with
                | error e =>
                    refine .inr ⟨_, hfails (ne_of_takeText hname), fun fuel => ?_⟩
                    simp only [decodeFuel, Opcode.ofByte?_byte, hname, bind, Except.bind]
                | ok read =>
                    cases hn : takeVarint read.2 with
                    | error e =>
                        refine .inr ⟨_, hfails (ne_of_takeVarint hn), fun fuel => ?_⟩
                        simp only [decodeFuel, Opcode.ofByte?_byte, hname, hn, bind, Except.bind]
                    | ok more =>
                        refine .inr ⟨.ok (enum read.1 (Varint.unfold more.1), more.2), by simp,
                          fun fuel => ?_⟩
                        simp only [decodeFuel, Opcode.ofByte?_byte, hname, hn, bind, Except.bind]

/-- What is read as an instruction is at least one byte long. -/
theorem exists_consumed {fuel : Nat} {code rest : Code} {i : Instr}
    (h : decodeFuel fuel code = .ok (i, rest)) :
    ∃ bytes, code = bytes ++ rest ∧ 0 < bytes.length := by
  obtain ⟨bytes, hcode, hwritten⟩ := exists_of_decodeFuel_eq_ok h
  exact ⟨bytes, hcode, hwritten.length_pos⟩

mutual

theorem decodeFuel_succ (fuel : Nat) (code : Code) (h : 2 * code.length ≤ fuel) :
    decodeFuel (fuel + 1) code = decodeFuel fuel code := by
  match fuel with
  | 0 =>
      obtain rfl : code = [] := List.length_eq_zero_iff.mp (by omega)
      simp only [decodeFuel]
  | fuel + 1 =>
      obtain ⟨head, op, n, rest, rfl, hhead⟩ | ⟨answer, -, hanswer⟩ := decodeFuel_cases code
      · have hpos := hhead.length_pos
        rw [List.length_append] at h
        by_cases hn : n ≤ maxCount
        · obtain ⟨wrap, hstep⟩ := exists_decodeFuel_eq hhead hn rest
          rw [hstep, hstep, decodeManyFuel_succ fuel n rest (by omega)]
        · rw [decodeFuel_of_lt hhead (Nat.not_le.mp hn), decodeFuel_of_lt hhead (Nat.not_le.mp hn)]
      · rw [hanswer, hanswer]

theorem decodeManyFuel_succ (fuel count : Nat) (code : Code) (h : 2 * code.length < fuel) :
    decodeManyFuel (fuel + 1) count code = decodeManyFuel fuel count code := by
  match fuel, count with
  | 0, _ => omega
  | fuel + 1, 0 => simp only [decodeManyFuel]
  | fuel + 1, count + 1 =>
      rw [decodeManyFuel, decodeManyFuel, decodeFuel_succ fuel code (by omega)]
      cases hread : decodeFuel fuel code with
      | error e => rfl
      | ok read =>
          obtain ⟨bytes, hcode, hpos⟩ := exists_consumed hread
          have hlength : code.length = bytes.length + read.2.length := by
            rw [hcode, List.length_append]
          simp only [bind, Except.bind, decodeManyFuel_succ fuel count read.2 (by omega)]

end

/-- No larger bound changes what is read. -/
theorem decodeFuel_eq_decode {fuel : Nat} {code : Code} (h : 2 * code.length ≤ fuel) :
    decodeFuel fuel code = decode code := by
  have hgrow : ∀ more, decodeFuel (2 * code.length + more) code =
      decodeFuel (2 * code.length) code := by
    intro more
    induction more with
    | zero => rfl
    | succ more ih => rw [← Nat.add_assoc, decodeFuel_succ _ _ (Nat.le_add_right ..), ih]
  rw [decode, hgrow 2, ← hgrow (fuel - 2 * code.length), Nat.add_sub_cancel' h]

/-! ## Where the reader breaks down -/

/-- An impossible head is fatal, also behind operands that can be read. -/
theorem decodeManyFuel_append_eq_error {body rest : Code} {is : List Instr} {e : DecodeError}
    (h : WrittenAll Opcode.Wrapping body is) {count : Nat} (hmore : is.length < count)
    (hrest : decode rest = .error e) (fuel : Nat) (hfuel : 2 * (body ++ rest).length < fuel) :
    decodeManyFuel fuel count (body ++ rest) = .error e := by
  induction is generalizing body count fuel with
  | nil =>
      cases h
      match fuel, count with
      | 0, _ => omega
      | _, 0 => simp at hmore
      | fuel + 1, count + 1 =>
          rw [List.nil_append] at hfuel ⊢
          rw [decodeManyFuel, decodeFuel_eq_decode (by omega), hrest]
          rfl
  | cons i others ih =>
      cases h with
      | @cons bytes more _ _ hfirst hothers =>
          have hpos := hfirst.length_pos
          match fuel, count with
          | 0, _ => omega
          | _, 0 => simp at hmore
          | fuel + 1, count + 1 =>
              simp only [List.length_append] at hfuel
              have hread : decodeFuel fuel (bytes ++ (more ++ rest)) = .ok (i, more ++ rest) := by
                apply hfirst.decodeFuel_append
                omega
              have herror := ih hothers (Nat.lt_of_succ_lt_succ hmore) fuel
                (by rw [List.length_append]; omega)
              simp only [List.append_assoc, decodeManyFuel, hread, herror, bind, Except.bind]

theorem Breaks.decode_eq {code : Code} (h : Breaks code) :
    decode code = .error .impossibleCount := by
  induction h with
  | @here head rest op n hhead himpossible =>
      rcases himpossible with hmany | ⟨rfl, rfl⟩
      · exact decodeFuel_of_lt hhead hmany _ rest
      · obtain ⟨wrap, hstep⟩ := exists_decodeFuel_eq hhead (Nat.zero_le _) rest
        rw [decode, hstep, decodeManyFuel]
        rfl
  | @inside head body rest op n is hhead hpossible hbody hmore hrest ih =>
      have hpos := hhead.length_pos
      obtain ⟨wrap, hstep⟩ := exists_decodeFuel_eq hhead hpossible (body ++ rest)
      have herror := decodeManyFuel_append_eq_error hbody hmore ih
        (2 * (head ++ (body ++ rest)).length + 1) (by simp only [List.length_append]; omega)
      rw [decode, hstep, herror]
      rfl

mutual

theorem breaks_of_decodeFuel {fuel : Nat} {code : Code}
    (h : decodeFuel fuel code = .error .impossibleCount) : Breaks code := by
  match fuel with
  | 0 => simp [decodeFuel] at h
  | fuel + 1 =>
      obtain ⟨head, op, n, rest, rfl, hhead⟩ | ⟨answer, hne, hanswer⟩ := decodeFuel_cases code
      · by_cases hn : n ≤ maxCount
        · obtain ⟨wrap, hstep⟩ := exists_decodeFuel_eq hhead hn rest
          rw [hstep] at h
          cases hread : decodeManyFuel fuel n rest with
          | error e =>
              rw [hread] at h
              cases h
              obtain ⟨body, is, more, rfl, hbody, hmore, hbreaks⟩ := breaks_of_decodeManyFuel hread
              exact .inside hhead hn hbody hmore hbreaks
          | ok read =>
              -- Only a function without a body is refused after its operands were read.
              obtain ⟨hlength, -⟩ := exists_of_decodeManyFuel_eq_ok hread
              simp only [hread, bind, Except.bind] at h
              split at h
              · rename_i hfunc
                simp only [Bool.and_eq_true, beq_iff_eq, List.isEmpty_iff] at hfunc
                rw [hfunc.2] at hlength
                exact .here hhead (.inr ⟨hfunc.1, hlength.symm⟩)
              · cases h
        · exact .here hhead (.inl (Nat.not_le.mp hn))
      · exact absurd ((hanswer fuel).symm.trans h) hne

theorem breaks_of_decodeManyFuel {fuel count : Nat} {code : Code}
    (h : decodeManyFuel fuel count code = .error .impossibleCount) :
    ∃ body is rest, code = body ++ rest ∧ WrittenAll Opcode.Wrapping body is ∧
      is.length < count ∧ Breaks rest := by
  match fuel, count with
  | _, 0 => simp [decodeManyFuel] at h
  | 0, count + 1 => simp [decodeManyFuel] at h
  | fuel + 1, count + 1 =>
      rw [decodeManyFuel] at h
      cases hread : decodeFuel fuel code with
      | error e =>
          rw [hread] at h
          cases h
          exact ⟨[], [], code, rfl, .nil, Nat.succ_pos count, breaks_of_decodeFuel hread⟩
      | ok read =>
          obtain ⟨i, others⟩ := read
          obtain ⟨bytes, rfl, hbytes⟩ := exists_of_decodeFuel_eq_ok hread
          cases hmany : decodeManyFuel fuel count others with
          | ok more => simp [hread, hmany, bind, Except.bind] at h
          | error e =>
              simp only [hread, hmany, bind, Except.bind, Except.error.injEq] at h
              subst h
              obtain ⟨body, is, rest, rfl, hbody, hmore, hbreaks⟩ := breaks_of_decodeManyFuel hmany
              exact ⟨bytes ++ body, i :: is, rest, by rw [List.append_assoc], .cons hbytes hbody,
                Nat.succ_lt_succ hmore, hbreaks⟩

end

end Instr

namespace Code

/-- Behind some instructions that can be read stands one with an impossible head. -/
def Breaks (code : Code) : Prop :=
  ∃ body is rest, code = body ++ rest ∧ Instr.WrittenAll Opcode.Wrapping body is ∧
    Instr.Breaks rest

theorem instrsFrom_of_decode {code rest : Code} {i : Instr} (h : Instr.decode code = .ok (i, rest))
    (fuel offset : Nat) :
    instrsFrom (fuel + 1) offset code =
      (instrsFrom fuel (offset + (code.length - rest.length)) rest).map (i :: ·) := by
  have hne : code ≠ [] := by
    rintro rfl
    cases h
  rw [instrsFrom.eq_3 _ _ _ hne, h]
  simp only [Except.mapError, bind, Except.bind]
  cases instrsFrom fuel (offset + (code.length - rest.length)) rest <;> rfl

theorem instrsFrom_of_decode_eq_error {code : Code} {e : DecodeError} (hne : code ≠ [])
    (h : Instr.decode code = .error e) (fuel offset : Nat) :
    instrsFrom (fuel + 1) offset code = .error (offset, e) := by
  rw [instrsFrom.eq_3 _ _ _ hne, h]
  rfl

theorem instrsFrom_succ (fuel offset : Nat) (code : Code) (h : code.length ≤ fuel) :
    instrsFrom (fuel + 1) offset code = instrsFrom fuel offset code := by
  induction fuel generalizing offset code with
  | zero =>
      obtain rfl : code = [] := List.length_eq_zero_iff.mp (Nat.le_zero.mp h)
      simp only [instrsFrom]
  | succ fuel ih =>
      by_cases hne : code = []
      · rw [hne]
        simp only [instrsFrom]
      · cases hread : Instr.decode code with
        | error e =>
            rw [instrsFrom_of_decode_eq_error hne hread, instrsFrom_of_decode_eq_error hne hread]
        | ok read =>
            obtain ⟨bytes, hcode, hpos⟩ := Instr.exists_consumed hread
            have hlength : code.length = bytes.length + read.2.length := by
              rw [hcode, List.length_append]
            rw [instrsFrom_of_decode hread, instrsFrom_of_decode hread, ih _ _ (by omega)]

/-- No larger bound changes the instructions. -/
theorem instrsFrom_eq_instrs {fuel : Nat} {code : Code} (h : code.length ≤ fuel) :
    instrsFrom fuel 0 code = instrs code := by
  obtain ⟨more, rfl⟩ := Nat.exists_eq_add_of_le h
  induction more with
  | zero => rfl
  | succ more ih =>
      rw [← Nat.add_assoc, instrsFrom_succ _ _ _ (Nat.le_add_right ..), ih (Nat.le_add_right ..)]

theorem instrsFrom_of_breaks {body rest : Code} {is : List Instr}
    (hbody : Instr.WrittenAll Opcode.Wrapping body is) (hrest : Instr.Breaks rest)
    (fuel offset : Nat) (hfuel : (body ++ rest).length ≤ fuel) :
    ∃ offset', instrsFrom fuel offset (body ++ rest) = .error (offset', .impossibleCount) := by
  have hdecode := hrest.decode_eq
  have hne : rest ≠ [] := by
    rintro rfl
    cases hdecode
  have hpos := List.length_pos_iff.mpr hne
  induction is generalizing body fuel offset with
  | nil =>
      cases hbody
      obtain ⟨fuel, rfl⟩ : ∃ f, fuel = f + 1 := Nat.exists_eq_add_one.mpr (hpos.trans_le hfuel)
      exact ⟨offset, instrsFrom_of_decode_eq_error hne hdecode fuel offset⟩
  | cons i others ih =>
      cases hbody with
      | @cons bytes more _ _ hfirst hothers =>
          have hlength := hfirst.length_pos
          rw [List.append_assoc, List.length_append] at hfuel
          obtain ⟨fuel, rfl⟩ : ∃ f, fuel = f + 1 := Nat.exists_eq_add_one.mpr (by omega)
          obtain ⟨offset', herror⟩ := ih hothers fuel
            (offset + ((bytes ++ (more ++ rest)).length - (more ++ rest).length)) (by omega)
          refine ⟨offset', ?_⟩
          rw [List.append_assoc, instrsFrom_of_decode (hfirst.decode_append (more ++ rest)), herror]
          rfl

theorem breaks_of_instrsFrom {fuel offset offset' : Nat} {code : Code}
    (h : instrsFrom fuel offset code = .error (offset', .impossibleCount)) : code.Breaks := by
  induction fuel generalizing offset code with
  | zero => cases code <;> simp [instrsFrom] at h
  | succ fuel ih =>
      have hne : code ≠ [] := by
        rintro rfl
        simp [instrsFrom] at h
      cases hread : Instr.decode code with
      | error e =>
          rw [instrsFrom_of_decode_eq_error hne hread] at h
          cases h
          exact ⟨[], [], code, rfl, .nil, Instr.breaks_of_decodeFuel hread⟩
      | ok read =>
          obtain ⟨i, others⟩ := read
          obtain ⟨bytes, rfl, hbytes⟩ := Instr.exists_of_decodeFuel_eq_ok hread
          rw [instrsFrom_of_decode hread] at h
          cases hmore : instrsFrom fuel (offset + ((bytes ++ others).length - others.length))
              others with
          | ok is =>
              rw [hmore] at h
              cases h
          | error fault =>
              rw [hmore] at h
              cases h
              obtain ⟨body, is, rest, rfl, hbody, hbreaks⟩ := ih hmore
              exact ⟨bytes ++ body, i :: is, rest, by rw [List.append_assoc], .cons hbytes hbody,
                hbreaks⟩

theorem exists_instrs_eq_error_iff {code : Code} :
    (∃ offset, instrs code = .error (offset, .impossibleCount)) ↔ code.Breaks := by
  constructor
  · rintro ⟨offset, h⟩
    exact breaks_of_instrsFrom h
  · rintro ⟨body, is, rest, rfl, hbody, hrest⟩
    exact instrsFrom_of_breaks hbody hrest _ 0 (Nat.le_refl _)

/-- Reading breaks down just where a head is impossible, if there is always room for a list
that is no longer than `Instr.maxCount` and for the recursion; running out of memory or of
stack below that limit is not modelled.  Everywhere else reading ends with a listing or a
fault of the code: each instruction that is read takes at least one byte and no more than
there are, and no larger bound on the recursion changes anything. -/
theorem disassemble_breaks_iff (code : Code) :
    ((∃ offset, disassemble code = .error (offset, .impossibleCount)) ↔ code.Breaks) ∧
    (∀ fuel i rest, Instr.decodeFuel fuel code = .ok (i, rest) →
      ∃ bytes, code = bytes ++ rest ∧ 0 < bytes.length) ∧
    (∀ fuel, 2 * code.length ≤ fuel → Instr.decodeFuel fuel code = Instr.decode code) ∧
    ∀ fuel, code.length ≤ fuel → instrsFrom fuel 0 code = instrs code := by
  refine ⟨?_, fun _ _ _ => Instr.exists_consumed, fun _ => Instr.decodeFuel_eq_decode,
    fun _ => instrsFrom_eq_instrs⟩
  rw [← exists_instrs_eq_error_iff, disassemble]
  cases instrs code with
  | ok is => simp [Except.map]
  | error fault => simp [Except.map]

/-- A block that announces `2 ^ 64 - 1` statements and has none. -/
def endlessBlock : Code := [15, 255, 255, 255, 255, 255, 255, 255, 255, 255, 1]

theorem disassemble_endlessBlock :
    disassemble endlessBlock = .error (0, .impossibleCount) := by
  rfl

def brokenReturn : Code := Opcode.nil.byte :: Opcode.return_.byte :: endlessBlock

theorem disassemble_breaks_sample :
    brokenReturn.Breaks ∧
      (∃ bytes, brokenReturn = bytes ++ brokenReturn.tail ∧ 0 < bytes.length) ∧
      instrsFrom 100 0 brokenReturn = instrs brokenReturn := by
  obtain ⟨hbreaks, hconsumed, -, hbound⟩ := disassemble_breaks_iff brokenReturn
  exact ⟨hbreaks.mp ⟨1, rfl⟩, hconsumed 1 .nil brokenReturn.tail rfl, hbound 100 (by decide)⟩

end Code

end Splice

import Mathlib.Tactic.Ring
import Splice.Code.Decode
import Splice.Proofs.Action

/-!
# The format of program code

The bytes of an instruction are described without a reader: a number may be spelled
with more bytes than it needs, and the operands of an operation are so many as its
count announces.  What a count announces is a parameter.  `Exactly` takes counts at
their word, `Wrapping` as the reader does, on signed numbers of 64 bits.  The reader
accepts the format for wrapping counts and nothing else, and the two formats differ
for two kinds of huge counts only.
-/

namespace Splice

namespace Varint

/-- The number that the low seven bits of some bytes make up, the lowest first. -/
def value : Code → Nat
  | [] => 0
  | b :: rest => b.toNat % 128 + 128 * value rest

def isDelimited : Code → Bool
  | [] => false
  | [b] => b < 128
  | b :: rest => 128 ≤ b && isDelimited rest

/-- Some bytes are a number, not always in its shortest form. -/
structure Spells (bytes : Code) (n : UInt64) : Prop where
  delimited : isDelimited bytes = true
  short : bytes.length ≤ 10
  value_eq : value bytes = n.toNat

theorem toNat_toUInt64 {n : Nat} (h : n < 2 ^ 64) : n.toUInt64.toNat = n := by
  simpa using h

theorem isDelimited_cons {b : UInt8} {rest : Code} (h : rest ≠ []) :
    isDelimited (b :: rest) = (decide (128 ≤ b) && isDelimited rest) := by
  cases rest with
  | nil => exact absurd rfl h
  | cons c rest => rfl

theorem ne_nil_of_isDelimited {bytes : Code} (h : isDelimited bytes = true) : bytes ≠ [] := by
  cases bytes with
  | nil => simp [isDelimited] at h
  | cons b rest => simp

/-- A number is read off a spelling of it that is not too long. -/
theorem decodeFrom_append (more : Nat) {bytes : Code} (rest : Code)
    (hdelimited : isDelimited bytes = true) (hshort : bytes.length ≤ more + 1)
    (hvalue : value bytes < 2 * 128 ^ more) :
    decodeFrom more (bytes ++ rest) = .ok (value bytes, rest) := by
  induction more generalizing bytes with
  | zero =>
      match bytes with
      | [] => simp [isDelimited] at hdelimited
      | [b] =>
          simp only [isDelimited, decide_eq_true_eq, UInt8.lt_iff_toNat_lt] at hdelimited
          simp only [value, Nat.mul_zero, Nat.add_zero, Nat.pow_zero, Nat.mul_one] at hvalue
          have hmod : b.toNat % 128 = b.toNat := Nat.mod_eq_of_lt hdelimited
          have hlt : b < 2 := by
            rw [UInt8.lt_iff_toNat_lt]
            rw [hmod] at hvalue
            exact hvalue
          simp [decodeFrom, value, hlt, hmod]
      | _ :: _ :: _ => simp at hshort
  | succ more ih =>
      match bytes with
      | [] => simp [isDelimited] at hdelimited
      | [b] =>
          simp only [isDelimited, decide_eq_true_eq] at hdelimited
          have hmod : b.toNat % 128 = b.toNat :=
            Nat.mod_eq_of_lt (UInt8.lt_iff_toNat_lt.mp hdelimited)
          simp [decodeFrom, value, hdelimited, hmod]
      | b :: c :: bytes =>
          rw [isDelimited_cons (by simp), Bool.and_eq_true, decide_eq_true_eq] at hdelimited
          have hhigh : 128 ≤ b.toNat := UInt8.le_iff_toNat_le.mp hdelimited.1
          have hbyte := b.toNat_lt
          have hsplit : value (b :: c :: bytes) = b.toNat - 128 + 128 * value (c :: bytes) := by
            rw [value]
            omega
          have hrest : value (c :: bytes) < 2 * 128 ^ more := by
            rw [Nat.pow_succ] at hvalue
            omega
          have hothers := ih hdelimited.2 (by simpa using hshort) hrest
          have hlow : ¬b < 128 := by
            rw [UInt8.lt_iff_toNat_lt]
            exact Nat.not_lt.mpr hhigh
          rw [List.cons_append, decodeFrom, if_neg hlow, hothers, hsplit]

/-- What is read as a number is a spelling of it. -/
theorem exists_of_decodeFrom_eq_ok {more : Nat} {code rest : Code} {n : Nat}
    (h : decodeFrom more code = .ok (n, rest)) :
    ∃ bytes, code = bytes ++ rest ∧ isDelimited bytes = true ∧ bytes.length ≤ more + 1 ∧
      value bytes = n ∧ n < 2 * 128 ^ more := by
  induction more generalizing code n with
  | zero =>
      cases code with
      | nil => simp [decodeFrom] at h
      | cons b code =>
          rw [decodeFrom] at h
          split at h
          · rename_i hlt
            have hbyte : b.toNat < 2 := UInt8.lt_iff_toNat_lt.mp hlt
            simp only [Except.ok.injEq, Prod.mk.injEq] at h
            obtain ⟨rfl, rfl⟩ := h
            have hlow : b < 128 := UInt8.lt_iff_toNat_lt.mpr (Nat.lt_trans hbyte (by decide))
            refine ⟨[b], rfl, by simpa [isDelimited] using hlow, by simp, ?_, by simpa using hbyte⟩
            simp only [value, Nat.mul_zero, Nat.add_zero]
            omega
          · simp at h
  | succ more ih =>
      cases code with
      | nil => simp [decodeFrom] at h
      | cons b code =>
          have hpos : 0 < 128 ^ more := Nat.pow_pos (by decide)
          rw [decodeFrom] at h
          split at h
          · rename_i hlt
            have hbyte : b.toNat < 128 := UInt8.lt_iff_toNat_lt.mp hlt
            simp only [Except.ok.injEq, Prod.mk.injEq] at h
            obtain ⟨rfl, rfl⟩ := h
            refine ⟨[b], rfl, by simpa [isDelimited] using hlt, by simp, ?_, ?_⟩
            · simp only [value, Nat.mul_zero, Nat.add_zero]
              omega
            · rw [Nat.pow_succ]
              omega
          · rename_i hlow
            have hbyte := b.toNat_lt
            have hhigh : 128 ≤ b.toNat :=
              Nat.not_lt.mp fun hlt => hlow (UInt8.lt_iff_toNat_lt.mpr hlt)
            split at h
            · rename_i m others hothers
              simp only [Except.ok.injEq, Prod.mk.injEq] at h
              obtain ⟨rfl, rfl⟩ := h
              obtain ⟨bytes, rfl, hdelimited, hshort, hvalue, hm⟩ := ih hothers
              refine ⟨b :: bytes, rfl, ?_, by simpa using hshort, ?_, ?_⟩
              · rw [isDelimited_cons (ne_nil_of_isDelimited hdelimited), hdelimited]
                have hle : 128 ≤ b := UInt8.le_iff_toNat_le.mpr hhigh
                simpa using hle
              · rw [value, hvalue]
                omega
              · rw [Nat.pow_succ]
                omega
            · simp at h

theorem decode_eq_ok_iff {code rest : Code} {n : UInt64} :
    decode code = .ok (n, rest) ↔ ∃ bytes, code = bytes ++ rest ∧ Spells bytes n := by
  constructor
  · intro h
    rw [decode] at h
    cases hread : decodeFrom 9 code with
    | error e => simp [hread, Except.map] at h
    | ok read =>
        obtain ⟨m, others⟩ := read
        simp only [hread, Except.map, Except.ok.injEq, Prod.mk.injEq] at h
        obtain ⟨rfl, rfl⟩ := h
        obtain ⟨bytes, hcode, hdelimited, hshort, hvalue, hm⟩ := exists_of_decodeFrom_eq_ok hread
        exact ⟨bytes, hcode, hdelimited, hshort, by rw [hvalue, toNat_toUInt64 (by omega)]⟩
  · rintro ⟨bytes, rfl, h⟩
    have hlt := n.toNat_lt
    rw [decode, decodeFrom_append 9 rest h.delimited h.short (by rw [h.value_eq]; omega),
      h.value_eq]
    simp [Except.map]

end Varint

namespace Instr

/-- Some bytes are a text with its length in front. -/
def SpellsText (bytes : Code) (t : Text) : Prop :=
  ∃ head n, Varint.Spells head n ∧ n.toNat = t.length ∧ bytes = head ++ t

theorem takeVarint_eq_ok_iff {code rest : Code} {n : UInt64} :
    takeVarint code = .ok (n, rest) ↔ ∃ bytes, code = bytes ++ rest ∧ Varint.Spells bytes n := by
  rw [← Varint.decode_eq_ok_iff, takeVarint, mapError_eq_ok_iff]

theorem takeVarint_append {bytes : Code} {n : UInt64} (h : Varint.Spells bytes n) (rest : Code) :
    takeVarint (bytes ++ rest) = .ok (n, rest) :=
  takeVarint_eq_ok_iff.mpr ⟨bytes, rfl, h⟩

theorem takeText_append {bytes : Code} {t : Text} (h : SpellsText bytes t) (rest : Code) :
    takeText (bytes ++ rest) = .ok (t, rest) := by
  obtain ⟨head, n, hhead, hn, rfl⟩ := h
  have hlength : ¬(t ++ rest).length < t.length := by simp
  rw [takeText, List.append_assoc, takeVarint_append hhead]
  simp only [bind, Except.bind, hn, if_neg hlength, List.take_left, List.drop_left]

theorem exists_of_takeText_eq_ok {code rest : Code} {t : Text}
    (h : takeText code = .ok (t, rest)) : ∃ bytes, code = bytes ++ rest ∧ SpellsText bytes t := by
  rw [takeText] at h
  cases hhead : takeVarint code with
  | error e => simp [hhead, bind, Except.bind] at h
  | ok read =>
      obtain ⟨n, others⟩ := read
      simp only [hhead, bind, Except.bind] at h
      split at h
      · simp at h
      · rename_i henough
        simp only [Except.ok.injEq, Prod.mk.injEq] at h
        obtain ⟨rfl, rfl⟩ := h
        obtain ⟨bytes, rfl, hbytes⟩ := takeVarint_eq_ok_iff.mp hhead
        refine ⟨bytes ++ others.take n.toNat, ?_, bytes, n, hbytes, ?_, rfl⟩
        · rw [List.append_assoc, List.take_append_drop]
        · rw [List.length_take]
          omega

end Instr

namespace Opcode

/-- The number of operands that a count announces: a call has a callee and a function
a body besides, and an object a key and a value for each. -/
def announced : Opcode → (count : Nat) → Nat
  | call, count => count + 1
  | func, count => count + 1
  | object, count => 2 * count
  | _, count => count

/-- As many operands as the count announces. -/
def Exactly (op : Opcode) (count : UInt64) (operands : Nat) : Prop :=
  operands = op.announced count.toNat

/-- As many operands as the count announces, reckoned with 64 bits, unless they are more
than any list has or a function is left without a body. -/
structure Wrapping (op : Opcode) (count : UInt64) (operands : Nat) : Prop where
  wrapped : op.announced count.toNat % 2 ^ 64 = operands
  possible : operands ≤ Instr.maxCount
  body : op = func → operands ≠ 0

theorem ofByte?_byte (op : Opcode) : ofByte? op.byte = some op := by
  cases op <;> rfl

theorem byte_injective : Function.Injective byte := by
  intro a b h
  have hread : ofByte? a.byte = ofByte? b.byte := by rw [h]
  rw [ofByte?_byte, ofByte?_byte] at hread
  exact Option.some.inj hread

theorem eq_byte_of_ofByte? {b : UInt8} {op : Opcode} (h : ofByte? b = some op) :
    b = op.byte := by
  have hfound := List.find?_some h
  exact (beq_iff_eq.mp hfound).symm

theorem eq_of_payload {op : Opcode} (h : op.shape = .payload) :
    op = number ∨ op = string ∨ op = syscall ∨ op = enum := by
  cases op <;> cases h <;> simp

theorem announced_of_counted {op : Opcode} {scale extra : Nat} (h : op.shape = .counted scale extra)
    (count : Nat) : op.announced count = scale * count + extra := by
  cases op <;> cases h <;> simp [announced]

end Opcode

namespace Instr

/-- Counts are reckoned with wrap-around on signed numbers, so that only a remainder of
at most `maxCount` is left to be taken. -/
theorem operandCount_eq_ok_iff {scale extra : Nat} {count : UInt64} {n : Nat} :
    operandCount scale extra count = .ok n ↔
      (scale * count.toNat + extra) % 2 ^ 64 = n ∧ n ≤ maxCount := by
  have hitems : count.toInt64 * Int64.ofNat scale + Int64.ofNat extra =
      Int64.ofNat (scale * count.toNat + extra) := by
    have hcount : count.toInt64 = Int64.ofNat count.toNat := by
      rw [← UInt64.toInt64_ofNat', UInt64.ofNat_toNat]
    rw [Nat.mul_comm scale, Int64.ofNat_add, Int64.ofNat_mul, hcount]
  have hmax : maxCount < 2 ^ 63 := by decide
  generalize scale * count.toNat + extra = total at hitems
  have htoInt : (Int64.ofNat total).toInt = (total : Int).bmod (2 ^ 64) := Int64.toInt_ofNat'
  have hlow : ((total % 2 ^ 64 : Nat) : Int) < 2 ^ 63 ∧
        (Int64.ofNat total).toInt = (total % 2 ^ 64 : Nat) ∨
      (Int64.ofNat total).toInt < 0 ∧ 2 ^ 63 ≤ total % 2 ^ 64 := by
    rw [htoInt, Int.bmod_def]
    split <;> omega
  have hnegative : Int64.ofNat total < 0 ↔ (Int64.ofNat total).toInt < 0 := by
    rw [Int64.lt_iff_toInt_lt]
    rfl
  simp only [operandCount, hitems, Bool.or_eq_true, decide_eq_true_eq, hnegative]
  rcases hlow with ⟨hsmall, heq⟩ | ⟨hneg, hlarge⟩
  · rw [heq, Int.toNat_natCast]
    have hnonneg : ¬((total % 2 ^ 64 : Nat) : Int) < 0 := Int.not_lt.mpr (Int.natCast_nonneg _)
    by_cases hfits : maxCount < total % 2 ^ 64
    · rw [if_pos (Or.inr hfits)]
      simp only [reduceCtorEq, false_iff, not_and]
      omega
    · rw [if_neg (not_or.mpr ⟨hnonneg, hfits⟩)]
      simp only [Except.ok.injEq]
      omega
  · rw [if_pos (Or.inl hneg)]
    simp only [reduceCtorEq, false_iff, not_and]
    omega

mutual

/-- Some bytes are an instruction with its operands, where `Takes` says how many operands
a count stands for. -/
inductive Written (Takes : Opcode → UInt64 → Nat → Prop) : Code → Instr → Prop
  | number {bytes : Code} {n : UInt64} (h : Varint.Spells bytes n) :
      Written Takes (Opcode.number.byte :: bytes) (number (Varint.unfold n))
  | string {bytes : Code} {t : Text} (h : SpellsText bytes t) :
      Written Takes (Opcode.string.byte :: bytes) (string t)
  | enum {bytes digits : Code} {name : Text} {n : UInt64} (hname : SpellsText bytes name)
      (hvalue : Varint.Spells digits n) :
      Written Takes (Opcode.enum.byte :: (bytes ++ digits)) (enum name (Varint.unfold n))
  | syscall {bytes digits body : Code} {name : Text} {argc : UInt64} {args : List Instr}
      (hname : SpellsText bytes name) (hargc : Varint.Spells digits argc)
      (hcount : Takes .syscall argc args.length) (hargs : WrittenAll Takes body args) :
      Written Takes (Opcode.syscall.byte :: (bytes ++ (digits ++ body))) (syscall name args)
  | fixed {op : Opcode} {body : Code} {operands : List Instr}
      (hop : op.shape = .fixed operands.length) (hoperands : WrittenAll Takes body operands) :
      Written Takes (op.byte :: body) (node op operands)
  | counted {op : Opcode} {scale extra : Nat} {digits body : Code} {count : UInt64}
      {operands : List Instr} (hop : op.shape = .counted scale extra)
      (hdigits : Varint.Spells digits count) (hcount : Takes op count operands.length)
      (hoperands : WrittenAll Takes body operands) :
      Written Takes (op.byte :: (digits ++ body)) (node op operands)

inductive WrittenAll (Takes : Opcode → UInt64 → Nat → Prop) : Code → List Instr → Prop
  | nil : WrittenAll Takes [] []
  | cons {bytes others : Code} {i : Instr} {is : List Instr} (hfirst : Written Takes bytes i)
      (hothers : WrittenAll Takes others is) : WrittenAll Takes (bytes ++ others) (i :: is)

end

section

variable {Takes : Opcode → UInt64 → Nat → Prop}

theorem Written.length_pos {bytes : Code} {i : Instr} (h : Written Takes bytes i) :
    0 < bytes.length := by
  cases h <;> simp

theorem WrittenAll.length_le {bytes : Code} {is : List Instr} (h : WrittenAll Takes bytes is) :
    is.length ≤ bytes.length := by
  induction is generalizing bytes with
  | nil => simp
  | cons i others ih =>
      cases h with
      | cons hfirst hothers =>
          have hpos := hfirst.length_pos
          have hle := ih hothers
          simp only [List.length_cons, List.length_append]
          omega

end

theorem decodeFuel_fixed {op : Opcode} {n : Nat} (hop : op.shape = .fixed n) (fuel : Nat)
    (code : Code) :
    decodeFuel (fuel + 1) (op.byte :: code) = (do
      let (operands, rest) ← decodeManyFuel fuel n code
      .ok (node op operands, rest)) := by
  cases op <;> cases hop <;> simp only [decodeFuel, Opcode.ofByte?_byte, Opcode.shape]

theorem decodeFuel_counted {op : Opcode} {scale extra : Nat} (hop : op.shape = .counted scale extra)
    (fuel : Nat) (code : Code) :
    decodeFuel (fuel + 1) (op.byte :: code) = (do
      let (announced, rest) ← takeVarint code
      let count ← operandCount scale extra announced
      let (operands, rest) ← decodeManyFuel fuel count rest
      if op == .func && operands.isEmpty then .error .impossibleCount
      else .ok (node op operands, rest)) := by
  cases op <;> cases hop <;> simp only [decodeFuel, Opcode.ofByte?_byte, Opcode.shape]

/-! ## The reader accepts the format -/

mutual

theorem Written.decodeFuel_append {bytes : Code} {i : Instr} (h : Written Opcode.Wrapping bytes i)
    (fuel : Nat) (rest : Code) (hfuel : 2 * bytes.length ≤ fuel + 1) :
    decodeFuel fuel (bytes ++ rest) = .ok (i, rest) := by
  have hpos := h.length_pos
  cases fuel with
  | zero => omega
  | succ fuel =>
      cases h with
      | number hn =>
          simp only [List.cons_append, decodeFuel, Opcode.ofByte?_byte, takeVarint_append hn, bind,
            Except.bind]
      | string ht =>
          simp only [List.cons_append, decodeFuel, Opcode.ofByte?_byte, takeText_append ht, bind,
            Except.bind]
      | enum hname hvalue =>
          simp only [List.cons_append, List.append_assoc, decodeFuel, Opcode.ofByte?_byte,
            takeText_append hname, takeVarint_append hvalue, bind, Except.bind]
      | @syscall _ _ _ _ argc args hname hargc hcount hargs =>
          simp only [List.length_cons, List.length_append] at hfuel
          have htaken : operandCount 1 0 argc = .ok args.length :=
            operandCount_eq_ok_iff.mpr
              ⟨by simpa [Opcode.announced] using hcount.wrapped, hcount.possible⟩
          have hread := hargs.decodeManyFuel_append fuel rest (by omega)
          simp only [List.cons_append, List.append_assoc, decodeFuel, Opcode.ofByte?_byte,
            takeText_append hname, takeVarint_append hargc, htaken, hread, bind, Except.bind]
      | fixed hop hoperands =>
          simp only [List.length_cons] at hfuel
          have hread := hoperands.decodeManyFuel_append fuel rest (by omega)
          simp only [List.cons_append, decodeFuel_fixed hop, hread, bind, Except.bind]
      | @counted op scale extra _ _ count operands hop hdigits hcount hoperands =>
          simp only [List.length_cons, List.length_append] at hfuel
          have htaken : operandCount scale extra count = .ok operands.length :=
            operandCount_eq_ok_iff.mpr
              ⟨by rw [← Opcode.announced_of_counted hop]; exact hcount.wrapped, hcount.possible⟩
          have hread := hoperands.decodeManyFuel_append fuel rest (by omega)
          have hbody : (op == .func && operands.isEmpty) = false := by
            by_cases hfunc : op = .func
            · have hne := hcount.body hfunc
              cases operands with
              | nil => exact absurd rfl hne
              | cons first others => simp
            · simp [hfunc]
          simp only [List.cons_append, List.append_assoc, decodeFuel_counted hop,
            takeVarint_append hdigits, htaken, hread, bind, Except.bind, hbody,
            Bool.false_eq_true, if_false]

theorem WrittenAll.decodeManyFuel_append {bytes : Code} {is : List Instr}
    (h : WrittenAll Opcode.Wrapping bytes is) (fuel : Nat) (rest : Code)
    (hfuel : 2 * bytes.length ≤ fuel) :
    decodeManyFuel fuel is.length (bytes ++ rest) = .ok (is, rest) := by
  cases h with
  | nil => simp [decodeManyFuel]
  | @cons _ others _ _ hfirst hothers =>
      have hpos := hfirst.length_pos
      simp only [List.length_append] at hfuel
      cases fuel with
      | zero => omega
      | succ fuel =>
          have hread := hfirst.decodeFuel_append fuel (others ++ rest) (by omega)
          have hmore := hothers.decodeManyFuel_append fuel rest (by omega)
          simp only [List.length_cons, List.append_assoc, decodeManyFuel, hread, hmore, bind,
            Except.bind]

end

theorem exists_of_bind_eq_ok {ε α β : Type} {x : Except ε α} {f : α → Except ε β} {b : β}
    (h : (x >>= f) = .ok b) : ∃ a, x = .ok a ∧ f a = .ok b := by
  cases x with
  | error e => simp [bind, Except.bind] at h
  | ok a => exact ⟨a, rfl, h⟩

mutual

theorem exists_of_decodeFuel_eq_ok {fuel : Nat} {code rest : Code} {i : Instr}
    (h : decodeFuel fuel code = .ok (i, rest)) :
    ∃ bytes, code = bytes ++ rest ∧ Written Opcode.Wrapping bytes i := by
  match fuel, code with
  | 0, _ => simp [decodeFuel] at h
  | fuel + 1, [] => simp [decodeFuel] at h
  | fuel + 1, b :: code =>
      cases hop : Opcode.ofByte? b with
      | none => simp [decodeFuel, hop] at h
      | some op =>
          obtain rfl := Opcode.eq_byte_of_ofByte? hop
          cases hshape : op.shape with
          | fixed n =>
              rw [decodeFuel_fixed hshape] at h
              obtain ⟨⟨operands, others⟩, hoperands, h⟩ := exists_of_bind_eq_ok h
              simp only [Except.ok.injEq, Prod.mk.injEq] at h
              obtain ⟨rfl, rfl⟩ := h
              obtain ⟨rfl, body, rfl, hbody⟩ := exists_of_decodeManyFuel_eq_ok hoperands
              exact ⟨op.byte :: body, rfl, .fixed hshape hbody⟩
          | counted scale extra =>
              rw [decodeFuel_counted hshape] at h
              obtain ⟨⟨count, others⟩, hdigits, h⟩ := exists_of_bind_eq_ok h
              obtain ⟨n, hcount, h⟩ := exists_of_bind_eq_ok h
              obtain ⟨⟨operands, last⟩, hoperands, h⟩ := exists_of_bind_eq_ok h
              dsimp only at h
              split at h
              · simp at h
              · rename_i hnonempty
                simp only [Except.ok.injEq, Prod.mk.injEq] at h
                obtain ⟨rfl, rfl⟩ := h
                obtain ⟨digits, rfl, hspelled⟩ := takeVarint_eq_ok_iff.mp hdigits
                obtain ⟨rfl, body, rfl, hbody⟩ := exists_of_decodeManyFuel_eq_ok hoperands
                obtain ⟨hwrapped, hpossible⟩ := operandCount_eq_ok_iff.mp hcount
                refine ⟨op.byte :: (digits ++ body), by simp,
                  .counted hshape hspelled ⟨?_, hpossible, ?_⟩ hbody⟩
                · rw [Opcode.announced_of_counted hshape]
                  exact hwrapped
                · rintro rfl hempty
                  simp [List.length_eq_zero_iff.mp hempty] at hnonempty
          | payload =>
              obtain rfl | rfl | rfl | rfl := Opcode.eq_of_payload hshape
              · simp only [decodeFuel, Opcode.ofByte?_byte] at h
                obtain ⟨⟨n, others⟩, hdigits, h⟩ := exists_of_bind_eq_ok h
                simp only [Except.ok.injEq, Prod.mk.injEq] at h
                obtain ⟨rfl, rfl⟩ := h
                obtain ⟨digits, rfl, hspelled⟩ := takeVarint_eq_ok_iff.mp hdigits
                exact ⟨Opcode.number.byte :: digits, rfl, .number hspelled⟩
              · simp only [decodeFuel, Opcode.ofByte?_byte] at h
                obtain ⟨⟨t, others⟩, htext, h⟩ := exists_of_bind_eq_ok h
                simp only [Except.ok.injEq, Prod.mk.injEq] at h
                obtain ⟨rfl, rfl⟩ := h
                obtain ⟨bytes, rfl, hbytes⟩ := exists_of_takeText_eq_ok htext
                exact ⟨Opcode.string.byte :: bytes, rfl, .string hbytes⟩
              · simp only [decodeFuel, Opcode.ofByte?_byte] at h
                obtain ⟨⟨name, others⟩, hname, h⟩ := exists_of_bind_eq_ok h
                obtain ⟨⟨argc, more⟩, hargc, h⟩ := exists_of_bind_eq_ok h
                obtain ⟨n, hcount, h⟩ := exists_of_bind_eq_ok h
                obtain ⟨⟨args, last⟩, hargs, h⟩ := exists_of_bind_eq_ok h
                simp only [Except.ok.injEq, Prod.mk.injEq] at h
                obtain ⟨rfl, rfl⟩ := h
                obtain ⟨bytes, rfl, hbytes⟩ := exists_of_takeText_eq_ok hname
                obtain ⟨digits, rfl, hdigits⟩ := takeVarint_eq_ok_iff.mp hargc
                obtain ⟨rfl, body, rfl, hbody⟩ := exists_of_decodeManyFuel_eq_ok hargs
                obtain ⟨hwrapped, hpossible⟩ := operandCount_eq_ok_iff.mp hcount
                refine ⟨Opcode.syscall.byte :: (bytes ++ (digits ++ body)), by simp,
                  .syscall hbytes hdigits ⟨?_, hpossible, by simp⟩ hbody⟩
                simpa [Opcode.announced] using hwrapped
              · simp only [decodeFuel, Opcode.ofByte?_byte] at h
                obtain ⟨⟨name, others⟩, hname, h⟩ := exists_of_bind_eq_ok h
                obtain ⟨⟨n, last⟩, hvalue, h⟩ := exists_of_bind_eq_ok h
                simp only [Except.ok.injEq, Prod.mk.injEq] at h
                obtain ⟨rfl, rfl⟩ := h
                obtain ⟨bytes, rfl, hbytes⟩ := exists_of_takeText_eq_ok hname
                obtain ⟨digits, rfl, hdigits⟩ := takeVarint_eq_ok_iff.mp hvalue
                exact ⟨Opcode.enum.byte :: (bytes ++ digits), by simp, .enum hbytes hdigits⟩

theorem exists_of_decodeManyFuel_eq_ok {fuel count : Nat} {code rest : Code} {is : List Instr}
    (h : decodeManyFuel fuel count code = .ok (is, rest)) :
    is.length = count ∧ ∃ bytes, code = bytes ++ rest ∧ WrittenAll Opcode.Wrapping bytes is := by
  match fuel, count with
  | _, 0 =>
      simp only [decodeManyFuel, Except.ok.injEq, Prod.mk.injEq] at h
      obtain ⟨rfl, rfl⟩ := h
      exact ⟨rfl, [], rfl, .nil⟩
  | 0, count + 1 => simp [decodeManyFuel] at h
  | fuel + 1, count + 1 =>
      rw [decodeManyFuel] at h
      obtain ⟨⟨first, others⟩, hfirst, h⟩ := exists_of_bind_eq_ok h
      obtain ⟨⟨more, last⟩, hmore, h⟩ := exists_of_bind_eq_ok h
      simp only [Except.ok.injEq, Prod.mk.injEq] at h
      obtain ⟨rfl, rfl⟩ := h
      obtain ⟨bytes, rfl, hbytes⟩ := exists_of_decodeFuel_eq_ok hfirst
      obtain ⟨rfl, tail, rfl, htail⟩ := exists_of_decodeManyFuel_eq_ok hmore
      exact ⟨rfl, bytes ++ tail, by rw [List.append_assoc], .cons hbytes htail⟩

end

theorem Written.decode_append {bytes : Code} {i : Instr} (h : Written Opcode.Wrapping bytes i)
    (rest : Code) : decode (bytes ++ rest) = .ok (i, rest) := by
  apply h.decodeFuel_append
  rw [List.length_append]
  omega

end Instr

namespace Code

theorem instrsFrom_of_writtenAll {code : Code} {is : List Instr} (fuel offset : Nat)
    (h : Instr.WrittenAll Opcode.Wrapping code is) (hfuel : is.length ≤ fuel) :
    instrsFrom fuel offset code = .ok is := by
  induction is generalizing fuel offset code with
  | nil =>
      cases h
      rw [instrsFrom]
  | cons i others ih =>
      cases h with
      | @cons bytes rest _ _ hfirst hothers =>
          cases fuel with
          | zero => simp at hfuel
          | succ fuel =>
              have hread := hfirst.decode_append rest
              have hmore := fun offset => ih fuel offset hothers (Nat.le_of_succ_le_succ hfuel)
              have hpos := hfirst.length_pos
              cases bytes with
              | nil => simp at hpos
              | cons b bytes =>
                  rw [List.cons_append] at hread ⊢
                  simp only [instrsFrom, hread, Except.mapError, hmore, bind, Except.bind]

theorem writtenAll_of_instrsFrom {fuel offset : Nat} {code : Code} {is : List Instr}
    (h : instrsFrom fuel offset code = .ok is) : Instr.WrittenAll Opcode.Wrapping code is := by
  match fuel, code with
  | _, [] =>
      rw [instrsFrom] at h
      cases h
      exact .nil
  | 0, _ :: _ => simp [instrsFrom] at h
  | fuel + 1, b :: code =>
      rw [instrsFrom] at h
      · obtain ⟨⟨i, rest⟩, hread, h⟩ := Instr.exists_of_bind_eq_ok h
        obtain ⟨others, hmore, h⟩ := Instr.exists_of_bind_eq_ok h
        cases h
        obtain ⟨bytes, hcode, hfirst⟩ :=
          Instr.exists_of_decodeFuel_eq_ok (mapError_eq_ok_iff.mp hread)
        rw [hcode]
        exact .cons hfirst (writtenAll_of_instrsFrom hmore)
      · simp

/-- Some code is read as instructions just when it is written for them. -/
theorem instrs_eq_ok_iff {code : Code} {is : List Instr} :
    instrs code = .ok is ↔ Instr.WrittenAll Opcode.Wrapping code is :=
  ⟨writtenAll_of_instrsFrom, fun h => instrsFrom_of_writtenAll _ 0 h h.length_le⟩

end Code

/-! ## Counts that are not taken at their word -/

namespace Opcode

/-- The counts that stand for fewer operands than they announce: the count of a call is
one less than the number of its operands and that of an object half of it, and both can
be so large that the number does not fit into 64 bits. -/
def Misread (op : Opcode) (count : UInt64) (operands : Nat) : Prop :=
  op = call ∧ count.toNat = 2 ^ 64 - 1 ∧ operands = 0 ∨
  op = object ∧ 2 ^ 63 ≤ count.toNat ∧ operands = 2 * (count.toNat - 2 ^ 63)

theorem announced_cases (op : Opcode) :
    op = call ∨ op = func ∨ op = object ∨ ∀ count, op.announced count = count := by
  cases op <;> simp [announced]

theorem wrapping_iff {op : Opcode} {count : UInt64} {operands : Nat} :
    op.Wrapping count operands ↔
      operands ≤ Instr.maxCount ∧ (op.Exactly count operands ∨ op.Misread count operands) := by
  have hlt := count.toNat_lt
  have hmax : Instr.maxCount < 2 ^ 63 := by decide
  constructor
  · rintro ⟨hwrapped, hpossible, hbody⟩
    refine ⟨hpossible, ?_⟩
    rcases announced_cases op with rfl | rfl | rfl | hplain
    · simp only [announced] at hwrapped
      simp only [Exactly, announced, Misread, true_and, reduceCtorEq, false_and, or_false]
      omega
    · have hne := hbody rfl
      simp only [announced] at hwrapped
      simp only [Exactly, announced, Misread, reduceCtorEq, false_and, or_false]
      omega
    · simp only [announced] at hwrapped
      simp only [Exactly, announced, Misread, true_and, reduceCtorEq, false_and, false_or]
      omega
    · rw [hplain, Nat.mod_eq_of_lt hlt] at hwrapped
      exact .inl (by rw [Exactly, hplain, hwrapped])
  · rintro ⟨hpossible, hexact | hmisread⟩
    · refine ⟨?_, hpossible, ?_⟩
      · rw [← hexact]
        omega
      · rintro rfl
        simp only [Exactly, announced] at hexact
        omega
    · rcases hmisread with ⟨rfl, hcount, hnone⟩ | ⟨rfl, hcount, hfewer⟩
      · refine ⟨?_, hpossible, by simp⟩
        simp only [announced]
        omega
      · refine ⟨?_, hpossible, by simp⟩
        simp only [announced]
        omega

end Opcode

namespace Code

/-- Some code is listed just when it is made of instructions whose counts announce their
operands, two kinds of huge counts apart, and the listing shows these instructions. -/
theorem disassemble_eq_ok_iff {code : Code} {listing : Text} :
    disassemble code = .ok listing ↔
      ∃ is, listing = Text.join [Text.newline] (Instr.renderAll is) ∧
        Instr.WrittenAll (fun op count operands => operands ≤ Instr.maxCount ∧
          (op.Exactly count operands ∨ op.Misread count operands)) code is := by
  have hsame : (fun (op : Opcode) count operands => operands ≤ Instr.maxCount ∧
      (op.Exactly count operands ∨ op.Misread count operands)) = Opcode.Wrapping := by
    funext op count operands
    exact propext Opcode.wrapping_iff.symm
  rw [hsame, disassemble]
  cases hread : instrs code with
  | error e =>
      simp only [Except.map, reduceCtorEq, false_iff]
      rintro ⟨is, -, hwritten⟩
      simp [instrs_eq_ok_iff.mpr hwritten] at hread
  | ok is =>
      simp only [Except.map, Except.ok.injEq]
      constructor
      · rintro rfl
        exact ⟨is, rfl, instrs_eq_ok_iff.mp hread⟩
      · rintro ⟨others, rfl, hwritten⟩
        rw [instrs_eq_ok_iff.mpr hwritten] at hread
        cases hread
        rfl

/-- An object that announces 2^63 fields and has none. -/
def emptyObject : Code := [13, 128, 128, 128, 128, 128, 128, 128, 128, 128, 1]

theorem disassemble_emptyObject :
    disassemble emptyObject = .ok "(object)" ∧
      ¬∃ is, Instr.WrittenAll Opcode.Exactly emptyObject is := by
  constructor
  · rfl
  · rintro ⟨is, h⟩
    generalize hcode : emptyObject = code at h
    cases h with
    | nil => cases hcode
    | @cons _ others _ _ hfirst hothers =>
        cases hfirst with
        | number hn => cases hcode
        | string ht => cases hcode
        | enum hname hvalue => cases hcode
        | syscall hname hargc hcount hargs => cases hcode
        | @fixed op _ _ hop hoperands =>
            have hbyte : Opcode.object.byte = op.byte := (List.cons.inj hcode).1
            obtain rfl := Opcode.byte_injective hbyte
            cases hop
        | @counted op _ _ digits body count operands hop hdigits hcount hoperands =>
            have hbyte : Opcode.object.byte = op.byte := (List.cons.inj hcode).1
            obtain rfl := Opcode.byte_injective hbyte
            have hrest : digits ++ (body ++ others) = emptyObject.tail := by
              rw [← List.append_assoc]
              exact (List.cons.inj hcode).2.symm
            have hread := Instr.takeVarint_append hdigits (body ++ others)
            have hvalue : Instr.takeVarint emptyObject.tail = .ok (9223372036854775808, []) := rfl
            rw [hrest, hvalue, Except.ok.injEq, Prod.mk.injEq] at hread
            have htoNat : count.toNat = 9223372036854775808 := by
              rw [← hread.1]
              rfl
            simp only [Opcode.Exactly, Opcode.announced, htoNat] at hcount
            have hfew := hoperands.length_le
            have hlength := congrArg List.length hrest
            simp [emptyObject] at hlength
            omega

end Code

end Splice

import Splice.Proofs.Code.Grammar

/-!
# Reading back what was written

The code of every well-shaped instruction tree is in the format, in the shortest
spelling of its numbers, so that it is read back together with the code that follows it.
All that is asked is that no text and no list of operands in it is longer than any
memory, which holds if the code itself is not.  The functions that build code write
well-shaped trees when they are given the operands that the operations take.
-/

namespace Splice

namespace Varint

theorem toNat_toUInt8 {n : Nat} (h : n < 256) : n.toUInt8.toNat = n := by
  simp [Nat.mod_eq_of_lt h]

theorem encodeFrom_ne_nil (more n : Nat) : encodeFrom more n ≠ [] := by
  cases more with
  | zero => simp [encodeFrom]
  | succ more =>
      rw [encodeFrom]
      split <;> simp

theorem spelled_encodeFrom (more n : Nat) (h : n < 2 * 128 ^ more) :
    isDelimited (encodeFrom more n) = true ∧ (encodeFrom more n).length ≤ more + 1 ∧
      value (encodeFrom more n) = n := by
  induction more generalizing n with
  | zero =>
      have hn : n < 2 := by simpa using h
      have hbyte := toNat_toUInt8 (n := n) (by omega)
      have hlow : n.toUInt8 < 128 := by
        rw [UInt8.lt_iff_toNat_lt, hbyte]
        exact Nat.lt_trans hn (by decide)
      refine ⟨by simpa [encodeFrom, isDelimited] using hlow, by simp [encodeFrom], ?_⟩
      simp only [encodeFrom, value, hbyte]
      omega
  | succ more ih =>
      rw [encodeFrom]
      by_cases hsmall : n < 128
      · have hbyte := toNat_toUInt8 (n := n) (by omega)
        have hlow : n.toUInt8 < 128 := by
          rw [UInt8.lt_iff_toNat_lt, hbyte]
          exact hsmall
        rw [if_pos hsmall]
        refine ⟨by simpa [isDelimited] using hlow, by simp, ?_⟩
        simp only [value, hbyte]
        omega
      · have hbyte := toNat_toUInt8 (n := n % 128 + 128) (by omega)
        have hhigh : 128 ≤ (n % 128 + 128).toUInt8 := by
          rw [UInt8.le_iff_toNat_le, hbyte]
          exact Nat.le_add_left ..
        have hquotient : n / 128 < 2 * 128 ^ more := by
          rw [Nat.pow_succ] at h
          omega
        obtain ⟨hdelimited, hlength, hvalue⟩ := ih (n / 128) hquotient
        rw [if_neg hsmall]
        refine ⟨?_, by simpa using hlength, ?_⟩
        · rw [isDelimited_cons (encodeFrom_ne_nil more (n / 128)), hdelimited]
          simpa using hhigh
        · rw [value, hvalue, hbyte]
          omega

theorem spells_encode (n : UInt64) : Spells (encode n) n := by
  have hlt : n.toNat < 2 * 128 ^ 9 := by
    have := n.toNat_lt
    omega
  obtain ⟨hdelimited, hlength, hvalue⟩ := spelled_encodeFrom 9 n.toNat hlt
  exact ⟨hdelimited, hlength, hvalue⟩

theorem unfold_fold (n : Int64) : Varint.unfold (fold n) = n := by
  have hlow := n.le_toInt
  have hhigh := n.toInt_lt
  unfold fold Varint.unfold
  by_cases hn : 0 ≤ n.toInt
  · rw [if_pos hn, toNat_toUInt64 (by omega)]
    have heven : (2 * n.toInt.toNat % 2 == 0) = true := by simp
    rw [if_pos heven]
    have hhalf : ((2 * n.toInt.toNat : Nat) : Int) / 2 = n.toInt := by omega
    rw [hhalf]
    exact Int64.ofInt_toInt n
  · rw [if_neg hn, toNat_toUInt64 (by omega)]
    have hodd : ((2 * (-n.toInt - 1).toNat + 1) % 2 == 0) = false := by
      have : (2 * (-n.toInt - 1).toNat + 1) % 2 = 1 := by omega
      rw [this]
      rfl
    rw [hodd]
    simp only [Bool.false_eq_true, if_false]
    have hhalf : (-(((2 * (-n.toInt - 1).toNat + 1) / 2 : Nat) : Int) - 1) = n.toInt := by omega
    rw [hhalf]
    exact Int64.ofInt_toInt n

end Varint

namespace Instr

theorem encode_length_pos (i : Instr) : 0 < (encode i).length := by
  cases i with
  | number n => simp [encode, Code.number]
  | string t => simp [encode, Code.string]
  | enum name value => simp [encode, Code.enum]
  | syscall name args => simp [encode, Code.syscall]
  | node op operands => simp [encode]

theorem length_le_encodeAll (is : List Instr) : is.length ≤ (encodeAll is).length := by
  induction is with
  | nil => simp
  | cons i rest ih =>
      have hfirst := encode_length_pos i
      simp only [encodeAll, List.length_append, List.length_cons]
      omega

theorem encodeAll_append (a b : List Instr) : encodeAll (a ++ b) = encodeAll a ++ encodeAll b := by
  induction a with
  | nil => rfl
  | cons i rest ih => simp only [List.cons_append, encodeAll, ih, List.append_assoc]

mutual

/-- No text and no list of operands is longer than any memory. -/
def fits : Instr → Bool
  | number _ => true
  | string t => t.length < 2 ^ 64
  | enum name _ => name.length < 2 ^ 64
  | syscall name args => name.length < 2 ^ 64 && args.length ≤ maxCount && fitAll args
  | node _ operands => operands.length ≤ maxCount && fitAll operands

def fitAll : List Instr → Bool
  | [] => true
  | i :: rest => fits i && fitAll rest

end

mutual

theorem fits_of_length_le (i : Instr) (h : (encode i).length ≤ maxCount) : i.fits = true := by
  have hmax : maxCount < 2 ^ 64 := by decide
  cases i with
  | number n => rfl
  | string t =>
      simp only [encode, Code.string, Code.counted, List.length_cons, List.length_append] at h
      simp only [fits, decide_eq_true_eq]
      omega
  | enum name value =>
      simp only [encode, Code.enum, Code.counted, List.length_cons, List.length_append] at h
      simp only [fits, decide_eq_true_eq]
      omega
  | syscall name args =>
      simp only [encode, Code.syscall, Code.counted, List.cons_append, List.length_cons,
        List.length_append] at h
      have hargs := length_le_encodeAll args
      simp only [fits, Bool.and_eq_true, decide_eq_true_eq]
      exact ⟨⟨by omega, by omega⟩, fitAll_of_length_le args (by omega)⟩
  | node op operands =>
      simp only [encode, List.length_cons, List.cons_append, List.length_append] at h
      have hoperands := length_le_encodeAll operands
      simp only [fits, Bool.and_eq_true, decide_eq_true_eq]
      exact ⟨by omega, fitAll_of_length_le operands (by omega)⟩

theorem fitAll_of_length_le (is : List Instr) (h : (encodeAll is).length ≤ maxCount) :
    fitAll is = true := by
  cases is with
  | nil => rfl
  | cons i others =>
      simp only [encodeAll, List.length_append] at h
      simp only [fitAll, Bool.and_eq_true]
      exact ⟨fits_of_length_le i (by omega), fitAll_of_length_le others (by omega)⟩

end

theorem spellsText_counted {t : Text} (h : t.length < 2 ^ 64) : SpellsText (Code.counted t) t :=
  ⟨_, _, Varint.spells_encode _, Varint.toNat_toUInt64 h, rfl⟩

/-- The operands of an operation are as many as its count announces. -/
theorem wrapping_of_mod {op : Opcode} {scale extra n : Nat} (hop : op.shape = .counted scale extra)
    (hextra : extra ≤ n) (hscale : (n - extra) % scale = 0) (hn : n ≤ maxCount) :
    op.Wrapping ((n - extra) / scale).toUInt64 n := by
  have hmax : maxCount < 2 ^ 63 := by decide
  have hsum : scale * ((n - extra) / scale) + extra = n := by
    rw [Nat.mul_div_cancel' (Nat.dvd_of_mod_eq_zero hscale)]
    omega
  have hquotient : (n - extra) / scale ≤ n - extra := Nat.div_le_self ..
  refine ⟨?_, hn, ?_⟩
  · rw [Varint.toNat_toUInt64 (by omega), Opcode.announced_of_counted hop, hsum]
    omega
  · rintro rfl
    cases hop
    omega

theorem wrapping_syscall {n : Nat} (hn : n ≤ maxCount) :
    Opcode.syscall.Wrapping (Int64.ofNat n).toUInt64 n := by
  have hmax : maxCount < 2 ^ 63 := by decide
  have hargc : (Int64.ofNat n).toUInt64 = n.toUInt64 := rfl
  refine ⟨?_, hn, by simp⟩
  rw [hargc, Varint.toNat_toUInt64 (by omega)]
  simp only [Opcode.announced]
  omega

mutual

theorem written_encode (i : Instr) (hshape : i.isWellShaped = true) (hfits : i.fits = true) :
    Written Opcode.Wrapping (encode i) i := by
  cases i with
  | number n =>
      have h : Written Opcode.Wrapping (Code.number n) (.number (Varint.unfold (Varint.fold n))) :=
        .number (Varint.spells_encode _)
      rwa [Varint.unfold_fold] at h
  | string t =>
      simp only [fits, decide_eq_true_eq] at hfits
      exact .string (spellsText_counted hfits)
  | enum name value =>
      simp only [fits, decide_eq_true_eq] at hfits
      have h : Written Opcode.Wrapping (Code.enum name value)
          (.enum name (Varint.unfold (Varint.fold value))) :=
        .enum (spellsText_counted hfits) (Varint.spells_encode _)
      rwa [Varint.unfold_fold] at h
  | syscall name args =>
      simp only [fits, Bool.and_eq_true, decide_eq_true_eq] at hfits
      have hargs := writtenAll_encodeAll args hshape hfits.2
      simp only [encode, Code.syscall, List.cons_append, List.append_assoc]
      exact .syscall (spellsText_counted hfits.1.1) (Varint.spells_encode _)
        (wrapping_syscall hfits.1.2) hargs
  | node op operands =>
      simp only [fits, Bool.and_eq_true, decide_eq_true_eq] at hfits
      simp only [isWellShaped, Bool.and_eq_true] at hshape
      have hoperands := writtenAll_encodeAll operands hshape.2 hfits.2
      cases hop : op.shape with
      | payload => simp [hop] at hshape
      | fixed n =>
          have hn : operands.length = n := by simpa [hop] using hshape.1
          subst hn
          simp only [encode, countBytes, hop, List.cons_append, List.nil_append]
          exact .fixed hop hoperands
      | counted scale extra =>
          have hextra : extra ≤ operands.length ∧ (operands.length - extra) % scale = 0 := by
            simpa [hop] using hshape.1
          simp only [encode, countBytes, hop, List.cons_append]
          exact .counted hop (Varint.spells_encode _)
            (wrapping_of_mod hop hextra.1 hextra.2 hfits.1) hoperands

theorem writtenAll_encodeAll (is : List Instr) (hshape : areWellShaped is = true)
    (hfits : fitAll is = true) : WrittenAll Opcode.Wrapping (encodeAll is) is := by
  cases is with
  | nil => exact .nil
  | cons i others =>
      simp only [areWellShaped, Bool.and_eq_true] at hshape
      simp only [fitAll, Bool.and_eq_true] at hfits
      exact .cons (written_encode i hshape.1 hfits.1) (writtenAll_encodeAll others hshape.2 hfits.2)

end

end Instr

namespace Code

/-- Code that is written for instructions and fits into memory is read back as they are. -/
theorem instrs_encodeAll {is : List Instr} (hshape : Instr.areWellShaped is = true)
    (hlength : (Instr.encodeAll is).length ≤ Instr.maxCount) :
    instrs (Instr.encodeAll is) = .ok is :=
  instrs_eq_ok_iff.mpr (Instr.writtenAll_encodeAll is hshape (Instr.fitAll_of_length_le is hlength))

end Code

/-! ## Building code -/

namespace Instr

mutual

/-- The functions that build code make some code for a tree, each with the operands that
its operation takes. -/
inductive Built : Code → Instr → Prop
  | number (n : Int64) : Built (Code.number n) (number n)
  | string (t : Text) : Built (Code.string t) (string t)
  | nil : Built Code.nil nil
  | bool (b : Bool) : Built (Code.bool b) (bool b)
  | instruction {op : Opcode} {codes : List Code} {operands : List Instr}
      (hop : op.shape = .fixed operands.length) (h : BuiltAll codes operands) :
      Built (Code.instruction op.byte codes) (node op operands)
  | block {codes : List Code} {statements : List Instr} (h : BuiltAll codes statements) :
      Built (Code.block codes) (block statements)
  | call {code : Code} {codes : List Code} {callee : Instr} {args : List Instr}
      (hcallee : Built code callee) (hargs : BuiltAll codes args) :
      Built (Code.call code codes) (node .call (callee :: args))
  | syscall (name : Text) {codes : List Code} {args : List Instr} (hargs : BuiltAll codes args) :
      Built (Code.syscall name (Int64.ofNat codes.length) ++ codes.flatten) (syscall name args)
  | object {code : Code} {keyCodes valueCodes : List Code} {keys values : List Instr}
      (hkeys : BuiltAll keyCodes keys) (hvalues : BuiltAll valueCodes values)
      (hlength : keys.length = values.length)
      (hcode : Code.object? keyCodes valueCodes = some code) :
      Built code (node .object (List.zipWith (fun k v => [k, v]) keys values).flatten)
  | func {code : Code} {codes : List Code} {params : List Instr} {body : Instr}
      (hparams : BuiltAll codes params) (hbody : Built code body) :
      Built (Code.func codes code) (node .func (params ++ [body]))
  | enum (name : Text) (value : Int64) : Built (Code.enum name value) (enum name value)

inductive BuiltAll : List Code → List Instr → Prop
  | nil : BuiltAll [] []
  | cons {code : Code} {codes : List Code} {i : Instr} {is : List Instr} (hfirst : Built code i)
      (hothers : BuiltAll codes is) : BuiltAll (code :: codes) (i :: is)

end

theorem areWellShaped_append (a b : List Instr) :
    areWellShaped (a ++ b) = (areWellShaped a && areWellShaped b) := by
  induction a with
  | nil => simp [areWellShaped]
  | cons i rest ih => simp only [List.cons_append, areWellShaped, ih, Bool.and_assoc]

/-- The keys and values of an object in turn. -/
theorem areWellShaped_zipWith {keys values : List Instr} (hkeys : areWellShaped keys = true)
    (hvalues : areWellShaped values = true) :
    areWellShaped (List.zipWith (fun k v => [k, v]) keys values).flatten = true := by
  induction keys generalizing values with
  | nil => rfl
  | cons k keys ih =>
      cases values with
      | nil => rfl
      | cons v values =>
          simp only [areWellShaped, Bool.and_eq_true] at hkeys hvalues
          simp [areWellShaped, hkeys.1, hvalues.1, ih hkeys.2 hvalues.2]

theorem length_zipWith_pairs {keys values : List Instr} (h : keys.length = values.length) :
    (List.zipWith (fun k v => [k, v]) keys values).flatten.length = 2 * keys.length := by
  induction keys generalizing values with
  | nil => rfl
  | cons k keys ih =>
      cases values with
      | nil => simp at h
      | cons v values =>
          have hrest := ih (Nat.succ.inj h)
          simp only [List.zipWith_cons_cons, List.flatten_cons, List.length_append,
            List.length_cons, List.length_nil, hrest]
          omega

theorem encodeAll_zipWith {keyCodes valueCodes : List Code} {keys values : List Instr}
    (hkeys : keyCodes = keys.map encode) (hvalues : valueCodes = values.map encode) :
    (List.zipWith (· ++ ·) keyCodes valueCodes).flatten =
      encodeAll (List.zipWith (fun k v => [k, v]) keys values).flatten := by
  subst hkeys hvalues
  induction keys generalizing values with
  | nil => rfl
  | cons k keys ih =>
      cases values with
      | nil => rfl
      | cons v values =>
          simp only [List.map_cons, List.zipWith_cons_cons, List.flatten_cons, ih, encodeAll_append,
            encodeAll, List.append_nil]

theorem flatten_map_encode (is : List Instr) : (is.map encode).flatten = encodeAll is := by
  induction is with
  | nil => rfl
  | cons i others ih => rw [List.map_cons, List.flatten_cons, ih, encodeAll]

/-- What is built is the code of a well-shaped tree. -/
theorem Built.encoded {code : Code} {i : Instr} (h : Built code i) :
    code = encode i ∧ i.isWellShaped = true := by
  refine @Built.rec (fun code i _ => code = encode i ∧ i.isWellShaped = true)
    (fun codes is _ => codes = is.map encode ∧ areWellShaped is = true)
    ?number ?string ?nil ?bool ?instruction ?block ?call ?syscall ?object ?func ?enum ?none ?some
    code i h
  case number => exact fun n => ⟨rfl, rfl⟩
  case string => exact fun t => ⟨rfl, rfl⟩
  case nil => exact ⟨rfl, rfl⟩
  case bool => exact fun b => by cases b <;> exact ⟨rfl, rfl⟩
  case enum => exact fun name value => ⟨rfl, rfl⟩
  case none => exact ⟨rfl, rfl⟩
  case some =>
    rintro code codes i is - - ⟨rfl, hfirst⟩ ⟨rfl, hothers⟩
    simp [areWellShaped, hfirst, hothers]
  case instruction =>
    rintro op codes operands hop - ⟨rfl, hall⟩
    constructor
    · simp [Code.instruction, encode, countBytes, hop, flatten_map_encode]
    · simp [isWellShaped, hop, hall]
  case block =>
    rintro codes statements - ⟨rfl, hall⟩
    constructor
    · simp [Code.block, Instr.block, encode, countBytes, Opcode.shape, flatten_map_encode]
    · simp [Instr.block, isWellShaped, Opcode.shape, hall, Nat.mod_one]
  case call =>
    rintro code codes callee args - - ⟨rfl, hcallee⟩ ⟨rfl, hargs⟩
    constructor
    · simp [Code.call, encode, encodeAll, countBytes, Opcode.shape, flatten_map_encode]
    · simp [isWellShaped, areWellShaped, Opcode.shape, hcallee, hargs, Nat.mod_one]
  case syscall =>
    rintro name codes args - ⟨rfl, hargs⟩
    exact ⟨by rw [encode, flatten_map_encode, List.length_map], hargs⟩
  case object =>
    rintro code keyCodes valueCodes keys values - - hlength hcode ⟨hkeys, hshaped⟩ ⟨hvalues, hall⟩
    have hpairs := areWellShaped_zipWith hshaped hall
    have htwice := length_zipWith_pairs hlength
    constructor
    · have hfields := encodeAll_zipWith hkeys hvalues
      have hcount : keyCodes.length = keys.length := by rw [hkeys, List.length_map]
      rw [Code.object?] at hcode
      split at hcode
      · cases hcode
      · cases hcode
        simp only [encode, countBytes, Opcode.shape, htwice, hfields, hcount]
        simp
    · simp [isWellShaped, Opcode.shape, hpairs, htwice]
  case func =>
    rintro code codes params body - - ⟨rfl, hparams⟩ ⟨rfl, hbody⟩
    constructor
    · simp [Code.func, encode, encodeAll, encodeAll_append, countBytes, Opcode.shape,
        flatten_map_encode]
    · simp [isWellShaped, areWellShaped, Opcode.shape, areWellShaped_append, hparams, hbody,
        Nat.mod_one]

theorem Built.decode_append {code : Code} {i : Instr} (h : Built code i) (hfits : i.fits = true)
    (suffix : Code) : decode (code ++ suffix) = .ok (i, suffix) := by
  obtain ⟨rfl, hshape⟩ := h.encoded
  exact (written_encode i hshape hfits).decode_append suffix

theorem BuiltAll.encoded {codes : List Code} {is : List Instr} (h : BuiltAll codes is) :
    codes.flatten = encodeAll is ∧ areWellShaped is = true := by
  induction is generalizing codes with
  | nil =>
      cases h
      exact ⟨rfl, rfl⟩
  | cons i others ih =>
      cases h with
      | cons hfirst hothers =>
          obtain ⟨rfl, hshape⟩ := hfirst.encoded
          obtain ⟨hflat, hall⟩ := ih hothers
          rw [List.flatten_cons, hflat, encodeAll, areWellShaped, hshape, hall]
          exact ⟨rfl, rfl⟩

theorem BuiltAll.forall₂_decode {codes : List Code} {is : List Instr} (h : BuiltAll codes is)
    (hfits : fitAll is = true) :
    List.Forall₂ (fun code i => ∀ suffix, decode (code ++ suffix) = .ok (i, suffix)) codes is := by
  induction is generalizing codes with
  | nil =>
      cases h
      exact .nil
  | cons i others ih =>
      cases h with
      | cons hfirst hothers =>
          simp only [fitAll, Bool.and_eq_true] at hfits
          exact .cons (hfirst.decode_append hfits.1) (ih hothers hfits.2)

theorem renderAll_eq_map (is : List Instr) : renderAll is = is.map render := by
  induction is with
  | nil => rfl
  | cons i others ih => rw [renderAll, ih, List.map_cons]

end Instr

namespace Code

/-- Code that is built for trees is read back as they are, whatever follows it, and a
sequence of codes is listed line by line. -/
theorem disassemble_built {codes : List Code} {is : List Instr} (h : Instr.BuiltAll codes is)
    (hfits : Instr.fitAll is = true) :
    List.Forall₂ (fun code i => ∀ suffix, Instr.decode (code ++ suffix) = .ok (i, suffix))
        codes is ∧
      disassemble codes.flatten = .ok (Text.join [Text.newline] (is.map Instr.render)) := by
  obtain ⟨hflat, hshape⟩ := h.encoded
  have hread : instrs codes.flatten = .ok is := by
    rw [hflat]
    exact instrs_eq_ok_iff.mpr (Instr.writtenAll_encodeAll is hshape hfits)
  refine ⟨h.forall₂_decode hfits, ?_⟩
  rw [disassemble, hread, Except.map, Instr.renderAll_eq_map]

def sampleTrees : List Instr :=
  [.syscall "print" [.number (-9223372036854775808), .nil],
    .node .func [.string "m:a", .block [.node .return_ [.node .call [.string "m:f", .bool true]]]],
    .node .object [.string "x", .number 1],
    .enum "m:Color.RED" 1]

theorem disassemble_built_sample :
    disassemble ([syscall "print" 2 ++ [number (-9223372036854775808), nil].flatten,
        func [string "m:a"] (block [instruction Opcode.return_.byte
          [call (string "m:f") [bool true]]]),
        Opcode.object.byte :: 1 :: (string "x" ++ number 1),
        enum "m:Color.RED" 1].flatten) =
      .ok (Text.join [Text.newline] (sampleTrees.map Instr.render)) := by
  have hsyscall := Instr.Built.syscall "print" (.cons (.number (-9223372036854775808))
    (.cons .nil .nil))
  have hcall := Instr.Built.call (.string "m:f") (.cons (.bool true) .nil)
  have hreturn : Instr.Built _ (.node .return_ _) := .instruction rfl (.cons hcall .nil)
  have hfunc := Instr.Built.func (.cons (.string "m:a") .nil) (.block (.cons hreturn .nil))
  have hobject : Instr.Built (Opcode.object.byte :: 1 :: (string "x" ++ number 1)) _ :=
    .object (.cons (.string "x") .nil) (.cons (.number 1) .nil) rfl rfl
  have hall := Instr.BuiltAll.cons hsyscall (.cons hfunc (.cons hobject
    (.cons (.enum "m:Color.RED" 1) .nil)))
  exact (disassemble_built hall rfl).2

example : sampleTrees.map Instr.render =
    (["(syscall print -9223372036854775808 nil)",
      "(fn (\"m:a\") (block (return (call \"m:f\" true))))",
      "(object \"x\" 1)", "(enum \"m:Color.RED\" 1)"] : List Text) := by
  decide +kernel

end Code

end Splice

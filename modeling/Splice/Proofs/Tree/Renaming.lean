import Splice.Proofs.Tree.Generation
import Splice.Proofs.Tree.Mention

/-!
# Renaming symbols in code

Operations take symbols at fixed places: the first operand of a load, a definition or
a store, the member of an access, the keys of an object and the parameters of a
function.  `Instr.relabel` changes what stands at these places and nothing else.  If a
tree is generated twice, with symbols written in two ways, and one way is turned into
the other by a function, then that function turns the code into the other code.
-/

namespace Splice

/-- Whether an operation with so many operands takes a symbol at a place. -/
def Opcode.takesSymbol (op : Opcode) (count index : Nat) : Bool :=
  match op with
  | .load => index == 0
  | .define => index == 0
  | .store => index == 0
  | .get => index == 1
  | .set => index == 1
  | .object => index % 2 == 0
  | .func => index + 1 < count
  | _ => Bool.false

namespace Instr

mutual

def relabel (f : Instr → Instr) : Instr → Instr
  | number n => number n
  | string t => string t
  | enum name value => enum name value
  | syscall name args => syscall name (relabelAll f args)
  | node op operands => node op (relabelFrom f op operands.length 0 operands)

def relabelAll (f : Instr → Instr) : List Instr → List Instr
  | [] => []
  | i :: rest => relabel f i :: relabelAll f rest

def relabelFrom (f : Instr → Instr) (op : Opcode) (count index : Nat) :
    List Instr → List Instr
  | [] => []
  | i :: rest =>
      (if op.takesSymbol count index then f i else relabel f i) ::
        relabelFrom f op count (index + 1) rest

end

mutual

/-- What stands where an instruction, and everything inside it, takes symbols. -/
def symbols : Instr → List Instr
  | number _ => []
  | string _ => []
  | enum _ _ => []
  | syscall _ args => symbolsOfAll args
  | node op operands => symbolsFrom op operands.length 0 operands

def symbolsOfAll : List Instr → List Instr
  | [] => []
  | i :: rest => symbols i ++ symbolsOfAll rest

def symbolsFrom (op : Opcode) (count index : Nat) : List Instr → List Instr
  | [] => []
  | i :: rest =>
      (if op.takesSymbol count index then [i] else symbols i) ++
        symbolsFrom op count (index + 1) rest

end

mutual

/-- Two instructions that differ in their symbols only, which are related. -/
def Corresponds (P : Instr → Instr → Prop) : Instr → Instr → Prop
  | number n, number m => n = m
  | string t, string u => t = u
  | enum name value, enum name' value' => name = name' ∧ value = value'
  | syscall name args, syscall name' args' => name = name' ∧ CorrespondAll P args args'
  | node op operands, node op' operands' =>
      op = op' ∧ CorrespondFrom P op operands.length 0 operands operands'
  | _, _ => False

def CorrespondAll (P : Instr → Instr → Prop) : List Instr → List Instr → Prop
  | [], [] => True
  | i :: rest, j :: rest' => Corresponds P i j ∧ CorrespondAll P rest rest'
  | _, _ => False

def CorrespondFrom (P : Instr → Instr → Prop) (op : Opcode) (count index : Nat) :
    List Instr → List Instr → Prop
  | [], [] => True
  | i :: rest, j :: rest' =>
      (if op.takesSymbol count index then P i j else Corresponds P i j) ∧
        CorrespondFrom P op count (index + 1) rest rest'
  | _, _ => False

end

variable {f : Instr → Instr} {P : Instr → Instr → Prop}

theorem CorrespondFrom.length_eq {op : Opcode} {count index : Nat} {is js : List Instr}
    (h : CorrespondFrom P op count index is js) : js.length = is.length := by
  induction is generalizing index js with
  | nil =>
      cases js with
      | nil => rfl
      | cons j rest' => cases h
  | cons i rest ih =>
      cases js with
      | nil => cases h
      | cons j rest' => simp only [List.length_cons, ih h.2]

mutual

/-- Changing the symbols of one instruction gives the other. -/
theorem Corresponds.relabel_eq {i j : Instr} (h : Corresponds P i j)
    (hf : ∀ x y, P x y → f y = x) : relabel f j = i := by
  cases i with
  | number n => cases j <;> cases h; rfl
  | string t => cases j <;> cases h; rfl
  | enum name value =>
      cases j with
      | enum name' value' =>
          obtain ⟨rfl, rfl⟩ := h
          rfl
      | _ => cases h
  | syscall name args =>
      cases j with
      | syscall name' args' =>
          obtain ⟨rfl, hargs⟩ := h
          rw [relabel, CorrespondAll.relabel_eq hargs hf]
      | _ => cases h
  | node op operands =>
      cases j with
      | node op' operands' =>
          obtain ⟨rfl, hoperands⟩ := h
          rw [relabel, hoperands.length_eq, CorrespondFrom.relabel_eq hoperands hf]
      | _ => cases h

theorem CorrespondAll.relabel_eq {is js : List Instr} (h : CorrespondAll P is js)
    (hf : ∀ x y, P x y → f y = x) : relabelAll f js = is := by
  cases is with
  | nil =>
      cases js with
      | nil => rfl
      | cons j rest' => cases h
  | cons i rest =>
      cases js with
      | nil => cases h
      | cons j rest' =>
          rw [relabelAll, Corresponds.relabel_eq h.1 hf, CorrespondAll.relabel_eq h.2 hf]

theorem CorrespondFrom.relabel_eq {op : Opcode} {count index : Nat} {is js : List Instr}
    (h : CorrespondFrom P op count index is js) (hf : ∀ x y, P x y → f y = x) :
    relabelFrom f op count index js = is := by
  cases is with
  | nil =>
      cases js with
      | nil => rfl
      | cons j rest' => cases h
  | cons i rest =>
      cases js with
      | nil => cases h
      | cons j rest' =>
          obtain ⟨hfirst, hrest⟩ := h
          rw [relabelFrom, CorrespondFrom.relabel_eq hrest hf]
          split at hfirst
          · next htakes => rw [if_pos htakes, hf i j hfirst]
          · next htakes => rw [if_neg htakes, Corresponds.relabel_eq hfirst hf]

end

mutual

theorem Corresponds.exists_of_mem_symbols {i j k : Instr} (h : Corresponds P i j)
    (hk : k ∈ symbols j) : ∃ x, P x k := by
  cases i with
  | number n => cases j <;> cases h; cases hk
  | string t => cases j <;> cases h; cases hk
  | enum name value =>
      cases j with
      | enum name' value' => cases hk
      | _ => cases h
  | syscall name args =>
      cases j with
      | syscall name' args' => exact CorrespondAll.exists_of_mem_symbols h.2 hk
      | _ => cases h
  | node op operands =>
      cases j with
      | node op' operands' =>
          obtain ⟨rfl, hoperands⟩ := h
          rw [symbols, hoperands.length_eq] at hk
          exact CorrespondFrom.exists_of_mem_symbols hoperands hk
      | _ => cases h

theorem CorrespondAll.exists_of_mem_symbols {is js : List Instr} {k : Instr}
    (h : CorrespondAll P is js) (hk : k ∈ symbolsOfAll js) : ∃ x, P x k := by
  cases is with
  | nil =>
      cases js with
      | nil => cases hk
      | cons j rest' => cases h
  | cons i rest =>
      cases js with
      | nil => cases h
      | cons j rest' =>
          rcases List.mem_append.mp hk with hk | hk
          · exact Corresponds.exists_of_mem_symbols h.1 hk
          · exact CorrespondAll.exists_of_mem_symbols h.2 hk

theorem CorrespondFrom.exists_of_mem_symbols {op : Opcode} {count index : Nat}
    {is js : List Instr} {k : Instr} (h : CorrespondFrom P op count index is js)
    (hk : k ∈ symbolsFrom op count index js) : ∃ x, P x k := by
  cases is with
  | nil =>
      cases js with
      | nil => cases hk
      | cons j rest' => cases h
  | cons i rest =>
      cases js with
      | nil => cases h
      | cons j rest' =>
          obtain ⟨hfirst, hrest⟩ := h
          rcases List.mem_append.mp hk with hk | hk
          · split at hk
            · next htakes =>
                rw [if_pos htakes] at hfirst
                rw [List.mem_singleton.mp hk]
                exact ⟨i, hfirst⟩
            · next htakes =>
                rw [if_neg htakes] at hfirst
                exact Corresponds.exists_of_mem_symbols hfirst hk
          · exact CorrespondFrom.exists_of_mem_symbols hrest hk

end

theorem correspondAll_append {a b a' b' : List Instr} (h : CorrespondAll P a a')
    (h' : CorrespondAll P b b') : CorrespondAll P (a ++ b) (a' ++ b') := by
  induction a generalizing a' with
  | nil =>
      cases a' with
      | nil => exact h'
      | cons j rest' => cases h
  | cons i rest ih =>
      cases a' with
      | nil => cases h
      | cons j rest' => exact ⟨h.1, ih h.2⟩

theorem correspondFrom_of_takesSymbol_eq_false {op : Opcode} {count : Nat}
    (hop : ∀ index, op.takesSymbol count index = false) (index : Nat) {is js : List Instr}
    (h : CorrespondAll P is js) : CorrespondFrom P op count index is js := by
  induction is generalizing index js with
  | nil =>
      cases js with
      | nil => trivial
      | cons j rest' => cases h
  | cons i rest ih =>
      cases js with
      | nil => cases h
      | cons j rest' =>
          refine ⟨?_, ih _ h.2⟩
          rw [hop index]
          exact h.1

/-- Operations that take no symbols. -/
theorem corresponds_node {op : Opcode} (hop : ∀ count index, op.takesSymbol count index = false)
    {is js : List Instr} (h : CorrespondAll P is js) : Corresponds P (node op is) (node op js) :=
  ⟨rfl, correspondFrom_of_takesSymbol_eq_false (hop is.length) 0 h⟩

theorem corresponds_nil : Corresponds P nil nil :=
  corresponds_node (fun _ _ => rfl) trivial

theorem corresponds_block {is js : List Instr} (h : CorrespondAll P is js) :
    Corresponds P (block is) (block js) :=
  corresponds_node (fun _ _ => rfl) h

end Instr

/-! ## Code of one tree in two codings -/

def Coding.loaded (c : Coding) (r : ReferenceId) : List SymbolId :=
  match c.resolution r with
  | .value s => [s]
  | _ => []

def Mention.symbols (c : Coding) : Mention → List SymbolId
  | name _ _ (.own s _) => [s]
  | name _ _ (.std r _) => c.loaded r
  | name _ _ .unbound => []
  | imported _ r _ => c.loaded r
  | property s => [s]
  | binding _ s => [s]

structure Coding.Matches (c c' : Coding) (P : Instr → Instr → Prop) (ms : List Mention) :
    Prop where
  resolution : c'.resolution = c.resolution
  operand : ∀ m ∈ ms, ∀ s ∈ m.symbols c, P (c.operand s) (c'.operand s)

section

variable {c c' : Coding} {P : Instr → Instr → Prop} {a b ms : List Mention}

theorem Coding.Matches.left (h : c.Matches c' P (a ++ b)) : c.Matches c' P a where
  resolution := h.resolution
  operand m hm := h.operand m (List.mem_append_left _ hm)

theorem Coding.Matches.right (h : c.Matches c' P (a ++ b)) : c.Matches c' P b where
  resolution := h.resolution
  operand m hm := h.operand m (List.mem_append_right _ hm)

theorem Coding.Matches.symbol (h : c.Matches c' P ms) {m : Mention} (hm : m ∈ ms) {s : SymbolId}
    (hs : s ∈ m.symbols c) : P (c.operand s) (c'.operand s) :=
  h.operand m hm s hs

theorem Coding.corresponds_load {r : ReferenceId} (hresolution : c'.resolution = c.resolution)
    (h : ∀ s ∈ c.loaded r, P (c.operand s) (c'.operand s)) :
    Instr.Corresponds P (c.load r) (c'.load r) := by
  unfold load
  rw [hresolution]
  cases hr : c.resolution r with
  | value s =>
      have hs : P (c.operand s) (c'.operand s) := h s (by simp [loaded, hr])
      exact ⟨rfl, hs, trivial⟩
  | unresolved => exact Instr.corresponds_nil
  | entry space enum name value => exact Instr.corresponds_nil

theorem Coding.stdEntry?_eq (hresolution : c'.resolution = c.resolution) (x : Expr) :
    c'.stdEntry? x = c.stdEntry? x := by
  unfold stdEntry?
  rw [hresolution]

/-- Keys and values in turn. -/
theorem correspondFrom_interleave {count : Nat} {keys : List SymbolId}
    (hkeys : ∀ s ∈ keys, P (c.operand s) (c'.operand s)) {vs vs' : List Instr}
    (hvs : Instr.CorrespondAll P vs vs') {index : Nat} (hindex : index % 2 = 0) :
    Instr.CorrespondFrom P .object count index
      (Program.interleave (keys.map c.operand) vs)
      (Program.interleave (keys.map c'.operand) vs') := by
  induction keys generalizing vs vs' index with
  | nil => simp [Program.interleave, Instr.CorrespondFrom]
  | cons s rest ih =>
      cases vs with
      | nil =>
          cases vs' with
          | nil => simp [Program.interleave, Instr.CorrespondFrom]
          | cons v' vs' => cases hvs
      | cons v vs =>
          cases vs' with
          | nil => cases hvs
          | cons v' vs' =>
              have hkey : Opcode.object.takesSymbol count index = true := by
                simp [Opcode.takesSymbol, hindex]
              have hvalue : Opcode.object.takesSymbol count (index + 1) = false := by
                simp only [Opcode.takesSymbol, beq_eq_false_iff_ne]
                omega
              have hnext := ih (fun s hs => hkeys s (List.mem_cons_of_mem _ hs)) hvs.2
                (show (index + 1 + 1) % 2 = 0 by omega)
              refine ⟨?_, ?_, hnext⟩
              · rw [hkey]
                exact hkeys s (List.mem_cons_self ..)
              · rw [hvalue]
                exact hvs.1

mutual

theorem Expr.corresponds_instr (e : Expr) (h : c.Matches c' P e.mentions) :
    Instr.Corresponds P (e.instr c) (e.instr c') := by
  cases e with
  | number o v => rfl
  | string o v => rfl
  | bool o v => cases v <;> exact Instr.corresponds_node (fun _ _ => rfl) trivial
  | nil o => exact Instr.corresponds_nil
  | name o text read =>
      cases read with
      | own s usage =>
          have hs : P (c.operand s) (c'.operand s) :=
            h.symbol (List.mem_singleton_self _) (List.mem_singleton_self _)
          exact ⟨rfl, hs, trivial⟩
      | std r record =>
          apply Coding.corresponds_load h.resolution
          intro s hs
          exact h.symbol (List.mem_singleton_self _) hs
      | unbound => exact Instr.corresponds_nil
  | imported o r m record =>
      have hload : Instr.Corresponds P (c.load r) (c'.load r) := by
        apply Coding.corresponds_load h.resolution
        intro s hs
        exact h.symbol (m := .imported o r record) (List.mem_cons_self ..) hs
      cases m with
      | none =>
          simp only [Expr.instr, h.resolution]
          cases c.resolution r with
          | entry space enum text value => rfl
          | unresolved => exact hload
          | value s => exact hload
      | some q =>
          have hq : P (c.operand q) (c'.operand q) :=
            h.symbol (m := .property q) (by simp [Expr.mentions]) (by simp [Mention.symbols])
          have hget : Instr.Corresponds P (.node .get [c.load r, c.operand q])
              (.node .get [c'.load r, c'.operand q]) := ⟨rfl, hload, hq, trivial⟩
          simp only [Expr.instr, h.resolution]
          cases c.resolution r with
          | entry space enum text value => rfl
          | unresolved => exact hget
          | value s => exact hget
  | member o x text s entry =>
      simp only [Expr.instr, Coding.stdEntry?_eq h.resolution]
      cases entry with
      | some e => rfl
      | none =>
          cases c.stdEntry? x with
          | some value => rfl
          | none =>
              have hs : P (c.operand s) (c'.operand s) :=
                h.symbol (m := .property s) (by simp [Expr.mentions]) (by simp [Mention.symbols])
              exact ⟨rfl, corresponds_instr x h.left, hs, trivial⟩
  | call o callee args =>
      exact Instr.corresponds_node (fun _ _ => rfl)
        ⟨corresponds_instr callee h.left, correspondAll_instrs args h.right⟩
  | syscall o text args => exact ⟨rfl, correspondAll_instrs args h⟩
  | object o keys values =>
      refine ⟨rfl, correspondFrom_interleave ?_ (correspondAll_instrs values h.left) rfl⟩
      intro s hs
      exact h.symbol (m := .property s) (List.mem_append_right _ (List.mem_map_of_mem hs))
        (by simp [Mention.symbols])
  | binary o op left right =>
      have hop : ∀ count index, op.opcode.takesSymbol count index = false := by
        intro count index
        cases op <;> rfl
      exact Instr.corresponds_node hop
        ⟨corresponds_instr left h.left, corresponds_instr right h.right, trivial⟩
  | unary o op x =>
      have hop : ∀ count index, op.opcode.takesSymbol count index = false := by
        intro count index
        cases op <;> rfl
      exact Instr.corresponds_node hop ⟨corresponds_instr x h, trivial⟩

theorem Expr.correspondAll_instrs (es : List Expr) (h : c.Matches c' P (Expr.mentionsOfAll es)) :
    Instr.CorrespondAll P (Expr.instrs c es) (Expr.instrs c' es) := by
  cases es with
  | nil => trivial
  | cons e rest => exact ⟨corresponds_instr e h.left, correspondAll_instrs rest h.right⟩

end

/-- Parameters are symbols, and the body of a function is none. -/
theorem correspondFrom_func {count index : Nat} {symbols : List SymbolId}
    (hsymbols : ∀ s ∈ symbols, P (c.operand s) (c'.operand s)) {body body' : Instr}
    (hbody : Instr.Corresponds P body body') (hcount : index + symbols.length + 1 = count) :
    Instr.CorrespondFrom P .func count index (symbols.map c.operand ++ [body])
      (symbols.map c'.operand ++ [body']) := by
  induction symbols generalizing index with
  | nil =>
      have hlast : Opcode.func.takesSymbol count index = false := by
        simp only [Opcode.takesSymbol, decide_eq_false_iff_not]
        simp only [List.length_nil] at hcount
        omega
      refine ⟨?_, trivial⟩
      rw [hlast]
      exact hbody
  | cons s rest ih =>
      simp only [List.length_cons] at hcount
      have hparam : Opcode.func.takesSymbol count index = true := by
        simp only [Opcode.takesSymbol, decide_eq_true_eq]
        omega
      refine ⟨?_, ih (fun s hs => hsymbols s (List.mem_cons_of_mem _ hs)) (by omega)⟩
      rw [hparam]
      exact hsymbols s (List.mem_cons_self ..)

mutual

theorem Stmt.corresponds_instr? (s : Stmt) (h : c.Matches c' P s.mentions) :
    Instr.CorrespondAll P (s.instr? c).toList (s.instr? c').toList := by
  cases s with
  | import_ o q path => trivial
  | enum o text es => trivial
  | retain o texts => trivial
  | let_ o text s value usage =>
      have hs : P (c.operand s) (c'.operand s) :=
        h.right.symbol (List.mem_singleton_self _) (List.mem_singleton_self _)
      have hvalue := Expr.corresponds_instr value h.left
      exact ⟨⟨rfl, hs, hvalue, trivial⟩, trivial⟩
  | fn o text s params bo body usage =>
      have hs : P (c.operand s) (c'.operand s) :=
        h.symbol (m := .binding text s) (by simp [Stmt.mentions]) (List.mem_singleton_self _)
      have hbody := Instr.corresponds_block (correspondAll_instrs body h.right)
      have hparams : ∀ t ∈ params.map Param.symbol, P (c.operand t) (c'.operand t) := by
        intro t ht
        obtain ⟨q, hq, rfl⟩ := List.mem_map.mp ht
        exact h.left.symbol (m := .binding q.name q.symbol)
          (List.mem_cons_of_mem _ (List.mem_map_of_mem hq)) (List.mem_singleton_self _)
      have hfunc : Instr.Corresponds P
          (.node .func (params.map (fun q => c.operand q.symbol) ++ [.block (Stmt.instrs c body)]))
          (.node .func
            (params.map (fun q => c'.operand q.symbol) ++ [.block (Stmt.instrs c' body)])) := by
        refine ⟨rfl, ?_⟩
        have hoperands := correspondFrom_func hparams hbody
          (show 0 + (params.map Param.symbol).length + 1 = params.length + 1 by simp)
        simpa [Function.comp_def] using hoperands
      exact ⟨⟨rfl, hs, hfunc, trivial⟩, trivial⟩
  | return_ o value =>
      cases value with
      | none =>
          exact ⟨Instr.corresponds_node (fun _ _ => rfl) ⟨Instr.corresponds_nil, trivial⟩,
            trivial⟩
      | some x =>
          have hvalue : Instr.Corresponds P (x.instr c) (x.instr c') :=
            Expr.corresponds_instr x
              ⟨h.resolution, fun m hm => h.operand m (by simpa [Stmt.mentions] using hm)⟩
          exact ⟨Instr.corresponds_node (fun _ _ => rfl) ⟨hvalue, trivial⟩, trivial⟩
  | if_ o condition b then_ else_ =>
      have htest := Expr.corresponds_instr condition h.left.left
      have hthen := Instr.corresponds_block (correspondAll_instrs then_ h.left.right)
      have helse := corresponds_elseInstr else_ h.right
      exact ⟨Instr.corresponds_node (fun _ _ => rfl) ⟨htest, hthen, helse, trivial⟩, trivial⟩
  | block o body => exact ⟨Instr.corresponds_block (correspondAll_instrs body h), trivial⟩
  | assign o text s value usage =>
      have hs : P (c.operand s) (c'.operand s) :=
        h.right.symbol (List.mem_singleton_self _) (List.mem_singleton_self _)
      have hvalue := Expr.corresponds_instr value h.left
      exact ⟨⟨rfl, hs, hvalue, trivial⟩, trivial⟩
  | setMember o target s value =>
      have hs : P (c.operand s) (c'.operand s) :=
        h.right.symbol (List.mem_singleton_self _) (List.mem_singleton_self _)
      have htarget := Expr.corresponds_instr target h.left.left
      have hvalue := Expr.corresponds_instr value h.left.right
      exact ⟨⟨rfl, htarget, hs, hvalue, trivial⟩, trivial⟩
  | expr x =>
      exact ⟨Instr.corresponds_node (fun _ _ => rfl)
        ⟨Expr.corresponds_instr x h, trivial⟩, trivial⟩

/-- The code of a tree in one coding corresponds to its code in the other. -/
theorem Stmt.correspondAll_instrs (ss : List Stmt) (h : c.Matches c' P (Stmt.mentionsOfAll ss)) :
    Instr.CorrespondAll P (Stmt.instrs c ss) (Stmt.instrs c' ss) := by
  cases ss with
  | nil => trivial
  | cons s rest =>
      exact Instr.correspondAll_append (corresponds_instr? s h.left)
        (correspondAll_instrs rest h.right)

theorem Stmt.corresponds_elseInstr (e : Option Stmt)
    (h : c.Matches c' P (Stmt.mentionsOfElse e)) :
    Instr.Corresponds P (Stmt.elseInstr c e) (Stmt.elseInstr c' e) := by
  have hempty : Instr.Corresponds P (Instr.block []) (Instr.block []) :=
    Instr.corresponds_block trivial
  cases e with
  | none => exact hempty
  | some s =>
      have hs := corresponds_instr? s h
      simp only [Stmt.elseInstr]
      cases hi : s.instr? c with
      | none =>
          cases hj : s.instr? c' with
          | none => exact hempty
          | some j =>
              rw [hi, hj] at hs
              cases hs
      | some i =>
          cases hj : s.instr? c' with
          | none =>
              rw [hi, hj] at hs
              cases hs
          | some j =>
              rw [hi, hj] at hs
              exact hs.1

end

end

end Splice

import Splice.Proofs.Tree.Entries
import Splice.Proofs.Tree.Renaming

/-!
# Where the symbols of a tree are written

A mention in a tree has a symbol that was made for it, or it shares one that was made for
its reference.  The code of the tree has one place for each of these symbols, with one
exception: an entry of an enum is written as an integer, so nothing is written for the
member that was accessed.  Such a symbol is idle (`Expr.idle?`).
-/

namespace Splice

namespace Instr

theorem symbolsOfAll_append (a b : List Instr) :
    symbolsOfAll (a ++ b) = symbolsOfAll a ++ symbolsOfAll b := by
  induction a with
  | nil => rfl
  | cons i rest ih => simp only [List.cons_append, symbolsOfAll, ih, List.append_assoc]

theorem symbolsFrom_of_takesSymbol_eq_false {op : Opcode} {count : Nat}
    (hop : ∀ index, op.takesSymbol count index = false) (index : Nat) (is : List Instr) :
    symbolsFrom op count index is = symbolsOfAll is := by
  induction is generalizing index with
  | nil => rfl
  | cons i rest ih => simp only [symbolsFrom, hop, symbolsOfAll, ih, Bool.false_eq_true, if_false]

/-- Operations that take no symbols have those of their operands. -/
theorem symbols_node (op : Opcode) (hop : ∀ count index, op.takesSymbol count index = false)
    (is : List Instr) : symbols (node op is) = symbolsOfAll is :=
  symbolsFrom_of_takesSymbol_eq_false (hop is.length) 0 is

theorem symbols_block (is : List Instr) : symbols (block is) = symbolsOfAll is :=
  symbols_node _ (fun _ _ => rfl) is

theorem symbols_get (x i : Instr) : symbols (node .get [x, i]) = symbols x ++ [i] := rfl

theorem symbols_define (i x : Instr) : symbols (node .define [i, x]) = i :: symbols x := by
  change i :: (symbols x ++ []) = _
  rw [List.append_nil]

theorem symbols_store (i x : Instr) : symbols (node .store [i, x]) = i :: symbols x := by
  change i :: (symbols x ++ []) = _
  rw [List.append_nil]

theorem symbols_set (x i y : Instr) :
    symbols (node .set [x, i, y]) = symbols x ++ i :: symbols y := by
  change symbols x ++ (i :: (symbols y ++ [])) = _
  rw [List.append_nil]

/-- Parameters are symbols, and the body of a function has its own. -/
theorem symbolsFrom_func {count : Nat} (params : List Instr) (body : Instr) {index : Nat}
    (hcount : index + params.length + 1 = count) :
    symbolsFrom .func count index (params ++ [body]) = params ++ symbols body := by
  induction params generalizing index with
  | nil =>
      have hlast : Opcode.func.takesSymbol count index = false := by
        simp only [Opcode.takesSymbol, decide_eq_false_iff_not]
        simp only [List.length_nil] at hcount
        omega
      simp [symbolsFrom, hlast]
  | cons i rest ih =>
      simp only [List.length_cons] at hcount
      have hparam : Opcode.func.takesSymbol count index = true := by
        simp only [Opcode.takesSymbol, decide_eq_true_eq]
        omega
      rw [List.cons_append, symbolsFrom, hparam, ih (by omega)]
      rfl

theorem symbols_func (params : List Instr) (body : Instr) :
    symbols (node .func (params ++ [body])) = params ++ symbols body :=
  symbolsFrom_func params body (by simp)

/-- The keys of an object are symbols, and its values have their own. -/
theorem perm_symbolsFrom_interleave {count : Nat} (keys values : List Instr)
    (hlength : values.length = keys.length) {index : Nat} (hindex : index % 2 = 0) :
    (symbolsFrom .object count index (Program.interleave keys values)).Perm
      (symbolsOfAll values ++ keys) := by
  induction keys generalizing values index with
  | nil =>
      rw [List.length_eq_zero_iff.mp hlength]
      exact List.Perm.refl _
  | cons k rest ih =>
      cases values with
      | nil => cases hlength
      | cons v values =>
          have hkey : Opcode.object.takesSymbol count index = true := by
            simp [Opcode.takesSymbol, hindex]
          have hvalue : Opcode.object.takesSymbol count (index + 1) = false := by
            simp only [Opcode.takesSymbol, beq_eq_false_iff_ne]
            omega
          have hrest := ih values (Nat.succ.inj hlength) (show (index + 1 + 1) % 2 = 0 by omega)
          simp only [Program.interleave, symbolsFrom, hkey, hvalue, if_true, Bool.false_eq_true,
            if_false, symbolsOfAll]
          refine List.Perm.trans ?_ List.perm_middle.symm
          rw [List.append_assoc]
          exact (hrest.append_left (symbols v)).cons k

end Instr

def Expr.property? : Expr → Option SymbolId
  | imported _ _ m _ => m
  | member _ _ _ s _ => some s
  | _ => none

/-- The symbol that was made for the member of an enum. -/
def Expr.idle? (c : Coding) (space : Text) (x : Expr) : Option SymbolId :=
  (x.entryUse? c space).bind fun _ => x.property?

/-- The symbols of some mentions are written in code, or they are idle. -/
def Coding.Writes (c : Coding) (ms : List Mention) (written : List Instr)
    (idle : List SymbolId) : Prop :=
  ((ms.flatMap (Mention.symbols c)).map c.operand).Perm (written ++ idle.map c.operand)

section

variable {c : Coding} {space : Text} {context : CheckContext}

namespace Coding.Writes

variable {ms ms' : List Mention} {written written' : List Instr} {idle idle' : List SymbolId}

theorem nil : c.Writes [] [] [] := List.Perm.refl _

theorem append (h : c.Writes ms written idle) (h' : c.Writes ms' written' idle') :
    c.Writes (ms ++ ms') (written ++ written') (idle ++ idle') := by
  simp only [Writes, List.flatMap_append, List.map_append]
  exact Program.perm_append_append h h'

/-- What is written may be told in another order. -/
theorem perm (h : c.Writes ms written idle) (hwritten : written.Perm written') :
    c.Writes ms written' idle :=
  List.Perm.trans h (hwritten.append_right _)

theorem property (s : SymbolId) : c.Writes [.property s] [c.operand s] [] := List.Perm.refl _

theorem binding (text : Text) (s : SymbolId) : c.Writes [.binding text s] [c.operand s] [] :=
  List.Perm.refl _

/-- Many symbols at once. -/
theorem map {α : Type} (mention : α → Mention) (symbol : α → SymbolId)
    (h : ∀ a, (mention a).symbols c = [symbol a]) (as : List α) :
    c.Writes (as.map mention) (as.map fun a => c.operand (symbol a)) [] := by
  induction as with
  | nil => exact nil
  | cons a rest ih =>
      have hfirst : c.Writes [mention a] [c.operand (symbol a)] [] := by
        simp only [Writes, List.flatMap_cons, List.flatMap_nil, h]
        exact List.Perm.refl _
      exact hfirst.append ih

theorem load (r : ReferenceId) (m : Mention) (h : m.symbols c = c.loaded r) :
    c.Writes [m] (Instr.symbols (c.load r)) [] := by
  simp only [Writes, List.flatMap_cons, List.flatMap_nil, List.append_nil, h, Coding.loaded,
    Coding.load, List.map_nil]
  cases c.resolution r <;> exact List.Perm.refl _

end Coding.Writes

/-! ## Expressions -/

def Expr.idle (c : Coding) (space : Text) (xs : List Expr) : List SymbolId :=
  xs.filterMap (idle? c space)

theorem Expr.idle_append (a b : List Expr) :
    idle c space (a ++ b) = idle c space a ++ idle c space b :=
  List.filterMap_append

theorem Expr.idle_cons_none {x : Expr} (h : x.idle? c space = none) (rest : List Expr) :
    idle c space (x :: rest) = idle c space rest :=
  List.filterMap_cons_none h

/-- An import that denotes no entry is loaded. -/
theorem Expr.instr_imported {o : Nat} {r : ReferenceId} {m : Option SymbolId}
    {record : Option ForeignId} (h : c.entryUse? r = none) :
    (imported o r m record).instr c =
      match m with
      | some s => .node .get [c.load r, c.operand s]
      | none => c.load r := by
  simp only [instr]
  cases hr : c.resolution r with
  | entry space enum entry value =>
      rw [Coding.entryUse?, hr] at h
      cases h
  | unresolved => rfl
  | value s => rfl

theorem Expr.writes_imported (o : Nat) (r : ReferenceId) (m : Option SymbolId)
    (record : Option ForeignId) :
    c.Writes (imported o r m record).mentions (Instr.symbols ((imported o r m record).instr c))
      (idle c space [imported o r m record]) := by
  have hload : c.Writes [.imported o r record] (Instr.symbols (c.load r)) [] := .load r _ rfl
  by_cases hentry : ∃ u, c.entryUse? r = some u
  · obtain ⟨u, hu⟩ := hentry
    have hr := Coding.resolution_of_entryUse? hu
    cases m <;> simp [Coding.Writes, mentions, Mention.symbols, Coding.loaded, instr,
      Instr.symbols, idle, idle?, entryUse?, property?, hu, hr]
  · have hnone : c.entryUse? r = none := by
      rwa [← Option.ne_none_iff_exists', not_not] at hentry
    have hidle : idle c space [imported o r m record] = [] := by
      simp [idle, idle?, entryUse?, hnone]
    rw [hidle, instr_imported hnone]
    cases m with
    | none => exact hload
    | some s => exact hload.append (.property s)

theorem Expr.length_instrs (es : List Expr) : (instrs c es).length = es.length := by
  induction es with
  | nil => rfl
  | cons e rest ih => rw [instrs, List.length_cons, List.length_cons, ih]

theorem Expr.exists_entryUse?_of_stdEntry? {x : Expr} {value : Int64}
    (h : c.stdEntry? x = some value) :
    ∃ o text r record u, x = name o text (.std r record) ∧ c.entryUse? r = some u := by
  cases x with
  | name o text read =>
      cases read with
      | unbound => cases h
      | own s usage => cases h
      | std r record =>
          refine ⟨o, text, r, record, ?_⟩
          simp only [Coding.stdEntry?] at h
          cases hr : c.resolution r with
          | entry space enum entry given => exact ⟨_, rfl, by rw [Coding.entryUse?, hr]⟩
          | unresolved =>
              rw [hr] at h
              cases h
          | value s =>
              rw [hr] at h
              cases h
  | _ => cases h

/-- Unless a name of the standard library denotes an entry, no member of it does. -/
theorem Expr.idle?_member {x : Expr} (hx : c.stdEntry? x = none) (o : Nat) (text : Text)
    (s : SymbolId) : (member o x text s none).idle? c space = none := by
  cases x with
  | name o' name read =>
      cases read with
      | unbound => rfl
      | own s' usage => rfl
      | std r record =>
          simp only [Coding.stdEntry?] at hx
          simp only [idle?, entryUse?, Coding.entryUse?]
          cases hr : c.resolution r with
          | entry space enum entry value =>
              rw [hr] at hx
              cases hx
          | _ => rfl
  | _ => rfl

variable (c space)

mutual

/-- Every symbol that an expression mentions is written in its code or is idle. -/
theorem Expr.writes_instr (e : Expr) (h : ∀ x ∈ e.nodes, x.Apt context) :
    c.Writes e.mentions (Instr.symbols (e.instr c)) (idle c space e.nodes) := by
  cases e with
  | number o v => exact .nil
  | string o v => exact .nil
  | bool o v => cases v <;> exact .nil
  | nil o => exact .nil
  | name o text read =>
      cases read with
      | own s usage => exact List.Perm.refl _
      | std r record => exact .load r _ rfl
      | unbound => exact .nil
  | imported o r m record => exact writes_imported o r m record
  | member o x text s entry =>
      cases entry with
      | some e =>
          -- The target is an unbound name, for which there is no symbol.
          obtain ⟨-, o', text', rfl⟩ := h _ List.mem_cons_self
          exact List.Perm.refl _
      | none =>
          have hx := writes_instr x fun y hy => h y (List.mem_cons_of_mem _ hy)
          simp only [instr]
          cases hread : c.stdEntry? x with
          | some value =>
              obtain ⟨o', text', r, record, u, rfl, hu⟩ := exists_entryUse?_of_stdEntry? hread
              have hr := Coding.resolution_of_entryUse? hu
              simp [Coding.Writes, mentions, Mention.symbols, Coding.loaded, Instr.symbols, nodes,
                idle, idle?, entryUse?, property?, hu, hr]
          | none =>
              rw [nodes, idle_cons_none (idle?_member hread o text s)]
              simpa only [mentions, Instr.symbols_get, List.append_nil]
                using hx.append (.property s)
  | call o callee args =>
      have hcallee := writes_instr callee fun x hx =>
        h x (List.mem_cons_of_mem _ (List.mem_append_left _ hx))
      have hargs := writes_instrs args fun x hx =>
        h x (List.mem_cons_of_mem _ (List.mem_append_right _ hx))
      rw [instr, Instr.symbols_node _ (fun _ _ => rfl), nodes, idle_cons_none rfl, idle_append]
      exact hcallee.append hargs
  | syscall o text args =>
      exact writes_instrs args fun x hx => h x (List.mem_cons_of_mem _ hx)
  | object o keys values =>
      have hvalues := writes_instrs values fun x hx => h x (List.mem_cons_of_mem _ hx)
      have hkeys := Coding.Writes.map (c := c) Mention.property id (fun _ => rfl) keys
      have hlength : (instrs c values).length = (keys.map c.operand).length := by
        rw [length_instrs, List.length_map]
        exact h _ List.mem_cons_self
      have hboth := hvalues.append hkeys
      rw [List.append_nil] at hboth
      exact hboth.perm (Instr.perm_symbolsFrom_interleave _ _ hlength rfl).symm
  | binary o op a b =>
      have ha := writes_instr a fun x hx =>
        h x (List.mem_cons_of_mem _ (List.mem_append_left _ hx))
      have hb := writes_instr b fun x hx =>
        h x (List.mem_cons_of_mem _ (List.mem_append_right _ hx))
      have hop : ∀ count index, op.opcode.takesSymbol count index = false := by
        intro count index
        cases op <;> rfl
      rw [instr, Instr.symbols_node _ hop, nodes, idle_cons_none rfl, idle_append, mentions]
      simpa only [Instr.symbolsOfAll, List.append_nil] using ha.append hb
  | unary o op a =>
      have ha := writes_instr a fun x hx => h x (List.mem_cons_of_mem _ hx)
      have hop : ∀ count index, op.opcode.takesSymbol count index = false := by
        intro count index
        cases op <;> rfl
      rw [instr, Instr.symbols_node _ hop, nodes, idle_cons_none rfl, mentions]
      simpa only [Instr.symbolsOfAll, List.append_nil] using ha

theorem Expr.writes_instrs (es : List Expr) (h : ∀ x ∈ nodesOfAll es, x.Apt context) :
    c.Writes (mentionsOfAll es) (Instr.symbolsOfAll (instrs c es))
      (idle c space (nodesOfAll es)) := by
  cases es with
  | nil => exact .nil
  | cons e rest =>
      rw [nodesOfAll, idle_append]
      exact (writes_instr e fun x hx => h x (List.mem_append_left _ hx)).append
        (writes_instrs rest fun x hx => h x (List.mem_append_right _ hx))

end

theorem Stmt.symbols_elseInstr (s : Stmt) :
    Instr.symbols (elseInstr c (some s)) = Instr.symbolsOfAll (s.instr? c).toList := by
  rw [elseInstr]
  cases s.instr? c with
  | none => rfl
  | some i => exact (List.append_nil _).symm

mutual

theorem Stmt.writes_instr? (s : Stmt) (h : ∀ x ∈ s.exprs, x.Apt context) :
    c.Writes s.mentions (Instr.symbolsOfAll (s.instr? c).toList) (Expr.idle c space s.exprs) := by
  cases s with
  | import_ o q path => exact .nil
  | enum o text es => exact .nil
  | retain o texts => exact .nil
  | let_ o text s value usage =>
      rw [exprs_let] at h ⊢
      have hboth := (Expr.writes_instr c space value h).append (.binding (c := c) text s)
      rw [List.append_nil] at hboth
      refine hboth.perm ?_
      simpa only [instr?, Option.toList_some, Instr.symbolsOfAll, Instr.symbols_define,
        List.append_nil] using List.perm_append_singleton _ _
  | fn o text s params bo body usage =>
      have hname : c.Writes [.binding text s] [c.operand s] [] := .binding text s
      have hparams : c.Writes (params.map fun q => .binding q.name q.symbol)
          (params.map fun q => c.operand q.symbol) [] := .map _ _ (fun _ => rfl) params
      have hall := (hname.append hparams).append (writes_instrs body h)
      have hcode : Instr.symbolsOfAll ((fn o text s params bo body usage).instr? c).toList =
          c.operand s :: (params.map (fun q => c.operand q.symbol) ++
            Instr.symbolsOfAll (instrs c body)) := by
        simp only [instr?, Option.toList_some, Instr.symbolsOfAll, Instr.symbols_define,
          Instr.symbols_func, Instr.symbols_block, List.append_nil]
      rw [hcode]
      exact hall
  | assign o text s value usage =>
      rw [exprs_assign] at h ⊢
      have hboth := (Expr.writes_instr c space value h).append (.binding (c := c) text s)
      rw [List.append_nil] at hboth
      refine hboth.perm ?_
      simpa only [instr?, Option.toList_some, Instr.symbolsOfAll, Instr.symbols_store,
        List.append_nil] using List.perm_append_singleton _ _
  | setMember o target s value =>
      rw [exprs_setMember] at h ⊢
      have htarget := Expr.writes_instr c space target fun x hx =>
        h x (List.mem_append_left _ hx)
      have hvalue := Expr.writes_instr c space value fun x hx =>
        h x (List.mem_append_right _ hx)
      have hall := (htarget.append hvalue).append (.property s)
      rw [List.append_nil, ← Expr.idle_append] at hall
      refine hall.perm ?_
      simp only [instr?, Option.toList_some, Instr.symbolsOfAll, Instr.symbols_set,
        List.append_nil, List.append_assoc]
      exact (List.perm_append_singleton _ _).append_left _
  | return_ o value =>
      cases value with
      | none => exact .nil
      | some x =>
          rw [exprs_return] at h ⊢
          have hx := Expr.writes_instr c space x h
          have hcode : Instr.symbolsOfAll ((return_ o (some x)).instr? c).toList =
              Instr.symbols (x.instr c) := by
            simp only [instr?, Option.toList_some, Instr.symbolsOfAll, Option.map_some,
              Option.getD_some, Instr.symbols_node .return_ (fun _ _ => rfl),
              List.append_nil]
          rw [hcode]
          simpa [mentions] using hx
  | if_ o condition b then_ else_ =>
      rw [exprs_if] at h ⊢
      have htest := Expr.writes_instr c space condition fun x hx =>
        h x (List.mem_append_left _ hx)
      have hthen := writes_instrs then_ fun x hx =>
        h x (List.mem_append_right _ (List.mem_append_left _ hx))
      have helse := writes_elseInstr else_ fun x hx =>
        h x (List.mem_append_right _ (List.mem_append_right _ hx))
      have hall := (htest.append hthen).append helse
      simpa only [instr?, Option.toList_some, Instr.symbolsOfAll,
        Instr.symbols_node .branch (fun _ _ => rfl), Instr.symbols_block,
        Expr.idle_append, List.append_nil, List.append_assoc, mentions] using hall
  | block o body =>
      have hcode : Instr.symbolsOfAll ((block o body).instr? c).toList =
          Instr.symbolsOfAll (instrs c body) := by
        simp only [instr?, Option.toList_some, Instr.symbolsOfAll, Instr.symbols_block,
          List.append_nil]
      rw [hcode]
      exact writes_instrs body h
  | expr x =>
      rw [exprs_expr] at h ⊢
      have hx := Expr.writes_instr c space x h
      simpa only [instr?, Option.toList_some, Instr.symbolsOfAll,
        Instr.symbols_node .pop (fun _ _ => rfl), List.append_nil, mentions] using hx

/-- Every symbol that a tree mentions is written in its code or is idle. -/
theorem Stmt.writes_instrs (ss : List Stmt) (h : ∀ x ∈ exprsOfAll ss, x.Apt context) :
    c.Writes (mentionsOfAll ss) (Instr.symbolsOfAll (instrs c ss))
      (Expr.idle c space (exprsOfAll ss)) := by
  cases ss with
  | nil => exact .nil
  | cons s rest =>
      rw [exprsOfAll_cons] at h ⊢
      rw [instrs, Instr.symbolsOfAll_append, Expr.idle_append]
      exact (writes_instr? s fun x hx => h x (List.mem_append_left _ hx)).append
        (writes_instrs rest fun x hx => h x (List.mem_append_right _ hx))

theorem Stmt.writes_elseInstr (e : Option Stmt) (h : ∀ x ∈ exprsOfElse e, x.Apt context) :
    c.Writes (mentionsOfElse e) (Instr.symbols (elseInstr c e))
      (Expr.idle c space (exprsOfElse e)) := by
  cases e with
  | none => exact .nil
  | some s =>
      rw [symbols_elseInstr]
      exact writes_instr? s h

end

end

end Splice

import Splice.Proofs.Text.Lines
import Splice.Proofs.Tree.Annotation
import Splice.Proofs.Tree.Generation

/-!
# The listing of a tree

Every statement that does something has a line of its own in the listing of its code.
`Stmt.listed` says what the line is, by recursion on the statement and without any code:
statements are written as `define`, `store`, `set`, `return`, `if`, `block` and `pop`, and
expressions likewise, each with its operands in parentheses behind it.  What is generated
for a statement is shown as its line (`Stmt.render_instr?`), and the line has no line end
in it as long as machine calls are named by words.
-/

namespace Splice

def BinaryOp.word : BinaryOp → Text
  | equal => "eq"
  | notEqual => "neq"
  | less => "lt"
  | greater => "gt"
  | add => "add"
  | sub => "sub"
  | mul => "mul"
  | div => "div"

def UnaryOp.word : UnaryOp → Text
  | not => "not"
  | neg => "neg"

namespace Program

variable (p : Program)

/-- What stands for a symbol: its number, or the quoted text of its name. -/
def operandText (s : SymbolId) : Text :=
  match (p.symbol s).number with
  | some n => Text.ofInt64 n
  | none => Text.quote (p.symbol s).literal

/-- The load of what a reference denotes.  For a reference that denotes no value there is
no code, and nothing to list. -/
def loadText (r : ReferenceId) : Text :=
  match (p.reference r).resolution with
  | .value s => Instr.parenthesised "load" [p.operandText s]
  | _ => "nil"

def readText : NameRead → Text
  | .own s _ => Instr.parenthesised "load" [p.operandText s]
  | .std r _ => p.loadText r
  | .unbound => "nil"

/-- The integer of the enum entry that a member of a target is, if it is one: an entry of
an enum of the own namespace, or of one of the standard library. -/
def entryInteger? (target : Expr) : Option EntryRead → Option Int64
  | some e => some e.value
  | none =>
      match target with
      | .name _ _ (.std r _) =>
          match (p.reference r).resolution with
          | .entry _ _ _ value => some value
          | _ => none
      | _ => none

def fieldTexts (keys : List SymbolId) (values : List Text) : List Text :=
  (keys.zip values).flatMap fun (k, v) => [p.operandText k, v]

end Program

namespace Expr

variable (p : Program)

mutual

def listed : Expr → Text
  | number _ v => Text.ofInt64 v
  | string _ v => Text.quote v
  | bool _ v => if v then "true" else "false"
  | nil _ => "nil"
  | name _ _ read => p.readText read
  | imported _ r m _ =>
      match (p.reference r).resolution with
      | .entry _ _ _ value => Text.ofInt64 value
      | _ =>
          match m with
          | some s => Instr.parenthesised "get" [p.loadText r, p.operandText s]
          | none => p.loadText r
  | member _ x _ s entry =>
      match p.entryInteger? x entry with
      | some value => Text.ofInt64 value
      | none => Instr.parenthesised "get" [listed x, p.operandText s]
  | call _ callee args => Instr.parenthesised "call" (listed callee :: listedAll args)
  | syscall _ text args => Instr.parenthesised "syscall" (text :: listedAll args)
  | object _ keys values => Instr.parenthesised "object" (p.fieldTexts keys (listedAll values))
  | binary _ op a b => Instr.parenthesised op.word [listed a, listed b]
  | unary _ op a => Instr.parenthesised op.word [listed a]

def listedAll : List Expr → List Text
  | [] => []
  | e :: rest => listed e :: listedAll rest

end

end Expr

namespace Stmt

/-- Declarations that do nothing when the program runs. -/
def isSilent : Stmt → Bool
  | import_ _ _ _ => true
  | enum _ _ _ => true
  | retain _ _ => true
  | _ => false

variable (p : Program)

mutual

/-- A statement as it is listed; silent ones are not. -/
def listed : Stmt → Text
  | let_ _ _ s value _ => Instr.parenthesised "define" [p.operandText s, value.listed p]
  | fn _ _ s params _ body _ =>
      Instr.parenthesised "define" [p.operandText s,
        Instr.parenthesised "fn"
          ["(" ++ Text.join " " (params.map fun q => p.operandText q.symbol) ++ ")",
            Instr.parenthesised "block" (listedAll body)]]
  | assign _ _ s value _ => Instr.parenthesised "store" [p.operandText s, value.listed p]
  | setMember _ target s value =>
      Instr.parenthesised "set" [target.listed p, p.operandText s, value.listed p]
  | return_ _ none => Instr.parenthesised "return" ["nil"]
  | return_ _ (some value) => Instr.parenthesised "return" [value.listed p]
  | if_ _ condition _ then_ else_ =>
      Instr.parenthesised "if"
        [condition.listed p, Instr.parenthesised "block" (listedAll then_), listedElse else_]
  | block _ body => Instr.parenthesised "block" (listedAll body)
  | expr x => Instr.parenthesised "pop" [x.listed p]
  | import_ _ _ _ => []
  | enum _ _ _ => []
  | retain _ _ => []

def listedAll : List Stmt → List Text
  | [] => []
  | s :: rest => if s.isSilent then listedAll rest else listed s :: listedAll rest

def listedElse : Option Stmt → Text
  | none => Instr.parenthesised "block" []
  | some s => if s.isSilent then Instr.parenthesised "block" [] else listed s

end

theorem listedAll_eq (ss : List Stmt) :
    listedAll p ss = (ss.filter fun s => !s.isSilent).map (listed p) := by
  induction ss with
  | nil => rfl
  | cons s rest ih =>
      rw [listedAll, ih, List.filter_cons]
      cases s.isSilent <;> rfl

end Stmt

/-! ## Generated code is shown as these lines -/

namespace Instr

theorem render_node {op : Opcode} {operands : List Instr} (hfunc : op ≠ .func)
    (hshape : op.shape ≠ .fixed 0) :
    (node op operands).render = parenthesised op.name (renderAll operands) := by
  simp [render, hfunc, hshape]

theorem render_func (params : List Instr) (body : Instr) :
    (node .func (params ++ [body])).render =
      parenthesised "fn" ["(" ++ Text.join " " (renderAll params) ++ ")", body.render] := by
  simp [render, renderAll_eq_map, Opcode.name]

theorem render_block (is : List Instr) :
    (block is).render = parenthesised "block" (renderAll is) :=
  render_node (by decide) (by decide)

end Instr

namespace Program

variable {p : Program}

theorem render_operand (s : SymbolId) : (p.coding.operand s).render = p.operandText s := by
  change (p.symbol s).operand.render = p.operandText s
  unfold Symbol.operand operandText
  split <;> simp only [*, Instr.render]

theorem renderAll_operands (ss : List SymbolId) :
    Instr.renderAll (ss.map p.coding.operand) = ss.map p.operandText := by
  rw [Instr.renderAll_eq_map, List.map_map]
  exact List.map_congr_left fun s _ => render_operand s

theorem render_load_operand (s : SymbolId) :
    (Instr.node .load [p.coding.operand s]).render =
      Instr.parenthesised "load" [p.operandText s] := by
  rw [Instr.render_node (by decide) (by decide), Instr.renderAll, render_operand]
  rfl

theorem render_load (r : ReferenceId) : (p.coding.load r).render = p.loadText r := by
  have hresolution : p.coding.resolution r = (p.reference r).resolution := rfl
  unfold Coding.load loadText
  rw [hresolution]
  cases (p.reference r).resolution with
  | value s => exact render_load_operand s
  | unresolved => rfl
  | entry space enum name value => rfl

theorem render_name (read : NameRead) : (p.coding.name read).render = p.readText read := by
  cases read with
  | own s usage => exact render_load_operand s
  | std r record => exact render_load r
  | unbound => rfl

theorem stdEntry?_eq_entryInteger? (x : Expr) :
    p.coding.stdEntry? x = p.entryInteger? x none := by
  cases x with
  | name o text read => cases read <;> rfl
  | _ => rfl

theorem renderAll_interleave (keys : List SymbolId) (values : List Instr) :
    Instr.renderAll (interleave (keys.map p.coding.operand) values) =
      p.fieldTexts keys (Instr.renderAll values) := by
  induction keys generalizing values with
  | nil => simp [interleave, Instr.renderAll, fieldTexts]
  | cons k keys ih =>
      cases values with
      | nil => simp [interleave, Instr.renderAll, fieldTexts]
      | cons v values =>
          have hrest := ih values
          simp only [fieldTexts] at hrest
          simp only [List.map_cons, interleave, Instr.renderAll, fieldTexts, List.zip_cons_cons,
            List.flatMap_cons, render_operand, hrest]
          rfl

end Program

theorem BinaryOp.render_node (op : BinaryOp) (operands : List Instr) :
    (Instr.node op.opcode operands).render =
      Instr.parenthesised op.word (Instr.renderAll operands) := by
  rw [Instr.render_node (by cases op <;> decide) (by cases op <;> decide)]
  cases op <;> rfl

theorem UnaryOp.render_node (op : UnaryOp) (operands : List Instr) :
    (Instr.node op.opcode operands).render =
      Instr.parenthesised op.word (Instr.renderAll operands) := by
  rw [Instr.render_node (by cases op <;> decide) (by cases op <;> decide)]
  cases op <;> rfl

section

variable (p : Program)

mutual

theorem Expr.render_instr (e : Expr) : (e.instr p.coding).render = e.listed p := by
  have hget : ∀ i s, (Instr.node .get [i, p.coding.operand s]).render =
      Instr.parenthesised "get" [i.render, p.operandText s] := by
    intro i s
    rw [Instr.render_node (by decide) (by decide)]
    simp only [Instr.renderAll, Program.render_operand]
    rfl
  cases e with
  | number o v => simp only [Expr.instr, Instr.render, Expr.listed]
  | string o v => simp only [Expr.instr, Instr.render, Expr.listed]
  | bool o v => cases v <;> simp only [Expr.listed] <;> rfl
  | nil o => simp only [Expr.listed]; rfl
  | name o text read =>
      rw [Expr.instr, Expr.listed]
      exact Program.render_name read
  | imported o r m record =>
      have hresolution : p.coding.resolution r = (p.reference r).resolution := rfl
      simp only [Expr.instr, Expr.listed, hresolution]
      cases (p.reference r).resolution with
      | entry space enum name value => rfl
      | unresolved =>
          cases m with
          | none => exact Program.render_load r
          | some s => exact (hget _ s).trans (by rw [Program.render_load])
      | value s' =>
          cases m with
          | none => exact Program.render_load r
          | some s => exact (hget _ s).trans (by rw [Program.render_load])
  | member o x text s entry =>
      simp only [Expr.instr, Expr.listed]
      cases entry with
      | some e => rfl
      | none =>
          simp only [Program.stdEntry?_eq_entryInteger?]
          cases p.entryInteger? x none with
          | some value => rfl
          | none => exact (hget _ s).trans (by rw [render_instr x])
  | call o callee args =>
      rw [Expr.instr, Expr.listed, Instr.render_node (by decide) (by decide), Instr.renderAll,
        render_instr callee, renderAll_instrs args]
      rfl
  | syscall o text args => rw [Expr.instr, Expr.listed, Instr.render, renderAll_instrs args]
  | object o keys values =>
      rw [Expr.instr, Expr.listed, Instr.render_node (by decide) (by decide),
        Program.renderAll_interleave, renderAll_instrs values]
      rfl
  | binary o op a b =>
      rw [Expr.instr, Expr.listed, op.render_node]
      simp only [Instr.renderAll, render_instr a, render_instr b]
  | unary o op a =>
      rw [Expr.instr, Expr.listed, op.render_node]
      simp only [Instr.renderAll, render_instr a]

theorem Expr.renderAll_instrs (es : List Expr) :
    Instr.renderAll (Expr.instrs p.coding es) = Expr.listedAll p es := by
  cases es with
  | nil => simp only [Expr.instrs, Instr.renderAll, Expr.listedAll]
  | cons e rest =>
      rw [Expr.instrs, Instr.renderAll, Expr.listedAll, render_instr e, renderAll_instrs rest]

end

theorem Stmt.instr?_eq_none_iff (c : Coding) (s : Stmt) :
    s.instr? c = none ↔ s.isSilent = true := by
  cases s <;> simp [Stmt.instr?, Stmt.isSilent]

theorem Instr.renderAll_append (a b : List Instr) :
    renderAll (a ++ b) = renderAll a ++ renderAll b := by
  simp only [renderAll_eq_map, List.map_append]

mutual

theorem Stmt.render_instr? (s : Stmt) {i : Instr} (h : s.instr? p.coding = some i) :
    i.render = s.listed p := by
  cases s with
  | import_ o q path => cases h
  | enum o text es => cases h
  | retain o texts => cases h
  | let_ o text s value usage =>
      cases h
      rw [Stmt.listed, Instr.render_node (by decide) (by decide)]
      simp only [Instr.renderAll, Program.render_operand, Expr.render_instr]
      rfl
  | fn o text s params bo body usage =>
      cases h
      have hparams : Instr.renderAll (params.map fun q => p.coding.operand q.symbol) =
          params.map fun q => p.operandText q.symbol := by
        have hsymbols := Program.renderAll_operands (p := p) (params.map Param.symbol)
        rwa [List.map_map, List.map_map] at hsymbols
      rw [Stmt.listed, Instr.render_node (by decide) (by decide)]
      simp only [Instr.renderAll, Program.render_operand, Instr.render_func, hparams,
        Instr.render_block, renderAll_instrs body]
      rfl
  | return_ o value =>
      cases h
      cases value with
      | none => rfl
      | some x =>
          rw [Stmt.listed, Instr.render_node (by decide) (by decide)]
          simp only [Option.map_some, Option.getD_some, Instr.renderAll, Expr.render_instr]
          rfl
  | if_ o condition b then_ else_ =>
      cases h
      rw [Stmt.listed, Instr.render_node (by decide) (by decide)]
      simp only [Instr.renderAll, Expr.render_instr, Instr.render_block, renderAll_instrs then_,
        render_elseInstr else_]
      rfl
  | block o body =>
      cases h
      rw [Stmt.listed, Instr.render_block, renderAll_instrs body]
  | assign o text s value usage =>
      cases h
      rw [Stmt.listed, Instr.render_node (by decide) (by decide)]
      simp only [Instr.renderAll, Program.render_operand, Expr.render_instr]
      rfl
  | setMember o target s value =>
      cases h
      rw [Stmt.listed, Instr.render_node (by decide) (by decide)]
      simp only [Instr.renderAll, Program.render_operand, Expr.render_instr]
      rfl
  | expr x =>
      cases h
      rw [Stmt.listed, Instr.render_node (by decide) (by decide)]
      simp only [Instr.renderAll, Expr.render_instr]
      rfl

/-- The code of statements is shown as their lines. -/
theorem Stmt.renderAll_instrs (ss : List Stmt) :
    Instr.renderAll (Stmt.instrs p.coding ss) = Stmt.listedAll p ss := by
  cases ss with
  | nil => simp only [Stmt.instrs, Instr.renderAll, Stmt.listedAll]
  | cons s rest =>
      rw [Stmt.instrs, Instr.renderAll_append, renderAll_instrs rest, Stmt.listedAll]
      have hsilent := Stmt.instr?_eq_none_iff p.coding s
      cases hs : s.instr? p.coding with
      | none =>
          rw [if_pos (hsilent.mp hs)]
          simp [Instr.renderAll]
      | some i =>
          have hspeaks : ¬s.isSilent = true := fun h => by simp [hsilent.mpr h] at hs
          rw [if_neg hspeaks]
          simp [Instr.renderAll, render_instr? s hs]

theorem Stmt.render_elseInstr (e : Option Stmt) :
    (Stmt.elseInstr p.coding e).render = Stmt.listedElse p e := by
  cases e with
  | none => simp only [Stmt.elseInstr, Stmt.listedElse, Instr.render_block, Instr.renderAll]
  | some s =>
      rw [Stmt.elseInstr, Stmt.listedElse]
      have hsilent := Stmt.instr?_eq_none_iff p.coding s
      cases hs : s.instr? p.coding with
      | none =>
          rw [if_pos (hsilent.mp hs), Option.getD_none, Instr.render_block, Instr.renderAll]
      | some i =>
          have hspeaks : ¬s.isSilent = true := fun h => by simp [hsilent.mpr h] at hs
          rw [if_neg hspeaks, Option.getD_some]
          exact render_instr? s hs

end

/-- Machine calls are named without line ends. -/
def Expr.CallInLine (xs : List Expr) : Prop :=
  ∀ o text args, Expr.syscall o text args ∈ xs → Text.IsLine text

variable {p}

theorem Expr.CallInLine.mono {xs ys : List Expr} (h : CallInLine xs) (hsub : ys ⊆ xs) :
    CallInLine ys :=
  fun o text args hmem => h o text args (hsub hmem)

theorem Expr.callInLine_append {xs ys : List Expr} :
    CallInLine (xs ++ ys) ↔ CallInLine xs ∧ CallInLine ys := by
  constructor
  · intro h
    exact ⟨h.mono (List.subset_append_left _ _), h.mono (List.subset_append_right _ _)⟩
  · rintro ⟨h, h'⟩ o text args hmem
    rcases List.mem_append.mp hmem with hmem | hmem
    · exact h o text args hmem
    · exact h' o text args hmem

namespace Program

theorem isLine_operandText (s : SymbolId) : Text.IsLine (p.operandText s) := by
  unfold operandText
  split
  · exact Text.isLine_ofInt64 _
  · exact Text.isLine_quote _

theorem isLine_loadText (r : ReferenceId) : Text.IsLine (p.loadText r) := by
  unfold loadText
  split
  · exact Instr.isLine_parenthesised (by decide) (by simp [isLine_operandText])
  · decide

theorem isLine_readText (read : NameRead) : Text.IsLine (p.readText read) := by
  cases read with
  | own s usage => exact Instr.isLine_parenthesised (by decide) (by simp [isLine_operandText])
  | std r record => exact isLine_loadText r
  | unbound => exact (by decide : Text.IsLine "nil")

theorem isLine_fieldTexts {keys : List SymbolId} {values : List Text}
    (h : ∀ t ∈ values, Text.IsLine t) : ∀ t ∈ p.fieldTexts keys values, Text.IsLine t := by
  intro t ht
  obtain ⟨⟨k, v⟩, hpair, ht⟩ := List.mem_flatMap.mp ht
  rcases List.mem_cons.mp ht with rfl | ht
  · exact isLine_operandText k
  · rw [List.mem_singleton.mp ht]
    exact h v (List.of_mem_zip hpair).2

end Program

mutual

theorem Expr.isLine_listed (e : Expr) (h : CallInLine e.nodes) : Text.IsLine (e.listed p) := by
  have hget : ∀ t s, Text.IsLine t →
      Text.IsLine (Instr.parenthesised "get" [t, p.operandText s]) := by
    intro t s ht
    exact Instr.isLine_parenthesised (by decide) (by simp [ht, Program.isLine_operandText])
  cases e with
  | number o v => rw [Expr.listed]; exact Text.isLine_ofInt64 v
  | string o v => rw [Expr.listed]; exact Text.isLine_quote v
  | bool o v => cases v <;> (rw [Expr.listed]; decide)
  | nil o => rw [Expr.listed]; decide
  | name o text read => rw [Expr.listed]; exact Program.isLine_readText read
  | imported o r m record =>
      simp only [Expr.listed]
      split
      · exact Text.isLine_ofInt64 _
      · split
        · exact hget _ _ (Program.isLine_loadText r)
        · exact Program.isLine_loadText r
  | member o x text s entry =>
      simp only [Expr.listed]
      split
      · exact Text.isLine_ofInt64 _
      · exact hget _ s (isLine_listed x (h.mono (List.subset_cons_self _ _)))
  | call o callee args =>
      have hparts := callInLine_append.mp (h.mono (List.subset_cons_self _ _))
      rw [Expr.listed]
      apply Instr.isLine_parenthesised (by decide)
      exact List.forall_mem_cons.mpr ⟨isLine_listed callee hparts.1, isLine_listedAll args hparts.2⟩
  | syscall o text args =>
      rw [Expr.listed]
      apply Instr.isLine_parenthesised (by decide)
      exact List.forall_mem_cons.mpr ⟨h o text args List.mem_cons_self,
        isLine_listedAll args (h.mono (List.subset_cons_self _ _))⟩
  | object o keys values =>
      rw [Expr.listed]
      apply Instr.isLine_parenthesised (by decide)
      exact Program.isLine_fieldTexts
        (isLine_listedAll values (h.mono (List.subset_cons_self _ _)))
  | binary o op a b =>
      have hparts := callInLine_append.mp (h.mono (List.subset_cons_self _ _))
      rw [Expr.listed]
      apply Instr.isLine_parenthesised (by cases op <;> decide)
      simp [isLine_listed a hparts.1, isLine_listed b hparts.2]
  | unary o op a =>
      rw [Expr.listed]
      apply Instr.isLine_parenthesised (by cases op <;> decide)
      simp [isLine_listed a (h.mono (List.subset_cons_self _ _))]

theorem Expr.isLine_listedAll (es : List Expr) (h : CallInLine (Expr.nodesOfAll es)) :
    ∀ t ∈ Expr.listedAll p es, Text.IsLine t := by
  cases es with
  | nil => rw [Expr.listedAll]; exact nofun
  | cons e rest =>
      have hparts := callInLine_append.mp h
      rw [Expr.listedAll]
      exact List.forall_mem_cons.mpr ⟨isLine_listed e hparts.1, isLine_listedAll rest hparts.2⟩

end

theorem Instr.isLine_block {lines : List Text} (h : ∀ t ∈ lines, Text.IsLine t) :
    Text.IsLine (parenthesised "block" lines) :=
  isLine_parenthesised (by decide) h

mutual

theorem Stmt.isLine_listed (s : Stmt) (h : Expr.CallInLine s.exprs) :
    Text.IsLine (s.listed p) := by
  have hsymbol := Program.isLine_operandText (p := p)
  cases s with
  | import_ o q path => simp [Stmt.listed]
  | enum o text es => simp [Stmt.listed]
  | retain o texts => simp [Stmt.listed]
  | let_ o text s value usage =>
      rw [Stmt.exprs_let] at h
      rw [Stmt.listed]
      exact Instr.isLine_parenthesised (by decide) (by simp [hsymbol, Expr.isLine_listed value h])
  | fn o text s params bo body usage =>
      have hparams : Text.IsLine
          ("(" ++ Text.join " " (params.map fun q => p.operandText q.symbol) ++ ")") := by
        rw [Text.isLine_append, Text.isLine_append]
        refine ⟨⟨by decide, Text.isLine_join (by decide) ?_⟩, by decide⟩
        intro t ht
        obtain ⟨q, -, rfl⟩ := List.mem_map.mp ht
        exact hsymbol q.symbol
      have hbody := Instr.isLine_block (isLine_listedAll body h)
      have hhead : Text.IsLine "fn" := by decide
      have hfn := Instr.isLine_parenthesised hhead
        (List.forall_mem_cons.mpr ⟨hparams, List.forall_mem_singleton.mpr hbody⟩)
      rw [Stmt.listed]
      exact Instr.isLine_parenthesised (by decide)
        (List.forall_mem_cons.mpr ⟨hsymbol s, List.forall_mem_singleton.mpr hfn⟩)
  | return_ o value =>
      cases value with
      | none => rw [Stmt.listed]; decide
      | some x =>
          rw [Stmt.exprs_return] at h
          rw [Stmt.listed]
          exact Instr.isLine_parenthesised (by decide) (by simp [Expr.isLine_listed x h])
  | if_ o condition b then_ else_ =>
      rw [Stmt.exprs_if, Expr.callInLine_append, Expr.callInLine_append] at h
      have hthen := Instr.isLine_block (isLine_listedAll then_ h.2.1)
      rw [Stmt.listed]
      exact Instr.isLine_parenthesised (by decide) (by
        simp [Expr.isLine_listed condition h.1, hthen, isLine_listedElse else_ h.2.2])
  | block o body =>
      rw [Stmt.listed]
      exact Instr.isLine_block (isLine_listedAll body h)
  | assign o text s value usage =>
      rw [Stmt.exprs_assign] at h
      rw [Stmt.listed]
      exact Instr.isLine_parenthesised (by decide) (by simp [hsymbol, Expr.isLine_listed value h])
  | setMember o target s value =>
      rw [Stmt.exprs_setMember, Expr.callInLine_append] at h
      rw [Stmt.listed]
      exact Instr.isLine_parenthesised (by decide) (by
        simp [hsymbol, Expr.isLine_listed target h.1, Expr.isLine_listed value h.2])
  | expr x =>
      rw [Stmt.exprs_expr] at h
      rw [Stmt.listed]
      exact Instr.isLine_parenthesised (by decide) (by simp [Expr.isLine_listed x h])

/-- Each statement has one line. -/
theorem Stmt.isLine_listedAll (ss : List Stmt) (h : Expr.CallInLine (Stmt.exprsOfAll ss)) :
    ∀ t ∈ Stmt.listedAll p ss, Text.IsLine t := by
  cases ss with
  | nil => rw [Stmt.listedAll]; exact nofun
  | cons s rest =>
      rw [Stmt.exprsOfAll_cons, Expr.callInLine_append] at h
      rw [Stmt.listedAll]
      split
      · exact isLine_listedAll rest h.2
      · exact List.forall_mem_cons.mpr ⟨isLine_listed s h.1, isLine_listedAll rest h.2⟩

theorem Stmt.isLine_listedElse (e : Option Stmt) (h : Expr.CallInLine (Stmt.exprsOfElse e)) :
    Text.IsLine (Stmt.listedElse p e) := by
  cases e with
  | none => rw [Stmt.listedElse]; decide
  | some s =>
      rw [Stmt.listedElse]
      split
      · decide
      · exact isLine_listed s h

end

end

end Splice

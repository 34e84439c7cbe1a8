import Splice.Proofs.Action
import Splice.Proofs.Code.RoundTrip
import Splice.Proofs.Program.Basic
import Splice.Tree.Generate

/-!
# The code of a tree

What is generated for a tree depends on two things only: what its symbols are
written as, and what its references denote (`Coding`).  `Expr.instr` and
`Stmt.instr?` give the instructions as functions of these, and generation, when it
succeeds, comes out with them.  On the way it marks entries of enums as used and
changes nothing else.
-/

namespace Splice

/-- Operands stand for symbols; they are numbers or texts. -/
def Instr.isAtom : Instr → Bool
  | number _ => true
  | string _ => true
  | _ => false

/-- What symbols are written as and what references denote. -/
structure Coding where
  operand : SymbolId → Instr
  isAtom : ∀ s, (operand s).isAtom = true
  resolution : ReferenceId → Resolution

theorem Symbol.isAtom_operand (s : Symbol) : s.operand.isAtom = true := by
  unfold Symbol.operand
  split <;> rfl

def Program.coding (p : Program) : Coding where
  operand := p.operand
  isAtom s := (p.symbol s).isAtom_operand
  resolution r := (p.reference r).resolution

namespace Coding

/-- A load of what a reference denotes; only values are loaded. -/
def load (c : Coding) (r : ReferenceId) : Instr :=
  match c.resolution r with
  | .value s => .node .load [c.operand s]
  | _ => .nil

def name (c : Coding) : NameRead → Instr
  | .own s _ => .node .load [c.operand s]
  | .std r _ => c.load r
  | .unbound => .nil

def stdEntry? (c : Coding) : Expr → Option Int64
  | .name _ _ (.std r _) =>
      match c.resolution r with
      | .entry _ _ _ value => some value
      | _ => none
  | _ => none

end Coding

namespace Expr

mutual

def instr (c : Coding) : Expr → Instr
  | number _ v => .number v
  | string _ v => .string v
  | bool _ v => .bool v
  | nil _ => .nil
  | name _ _ read => c.name read
  | imported _ r m _ =>
      match c.resolution r with
      | .entry _ _ _ value => .number value
      | _ =>
          match m with
          | some s => .node .get [c.load r, c.operand s]
          | none => c.load r
  | member _ x _ s entry =>
      match entry with
      | some e => .number e.value
      | none =>
          match c.stdEntry? x with
          | some value => .number value
          | none => .node .get [instr c x, c.operand s]
  | call _ callee args => .node .call (instr c callee :: instrs c args)
  | syscall _ text args => .syscall text (instrs c args)
  | object _ keys values =>
      .node .object (Program.interleave (keys.map c.operand) (instrs c values))
  | binary _ op left right => .node op.opcode [instr c left, instr c right]
  | unary _ op x => .node op.opcode [instr c x]

def instrs (c : Coding) : List Expr → List Instr
  | [] => []
  | e :: rest => instr c e :: instrs c rest

end

end Expr

namespace Stmt

mutual

def instr? (c : Coding) : Stmt → Option Instr
  | import_ _ _ _ => none
  | enum _ _ _ => none
  | retain _ _ => none
  | let_ _ _ s value _ => some (.node .define [c.operand s, value.instr c])
  | fn _ _ s params _ body _ =>
      some (.node .define [c.operand s,
        .node .func (params.map (fun q => c.operand q.symbol) ++ [.block (instrs c body)])])
  | return_ _ value => some (.node .return_ [(value.map (Expr.instr c)).getD .nil])
  | if_ _ condition _ then_ else_ =>
      some (.node .branch [condition.instr c, .block (instrs c then_), elseInstr c else_])
  | block _ body => some (.block (instrs c body))
  | assign _ _ s value _ => some (.node .store [c.operand s, value.instr c])
  | setMember _ target s value =>
      some (.node .set [target.instr c, c.operand s, value.instr c])
  | expr x => some (.node .pop [x.instr c])

def instrs (c : Coding) : List Stmt → List Instr
  | [] => []
  | s :: rest => (instr? c s).toList ++ instrs c rest

def elseInstr (c : Coding) : Option Stmt → Instr
  | none => .block []
  | some s => (instr? c s).getD (.block [])

end

end Stmt

/-! ## Generation comes out with them -/

namespace Program

variable {p p' p'' : Program} {n : NamespaceId}

structure SameCoding (p p' : Program) : Prop where
  symbols : p'.symbols = p.symbols
  references : p'.references = p.references
  size : p'.namespaces.size = p.namespaces.size
  id : ∀ n, (p'.spaceAt n).id = (p.spaceAt n).id
  unit : ∀ n, (p'.spaceAt n).unit = (p.spaceAt n).unit
  enums : ∀ n, (p'.spaceAt n).enums = (p.spaceAt n).enums

theorem SameCoding.refl (p : Program) : SameCoding p p := by
  constructor <;> simp

theorem SameCoding.trans (h : SameCoding p p') (h' : SameCoding p' p'') : SameCoding p p'' where
  symbols := h'.symbols.trans h.symbols
  references := h'.references.trans h.references
  size := h'.size.trans h.size
  id n := (h'.id n).trans (h.id n)
  unit n := (h'.unit n).trans (h.unit n)
  enums n := (h'.enums n).trans (h.enums n)

theorem SameCoding.operand (h : SameCoding p p') (s : SymbolId) : p'.operand s = p.operand s := by
  rw [Program.operand, Program.operand, symbol, symbol, h.symbols]

theorem SameCoding.reference (h : SameCoding p p') (r : ReferenceId) :
    p'.reference r = p.reference r := by
  rw [Program.reference, Program.reference, h.references]

theorem SameCoding.coding (h : SameCoding p p') : p'.coding = p.coding := by
  have hoperand : p'.operand = p.operand := funext h.operand
  have hresolution : (fun r => (p'.reference r).resolution) =
      fun r => (p.reference r).resolution := by
    funext r
    rw [h.reference]
  simp only [Program.coding, hoperand, hresolution]

theorem sameCoding_modifySpace (p : Program) (n : NamespaceId) (f : Namespace → Namespace)
    (hid : ∀ ns, (f ns).id = ns.id) (hunit : ∀ ns, (f ns).unit = ns.unit)
    (henums : ∀ ns, (f ns).enums = ns.enums) : SameCoding p (p.modifySpace n f) where
  symbols := rfl
  references := rfl
  size := size_modifySpace f
  id m := spaceAt_modifySpace_same p n m f Namespace.id hid
  unit m := spaceAt_modifySpace_same p n m f Namespace.unit hunit
  enums m := spaceAt_modifySpace_same p n m f Namespace.enums henums

theorem sameCoding_markEntryUsed (p : Program) (n : NamespaceId) (enum entry : Text) :
    SameCoding p (p.markEntryUsed n enum entry) :=
  sameCoding_modifySpace p n _ (fun _ => rfl) (fun _ => rfl) fun _ => rfl

theorem yields_entryValue (space enum entry : Text) (value : Int64) :
    Yields (entryValue space enum entry value) p fun i p' =>
      i = .number value ∧ SameCoding p p' := by
  simp only [entryValue, yields_bind, yields_get]
  split
  · simp only [yields_bind, yields_set, yields_pure]
    exact ⟨trivial, sameCoding_markEntryUsed p _ _ _⟩
  · simp only [yields_pure]
    exact ⟨trivial, SameCoding.refl p⟩

theorem yields_referenceValue (r : ReferenceId) :
    Yields (referenceValue n r) p fun i p' => i = p.coding.load r ∧ p' = p := by
  simp only [referenceValue, yields_bind, yields_get]
  split
  · next s hs =>
      simp only [yields_pure]
      refine ⟨?_, trivial⟩
      simp only [Coding.load, coding, hs]
  · simp

theorem yields_nameValue (read : NameRead) :
    Yields (nameValue n read) p fun i p' => i = p.coding.name read ∧ p' = p := by
  cases read with
  | unbound => simp [nameValue]
  | own s usage =>
      cases usage with
      | none => simp [nameValue]
      | some u =>
          simp only [nameValue, yields_bind, yields_get, yields_pure]
          exact ⟨rfl, trivial⟩
  | std r record => exact yields_referenceValue r

theorem stdRead?_eq (p : Program) (x : Expr) :
    (p.stdRead? x).map (·.2.2.2) = p.coding.stdEntry? x := by
  cases x with
  | name o text read =>
      cases read with
      | unbound => rfl
      | own s usage => rfl
      | std r record =>
          simp only [stdRead?, Coding.stdEntry?, coding]
          cases (p.reference r).resolution <;> rfl
  | _ => rfl

mutual

theorem yields_generateExpr (e : Expr) {p : Program} :
    Yields (generateExpr n e) p fun i p' => i = e.instr p.coding ∧ SameCoding p p' := by
  have hrefl := SameCoding.refl p
  cases e with
  | number o v => simpa only [generateExpr, Expr.instr, yields_pure, true_and] using hrefl
  | string o v => simpa only [generateExpr, Expr.instr, yields_pure, true_and] using hrefl
  | bool o v => simpa only [generateExpr, Expr.instr, yields_pure, true_and] using hrefl
  | nil o => simpa only [generateExpr, Expr.instr, yields_pure, true_and] using hrefl
  | name o text read =>
      rw [generateExpr, Expr.instr]
      refine (yields_nameValue read).mono ?_
      rintro i p' ⟨hi, rfl⟩
      exact ⟨hi, hrefl⟩
  | imported o r m record =>
      simp only [generateExpr, Expr.instr, yields_bind, yields_get]
      cases hr : (p.reference r).resolution with
      | entry space enum text value =>
          simp only [coding, hr]
          exact yields_entryValue space enum text value
      | unresolved =>
          simp only [referenceValue, yields_bind, yields_get, hr, yields_throw]
      | value s =>
          simp only [coding, hr, yields_bind]
          refine (yields_referenceValue r).mono ?_
          rintro i p' ⟨rfl, rfl⟩
          cases m with
          | none => simpa only [yields_pure] using ⟨rfl, hrefl⟩
          | some q =>
              simp only [yields_bind, yields_get, yields_pure]
              exact ⟨rfl, hrefl⟩
  | member o x text s entry =>
      simp only [generateExpr, Expr.instr]
      cases entry with
      | some e =>
          simp only [yields_bind, yields_modify, yields_pure]
          exact ⟨trivial, sameCoding_markEntryUsed p _ _ _⟩
      | none =>
          simp only [yields_bind, yields_get]
          have hstd := stdRead?_eq p x
          cases hread : p.stdRead? x with
          | some entry =>
              obtain ⟨space, enum, text, value⟩ := entry
              rw [hread, Option.map_some] at hstd
              simp only [← hstd]
              exact yields_entryValue space enum text value
          | none =>
              rw [hread, Option.map_none] at hstd
              simp only [← hstd, yields_bind]
              refine (yields_generateExpr x).mono ?_
              rintro i p' ⟨rfl, hsame⟩
              simp only [yields_get, yields_pure, hsame.operand]
              exact ⟨rfl, hsame⟩
  | call o callee args =>
      simp only [generateExpr, Expr.instr, yields_bind]
      refine (yields_generateExpr callee).mono ?_
      rintro i p' ⟨rfl, hsame⟩
      refine (yields_generateExprs args).mono ?_
      rintro is p'' ⟨rfl, hsame'⟩
      simp only [yields_pure, hsame.coding]
      exact ⟨trivial, hsame.trans hsame'⟩
  | syscall o text args =>
      simp only [generateExpr, Expr.instr, yields_bind]
      refine (yields_generateExprs args).mono ?_
      rintro is p' ⟨rfl, hsame⟩
      simp only [yields_pure]
      exact ⟨trivial, hsame⟩
  | object o keys values =>
      simp only [generateExpr, Expr.instr, yields_bind]
      refine (yields_generateExprs values).mono ?_
      rintro is p' ⟨rfl, hsame⟩
      simp only [yields_get, yields_pure]
      refine ⟨?_, hsame⟩
      rw [show p'.operand = p.operand from funext hsame.operand]
      rfl
  | binary o op left right =>
      simp only [generateExpr, Expr.instr, yields_bind]
      refine (yields_generateExpr left).mono ?_
      rintro i p' ⟨rfl, hsame⟩
      refine (yields_generateExpr right).mono ?_
      rintro j p'' ⟨rfl, hsame'⟩
      simp only [yields_pure, hsame.coding]
      exact ⟨trivial, hsame.trans hsame'⟩
  | unary o op x =>
      simp only [generateExpr, Expr.instr, yields_bind]
      refine (yields_generateExpr x).mono ?_
      rintro i p' ⟨rfl, hsame⟩
      simp only [yields_pure]
      exact ⟨trivial, hsame⟩

theorem yields_generateExprs (es : List Expr) {p : Program} :
    Yields (generateExprs n es) p fun is p' =>
      is = Expr.instrs p.coding es ∧ SameCoding p p' := by
  cases es with
  | nil => simpa only [generateExprs, Expr.instrs, yields_pure, true_and] using SameCoding.refl p
  | cons e rest =>
      simp only [generateExprs, Expr.instrs, yields_bind]
      refine (yields_generateExpr e).mono ?_
      rintro i p' ⟨rfl, hsame⟩
      refine (yields_generateExprs rest).mono ?_
      rintro is p'' ⟨rfl, hsame'⟩
      simp only [yields_pure, hsame.coding]
      exact ⟨trivial, hsame.trans hsame'⟩

end

mutual

theorem yields_generateStmt (s : Stmt) {p : Program} :
    Yields (generateStmt n s) p fun i p' => i = s.instr? p.coding ∧ SameCoding p p' := by
  have hrefl := SameCoding.refl p
  cases s with
  | import_ o q path => simpa only [generateStmt, Stmt.instr?, yields_pure, true_and] using hrefl
  | enum o text es => simpa only [generateStmt, Stmt.instr?, yields_pure, true_and] using hrefl
  | retain o texts => simpa only [generateStmt, Stmt.instr?, yields_pure, true_and] using hrefl
  | let_ o text s value usage =>
      simp only [generateStmt, Stmt.instr?, yields_bind]
      refine (yields_generateExpr value).mono ?_
      rintro i p' ⟨rfl, hsame⟩
      simp only [yields_get, yields_pure, hsame.operand]
      exact ⟨rfl, hsame⟩
  | fn o text s params bo body usage =>
      simp only [generateStmt, Stmt.instr?, yields_bind]
      refine (yields_generateStmts body).mono ?_
      rintro is p' ⟨rfl, hsame⟩
      simp only [yields_get, yields_pure, hsame.operand]
      exact ⟨rfl, hsame⟩
  | assign o text s value usage =>
      simp only [generateStmt, Stmt.instr?, yields_bind]
      refine (yields_generateExpr value).mono ?_
      rintro i p' ⟨rfl, hsame⟩
      simp only [yields_get, yields_pure, hsame.operand]
      exact ⟨rfl, hsame⟩
  | setMember o target s value =>
      simp only [generateStmt, Stmt.instr?, yields_bind]
      refine (yields_generateExpr target).mono ?_
      rintro i p' ⟨rfl, hsame⟩
      refine (yields_generateExpr value).mono ?_
      rintro j p'' ⟨rfl, hsame'⟩
      have hboth := hsame.trans hsame'
      simp only [yields_get, yields_pure, hsame.coding, hboth.operand]
      exact ⟨rfl, hboth⟩
  | return_ o value =>
      simp only [generateStmt, Stmt.instr?, yields_bind]
      cases value with
      | none =>
          simp only [generateReturn, yields_pure]
          exact ⟨rfl, hrefl⟩
      | some x =>
          simp only [generateReturn, yields_bind]
          refine (yields_generateExpr x).mono ?_
          rintro i p' ⟨rfl, hsame⟩
          simp only [yields_pure]
          exact ⟨rfl, hsame⟩
  | if_ o condition b then_ else_ =>
      simp only [generateStmt, Stmt.instr?, yields_bind]
      refine (yields_generateExpr condition).mono ?_
      rintro i p₁ ⟨rfl, hsame₁⟩
      refine (yields_generateStmts then_).mono ?_
      rintro is p₂ ⟨rfl, hsame₂⟩
      refine (yields_generateElse else_).mono ?_
      rintro j p₃ ⟨rfl, hsame₃⟩
      simp only [yields_pure, hsame₂.coding, hsame₁.coding]
      exact ⟨trivial, (hsame₁.trans hsame₂).trans hsame₃⟩
  | block o body =>
      simp only [generateStmt, Stmt.instr?, yields_bind]
      refine (yields_generateStmts body).mono ?_
      rintro is p' ⟨rfl, hsame⟩
      simp only [yields_pure]
      exact ⟨trivial, hsame⟩
  | expr x =>
      simp only [generateStmt, Stmt.instr?, yields_bind]
      refine (yields_generateExpr x).mono ?_
      rintro i p' ⟨rfl, hsame⟩
      simp only [yields_pure]
      exact ⟨trivial, hsame⟩

theorem yields_generateStmts (ss : List Stmt) {p : Program} :
    Yields (generateStmts n ss) p fun is p' =>
      is = Stmt.instrs p.coding ss ∧ SameCoding p p' := by
  cases ss with
  | nil => simpa only [generateStmts, Stmt.instrs, yields_pure, true_and] using SameCoding.refl p
  | cons s rest =>
      simp only [generateStmts, Stmt.instrs, yields_bind]
      refine (yields_generateStmt s).mono ?_
      rintro i p' ⟨rfl, hsame⟩
      refine (yields_generateStmts rest).mono ?_
      rintro is p'' ⟨rfl, hsame'⟩
      simp only [yields_pure, hsame.coding]
      exact ⟨trivial, hsame.trans hsame'⟩

theorem yields_generateElse (e : Option Stmt) {p : Program} :
    Yields (generateElse n e) p fun i p' =>
      i = Stmt.elseInstr p.coding e ∧ SameCoding p p' := by
  cases e with
  | none => simpa only [generateElse, Stmt.elseInstr, yields_pure, true_and] using SameCoding.refl p
  | some s =>
      simp only [generateElse, Stmt.elseInstr, yields_bind]
      refine (yields_generateStmt s).mono ?_
      rintro i p' ⟨rfl, hsame⟩
      simp only [yields_pure]
      exact ⟨trivial, hsame⟩

end

theorem yields_generateTree (t : Tree) :
    Yields (generateTree t) p fun is p' =>
      is = Stmt.instrs p.coding t.statements ∧ SameCoding p p' := by
  simp only [generateTree, yields_bind]
  refine (yields_generateStmts t.statements).mono ?_
  rintro is p₁ ⟨rfl, hsame⟩
  simp only [advance, yields_bind, yields_get]
  split
  · simp
  · simp only [yields_set, yields_pure]
    exact ⟨trivial, hsame.trans
      (sameCoding_modifySpace p₁ _ _ (fun _ => rfl) (fun _ => rfl) fun _ => rfl)⟩

end Program

theorem Instr.isWellShaped_of_isAtom {i : Instr} (h : i.isAtom = true) : i.isWellShaped = true := by
  cases i with
  | number n => rfl
  | string t => rfl
  | enum name value => cases h
  | syscall name args => cases h
  | node op operands => cases h

theorem Coding.areWellShaped_operands (c : Coding) (ss : List SymbolId) :
    Instr.areWellShaped (ss.map c.operand) = true := by
  induction ss with
  | nil => rfl
  | cons s rest ih =>
      simp only [List.map_cons, Instr.areWellShaped, ih, Bool.and_true]
      exact Instr.isWellShaped_of_isAtom (c.isAtom s)

theorem Program.areWellShaped_interleave {ks vs : List Instr}
    (hks : Instr.areWellShaped ks = true) (hvs : Instr.areWellShaped vs = true) :
    Instr.areWellShaped (interleave ks vs) = true ∧ (interleave ks vs).length % 2 = 0 := by
  induction ks generalizing vs with
  | nil => simp [interleave, Instr.areWellShaped]
  | cons k ks ih =>
      cases vs with
      | nil => simp [interleave, Instr.areWellShaped]
      | cons v vs =>
          simp only [Instr.areWellShaped, Bool.and_eq_true] at hks hvs
          obtain ⟨hshape, hlength⟩ := ih hks.2 hvs.2
          simp only [interleave, Instr.areWellShaped, hks.1, hvs.1, hshape, List.length_cons]
          refine ⟨rfl, ?_⟩
          omega

theorem BinaryOp.shape_opcode (op : BinaryOp) : op.opcode.shape = .fixed 2 := by
  cases op <;> rfl

theorem UnaryOp.shape_opcode (op : UnaryOp) : op.opcode.shape = .fixed 1 := by
  cases op <;> rfl

section

variable (c : Coding)

theorem Coding.isWellShaped_operand (s : SymbolId) : (c.operand s).isWellShaped = true :=
  Instr.isWellShaped_of_isAtom (c.isAtom s)

theorem Coding.isWellShaped_load (r : ReferenceId) : (c.load r).isWellShaped = true := by
  rw [load]
  split
  · simp [Instr.isWellShaped, Instr.areWellShaped, Opcode.shape, isWellShaped_operand]
  · rfl

theorem Coding.isWellShaped_name (read : NameRead) : (c.name read).isWellShaped = true := by
  cases read with
  | own s usage =>
      simp [name, Instr.isWellShaped, Instr.areWellShaped, Opcode.shape, isWellShaped_operand]
  | std r record => exact c.isWellShaped_load r
  | unbound => rfl

mutual

theorem Expr.isWellShaped_instr (e : Expr) : (e.instr c).isWellShaped = true := by
  cases e with
  | number o v => rfl
  | string o v => rfl
  | bool o v => cases v <;> rfl
  | nil o => rfl
  | name o text read => exact c.isWellShaped_name read
  | imported o r m record =>
      simp only [Expr.instr]
      split
      · rfl
      · cases m with
        | none => exact c.isWellShaped_load r
        | some s =>
            simp [Instr.isWellShaped, Instr.areWellShaped, Opcode.shape, c.isWellShaped_operand,
              c.isWellShaped_load]
  | member o x text s entry =>
      simp only [Expr.instr]
      split
      · rfl
      · split
        · rfl
        · simp [Instr.isWellShaped, Instr.areWellShaped, Opcode.shape, c.isWellShaped_operand,
            isWellShaped_instr x]
  | call o callee args =>
      simp [Expr.instr, Instr.isWellShaped, Instr.areWellShaped, Opcode.shape, Nat.mod_one,
        isWellShaped_instr callee, areWellShaped_instrs args]
  | syscall o text args =>
      simp [Expr.instr, Instr.isWellShaped, areWellShaped_instrs args]
  | object o keys values =>
      have hparts := Program.areWellShaped_interleave (c.areWellShaped_operands keys)
        (areWellShaped_instrs values)
      simp [Expr.instr, Instr.isWellShaped, Opcode.shape, hparts.1, hparts.2]
  | binary o op left right =>
      simp [Expr.instr, Instr.isWellShaped, Instr.areWellShaped, op.shape_opcode,
        isWellShaped_instr left, isWellShaped_instr right]
  | unary o op x =>
      simp [Expr.instr, Instr.isWellShaped, Instr.areWellShaped, op.shape_opcode,
        isWellShaped_instr x]

theorem Expr.areWellShaped_instrs (es : List Expr) :
    Instr.areWellShaped (Expr.instrs c es) = true := by
  cases es with
  | nil => rfl
  | cons e rest =>
      simp [Expr.instrs, Instr.areWellShaped, isWellShaped_instr e, areWellShaped_instrs rest]

end

theorem Instr.isWellShaped_block {is : List Instr} (h : areWellShaped is = true) :
    (Instr.block is).isWellShaped = true := by
  simp [block, isWellShaped, Opcode.shape, Nat.mod_one, h]

mutual

theorem Stmt.isWellShaped_instr? (s : Stmt) {i : Instr} (h : s.instr? c = some i) :
    i.isWellShaped = true := by
  cases s with
  | import_ o q path => cases h
  | enum o text es => cases h
  | retain o texts => cases h
  | let_ o text s value usage =>
      cases h
      simp [Instr.isWellShaped, Instr.areWellShaped, Opcode.shape, c.isWellShaped_operand,
        Expr.isWellShaped_instr]
  | fn o text s params bo body usage =>
      cases h
      have hparams : Instr.areWellShaped (params.map fun q => c.operand q.symbol) = true := by
        simpa [Function.comp_def] using c.areWellShaped_operands (params.map Param.symbol)
      have hbody := Instr.isWellShaped_block (areWellShaped_instrs body)
      simp [Instr.isWellShaped, Instr.areWellShaped, Opcode.shape, c.isWellShaped_operand,
        Instr.areWellShaped_append, Nat.mod_one, hparams, hbody]
  | return_ o value =>
      cases h
      cases value with
      | none => rfl
      | some x =>
          simp [Instr.isWellShaped, Instr.areWellShaped, Opcode.shape, Expr.isWellShaped_instr]
  | if_ o condition b then_ else_ =>
      cases h
      simp [Instr.isWellShaped, Instr.areWellShaped, Opcode.shape, Expr.isWellShaped_instr,
        Instr.isWellShaped_block (areWellShaped_instrs then_), isWellShaped_elseInstr else_]
  | block o body =>
      cases h
      exact Instr.isWellShaped_block (areWellShaped_instrs body)
  | assign o text s value usage =>
      cases h
      simp [Instr.isWellShaped, Instr.areWellShaped, Opcode.shape, c.isWellShaped_operand,
        Expr.isWellShaped_instr]
  | setMember o target s value =>
      cases h
      simp [Instr.isWellShaped, Instr.areWellShaped, Opcode.shape, c.isWellShaped_operand,
        Expr.isWellShaped_instr]
  | expr x =>
      cases h
      simp [Instr.isWellShaped, Instr.areWellShaped, Opcode.shape, Expr.isWellShaped_instr]

/-- Every operation of generated code has as many operands as it takes. -/
theorem Stmt.areWellShaped_instrs (ss : List Stmt) :
    Instr.areWellShaped (Stmt.instrs c ss) = true := by
  cases ss with
  | nil => rfl
  | cons s rest =>
      rw [Stmt.instrs, Instr.areWellShaped_append, areWellShaped_instrs rest, Bool.and_true]
      cases hs : s.instr? c with
      | none => rfl
      | some i =>
          simp [Instr.areWellShaped, isWellShaped_instr? s hs]

theorem Stmt.isWellShaped_elseInstr (e : Option Stmt) :
    (Stmt.elseInstr c e).isWellShaped = true := by
  cases e with
  | none => rfl
  | some s =>
      rw [Stmt.elseInstr]
      cases hs : s.instr? c with
      | none => rfl
      | some i => exact isWellShaped_instr? s hs

end

end

end Splice

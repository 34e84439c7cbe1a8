import Splice.Proofs.Tree.Generation
import Splice.Proofs.Tree.Scoping

/-!
# Scopes of generated code

Code has scopes of its own: a block defines the symbols of its statements, and a
function its parameters.  `Instr.Scoped` says of one operation, loading or storing,
that the symbols it takes are in scope.  A tree whose names are bound becomes code
whose symbols are in scope, since every live binding of a scope of the tree is defined
in the block, or is a parameter of the function, that the scope becomes.
-/

namespace Splice

def Opcode.looksUp (op : Opcode) : Bool := op == .load || op == .store

namespace Instr

variable {target : Opcode} {scope scope' : List Instr}

def defined? : Instr → Option Instr
  | node .define (k :: _) => some k
  | _ => none

/-- The symbols that the statements of a block define. -/
def definedIn (is : List Instr) : List Instr := is.filterMap defined?

/-- What an operation adds to the scope of its operands: a block the symbols of its
statements, a function its parameters. -/
def brings (op : Opcode) (operands : List Instr) : List Instr :=
  match op with
  | .block => definedIn operands
  | .func => operands.dropLast
  | _ => []

mutual

/-- The symbols that one operation takes are in scope wherever it stands. -/
def Scoped (target : Opcode) (scope : List Instr) : Instr → Prop
  | number _ => True
  | string _ => True
  | enum _ _ => True
  | syscall _ args => ScopedAll target scope args
  | node op operands =>
      (op = target → ∀ k ∈ operands.head?, k ∈ scope) ∧
        ScopedAll target (brings op operands ++ scope) operands

def ScopedAll (target : Opcode) (scope : List Instr) : List Instr → Prop
  | [] => True
  | i :: rest => Scoped target scope i ∧ ScopedAll target scope rest

end

theorem scopedAll_append (a b : List Instr) :
    ScopedAll target scope (a ++ b) ↔ ScopedAll target scope a ∧ ScopedAll target scope b := by
  induction a with
  | nil => simp [ScopedAll]
  | cons i rest ih => simp only [List.cons_append, ScopedAll, ih, and_assoc]

theorem scoped_of_isAtom {i : Instr} (h : i.isAtom = true) : i.Scoped target scope := by
  cases i with
  | number n => trivial
  | string t => trivial
  | enum name value => cases h
  | syscall name args => cases h
  | node op operands => cases h

theorem scopedAll_operands (c : Coding) (ss : List SymbolId) :
    ScopedAll target scope (ss.map c.operand) := by
  induction ss with
  | nil => trivial
  | cons s rest ih => exact ⟨scoped_of_isAtom (c.isAtom s), ih⟩

theorem scopedAll_interleave {ks vs : List Instr} (hks : ScopedAll target scope ks)
    (hvs : ScopedAll target scope vs) : ScopedAll target scope (Program.interleave ks vs) := by
  induction ks generalizing vs with
  | nil => simp [Program.interleave, ScopedAll]
  | cons k ks ih =>
      cases vs with
      | nil => simp [Program.interleave, ScopedAll]
      | cons v vs => exact ⟨hks.1, hvs.1, ih hks.2 hvs.2⟩

/-- Of an operation that looks no symbol up, only the operands matter. -/
theorem scoped_of_looksUp_eq_false {op : Opcode} {operands : List Instr}
    (htarget : target.looksUp = true) (hop : op.looksUp = false)
    (h : ScopedAll target (brings op operands ++ scope) operands) :
    (node op operands).Scoped target scope := by
  constructor
  · intro heq
    rw [heq, htarget] at hop
    cases hop
  · exact h

theorem scoped_block {is : List Instr} (htarget : target.looksUp = true)
    (h : ScopedAll target (definedIn is ++ scope) is) : (block is).Scoped target scope :=
  scoped_of_looksUp_eq_false htarget rfl h

/-- Most operations add nothing to the scope. -/
theorem scoped_node {op : Opcode} {operands : List Instr} (htarget : target.looksUp = true)
    (hop : op.looksUp = false) (hbrings : brings op operands = [])
    (h : ScopedAll target scope operands) : (node op operands).Scoped target scope := by
  apply scoped_of_looksUp_eq_false htarget hop
  rw [hbrings]
  exact h

end Instr

def Mention.Loadable (c : Coding) (scope : List Instr) : Mention → Prop
  | name _ _ (.own s _) => c.operand s ∈ scope
  | name _ _ (.std r _) => ∀ s, c.resolution r = .value s → c.operand s ∈ scope
  | imported _ r _ => ∀ s, c.resolution r = .value s → c.operand s ∈ scope
  | _ => True

section

variable {target : Opcode} {c : Coding} {scope : List Instr}

theorem Coding.scoped_load {r : ReferenceId}
    (h : target = .load → ∀ s, c.resolution r = .value s → c.operand s ∈ scope) :
    (c.load r).Scoped target scope := by
  rw [load]
  split
  · next s hs =>
      refine ⟨?_, Instr.scoped_of_isAtom (c.isAtom s), trivial⟩
      rintro rfl k hk
      cases hk
      exact h rfl s hs
  · exact ⟨by simp, trivial⟩

theorem Coding.scoped_name {o : Nat} {text : Text} {read : NameRead}
    (h : target = .load → (Mention.name o text read).Loadable c scope) :
    (c.name read).Scoped target scope := by
  cases read with
  | own s usage =>
      refine ⟨?_, Instr.scoped_of_isAtom (c.isAtom s), trivial⟩
      rintro rfl k hk
      cases hk
      exact h rfl
  | std r record => exact c.scoped_load h
  | unbound => exact ⟨by simp, trivial⟩

mutual

/-- An expression becomes scoped code if what it loads is in scope. -/
theorem Expr.scoped_instr (e : Expr) (htarget : target.looksUp = true)
    (h : target = .load → ∀ m ∈ e.loads, m.Loadable c scope) :
    (e.instr c).Scoped target scope := by
  have hatom : ∀ s, (c.operand s).Scoped target scope :=
    fun s => Instr.scoped_of_isAtom (c.isAtom s)
  cases e with
  | number o v => trivial
  | string o v => trivial
  | bool o v => exact ⟨by simp, trivial⟩
  | nil o => exact ⟨by simp, trivial⟩
  | name o text read =>
      exact c.scoped_name fun hload => h hload _ (List.mem_singleton_self _)
  | imported o r m record =>
      have hvalue : (c.load r).Scoped target scope :=
        c.scoped_load fun hload => h hload (.imported o r record) (List.mem_singleton_self _)
      simp only [Expr.instr]
      split
      · trivial
      · cases m with
        | none => exact hvalue
        | some s =>
            exact Instr.scoped_node htarget rfl rfl ⟨hvalue, hatom s, trivial⟩
  | member o x text s entry =>
      simp only [Expr.instr]
      split
      · trivial
      · split
        · trivial
        · have hx : (x.instr c).Scoped target scope := scoped_instr x htarget h
          exact Instr.scoped_node htarget rfl rfl ⟨hx, hatom s, trivial⟩
  | call o callee args =>
      have hcallee : (callee.instr c).Scoped target scope :=
        scoped_instr callee htarget fun hload m hm =>
          h hload m (List.mem_append_left _ hm)
      have hargs : Instr.ScopedAll target scope (Expr.instrs c args) :=
        scopedAll_instrs args htarget fun hload m hm =>
          h hload m (List.mem_append_right _ hm)
      exact Instr.scoped_node htarget rfl rfl ⟨hcallee, hargs⟩
  | syscall o text args => exact scopedAll_instrs args htarget h
  | object o keys values =>
      have hvalues : Instr.ScopedAll target scope (Expr.instrs c values) :=
        scopedAll_instrs values htarget h
      exact Instr.scoped_node htarget rfl rfl
        (Instr.scopedAll_interleave (Instr.scopedAll_operands c keys) hvalues)
  | binary o op left right =>
      have hleft : (left.instr c).Scoped target scope :=
        scoped_instr left htarget fun hload m hm => h hload m (List.mem_append_left _ hm)
      have hright : (right.instr c).Scoped target scope :=
        scoped_instr right htarget fun hload m hm => h hload m (List.mem_append_right _ hm)
      have hop : op.opcode.looksUp = false := by cases op <;> rfl
      have hbrings : Instr.brings op.opcode [left.instr c, right.instr c] = [] := by
        cases op <;> rfl
      exact Instr.scoped_node htarget hop hbrings ⟨hleft, hright, trivial⟩
  | unary o op x =>
      have hx : (x.instr c).Scoped target scope := scoped_instr x htarget h
      have hop : op.opcode.looksUp = false := by cases op <;> rfl
      have hbrings : Instr.brings op.opcode [x.instr c] = [] := by
        cases op <;> rfl
      exact Instr.scoped_node htarget hop hbrings ⟨hx, trivial⟩

theorem Expr.scopedAll_instrs (es : List Expr) (htarget : target.looksUp = true)
    (h : target = .load → ∀ m ∈ Expr.loadsOfAll es, m.Loadable c scope) :
    Instr.ScopedAll target scope (Expr.instrs c es) := by
  cases es with
  | nil => trivial
  | cons e rest =>
      refine ⟨scoped_instr e htarget ?_, scopedAll_instrs rest htarget ?_⟩
      · exact fun hload m hm => h hload m (List.mem_append_left _ hm)
      · exact fun hload m hm => h hload m (List.mem_append_right _ hm)

end

end

mutual

theorem Expr.loads_subset (e : Expr) : e.loads ⊆ e.mentions := by
  cases e with
  | number o v => exact List.Subset.refl _
  | string o v => exact List.Subset.refl _
  | bool o v => exact List.Subset.refl _
  | nil o => exact List.Subset.refl _
  | name o text read => exact List.Subset.refl _
  | imported o r m record =>
      intro x hx
      exact List.mem_cons.mpr (Or.inl (List.mem_singleton.mp hx))
  | member o x text s entry =>
      intro m hm
      rw [Expr.loads] at hm
      split at hm
      · cases hm
      · exact List.mem_append_left _ (loads_subset x hm)
  | call o callee args =>
      intro m hm
      rcases List.mem_append.mp hm with hm | hm
      · exact List.mem_append_left _ (loads_subset callee hm)
      · exact List.mem_append_right _ (loadsOfAll_subset args hm)
  | syscall o text args => exact loadsOfAll_subset args
  | object o keys values =>
      intro m hm
      exact List.mem_append_left _ (loadsOfAll_subset values hm)
  | binary o op left right =>
      intro m hm
      rcases List.mem_append.mp hm with hm | hm
      · exact List.mem_append_left _ (loads_subset left hm)
      · exact List.mem_append_right _ (loads_subset right hm)
  | unary o op x => exact loads_subset x

theorem Expr.loadsOfAll_subset (es : List Expr) : Expr.loadsOfAll es ⊆ Expr.mentionsOfAll es := by
  cases es with
  | nil => exact List.Subset.refl _
  | cons e rest =>
      intro m hm
      rcases List.mem_append.mp hm with hm | hm
      · exact List.mem_append_left _ (loads_subset e hm)
      · exact List.mem_append_right _ (loadsOfAll_subset rest hm)

end

/-! ## Statements -/

/-- What the code of a namespace is generated from: the coding, what its names stand
for, the symbols of each name, which are all written the same way, the bindings that
are live, and the symbols that are in scope from outside. -/
structure Emission where
  coding : Coding
  naming : Naming
  named : Text → List SymbolId
  uniform : ∀ name, ∀ s ∈ named name, ∀ t ∈ named name,
    coding.operand s = coding.operand t
  live : UsageId → Prop
  outer : List Instr

/-- A mention belongs to the namespace; what it reads is live, and what it loads from
elsewhere is in scope from outside. -/
def Mention.Sited (x : Emission) (target : Opcode) : Mention → Prop
  | name _ n (.own s usage) => s ∈ x.named n ∧ ∀ u, usage = some u → x.live u
  | name _ _ (.std r record) =>
      target = .load → ∀ f s, record = some f → x.naming.foreign r f →
        x.coding.resolution r = .value s → x.coding.operand s ∈ x.outer
  | name _ _ .unbound => True
  | imported _ r record =>
      target = .load → ∀ f s, record = some f → x.naming.foreign r f →
        x.coding.resolution r = .value s → x.coding.operand s ∈ x.outer
  | property _ => True
  | binding n s => s ∈ x.named n

namespace Emission

variable {x : Emission} {target : Opcode} {Γ Δ : Env} {scope : List Instr}

structure Covers (x : Emission) (Γ : Env) (scope : List Instr) : Prop where
  outer : x.outer ⊆ scope
  own : ∀ name u, x.naming.lookup Γ name = some u → x.live u →
    ∀ s ∈ x.named name, x.coding.operand s ∈ scope

theorem covers_nil : x.Covers [] x.outer where
  outer := List.Subset.refl _
  own _ _ h := nomatch h

theorem Covers.mono {scope' : List Instr} (h : x.Covers Γ scope) (hsub : scope ⊆ scope') :
    x.Covers Γ scope' where
  outer := List.Subset.trans h.outer hsub
  own name u hlookup hlive s hs := hsub (h.own name u hlookup hlive s hs)

theorem Covers.loadable (h : x.Covers Γ scope) {m : Mention} (hknown : m.Known x.naming Γ)
    (hsited : m.Sited x target) (hload : target = .load) : m.Loadable x.coding scope := by
  cases m with
  | name o n read =>
      cases read with
      | own s usage =>
          obtain ⟨u, husage, hlookup⟩ := hknown
          exact h.own n u hlookup (hsited.2 u husage) s hsited.1
      | std r record =>
          obtain ⟨f, hrecord, hforeign⟩ := hknown
          intro s hs
          exact h.outer (hsited hload f s hrecord hforeign hs)
      | unbound => trivial
  | imported o r record =>
      obtain ⟨f, hrecord, hforeign⟩ := hknown
      intro s hs
      exact h.outer (hsited hload f s hrecord hforeign hs)
  | property s => trivial
  | binding n s => trivial

theorem Covers.scoped_expr (h : x.Covers Γ scope) (htarget : target.looksUp = true) {e : Expr}
    (hbound : e.Bound x.naming Γ) (hsited : ∀ m ∈ e.mentions, m.Sited x target) :
    (e.instr x.coding).Scoped target scope := by
  apply e.scoped_instr htarget
  intro hload m hm
  exact h.loadable (hbound m hm) (hsited m (e.loads_subset hm)) hload

/-- A declaration defines a symbol of its name. -/
theorem exists_definedIn (c : Coding) {body : List Stmt} {s : Stmt} {name : Text} {u : UsageId}
    (hs : s ∈ body) (hdeclares : s.Declares name u) :
    ∃ symbol, .binding name symbol ∈ Stmt.mentionsOfAll body ∧
      c.operand symbol ∈ Instr.definedIn (Stmt.instrs c body) := by
  have hown : ∃ symbol, .binding name symbol ∈ s.mentions ∧
      c.operand symbol ∈ Instr.definedIn (s.instr? c).toList := by
    cases s with
    | let_ o n symbol value usage =>
        obtain ⟨rfl, -⟩ := hdeclares
        exact ⟨symbol, by simp [Stmt.mentions],
          by simp [Stmt.instr?, Instr.definedIn, Instr.defined?]⟩
    | fn o n symbol params bo body usage =>
        obtain ⟨rfl, -⟩ := hdeclares
        exact ⟨symbol, by simp [Stmt.mentions],
          by simp [Stmt.instr?, Instr.definedIn, Instr.defined?]⟩
    | import_ o q p => cases hdeclares
    | enum o n es => cases hdeclares
    | retain o ns => cases hdeclares
    | return_ o v => cases hdeclares
    | if_ o cond b t e => cases hdeclares
    | block o body => cases hdeclares
    | assign o n sym v usage => cases hdeclares
    | setMember o t p v => cases hdeclares
    | expr e => cases hdeclares
  obtain ⟨symbol, hmention, hdefined⟩ := hown
  refine ⟨symbol, ?_⟩
  induction body with
  | nil => cases hs
  | cons first rest ih =>
      simp only [Stmt.mentionsOfAll, Stmt.instrs, Instr.definedIn, List.filterMap_append,
        List.mem_append]
      rcases List.mem_cons.mp hs with rfl | hs
      · exact ⟨Or.inl hmention, Or.inl hdefined⟩
      · exact ⟨Or.inr (ih hs).1, Or.inr (ih hs).2⟩

/-- In a block, and in the body of a function, the live bindings of its own are in
scope too. -/
theorem Covers.extend (h : x.Covers Γ scope) {params : List Param} {body : List Stmt}
    (hsupported : Stmt.Supported x.naming x.live params body Δ)
    (hparams : ∀ q ∈ params, q.symbol ∈ x.named q.name)
    (hsited : ∀ m ∈ Stmt.mentionsOfAll body, m.Sited x target) :
    x.Covers (Δ ++ Γ) (Instr.definedIn (Stmt.instrs x.coding body) ++
      (params.map (fun q => x.coding.operand q.symbol) ++ scope)) := by
  constructor
  · intro i hi
    exact List.mem_append_right _ (List.mem_append_right _ (h.outer hi))
  · intro name u hlookup hlive s hs
    rw [Naming.lookup_append] at hlookup
    cases hown : x.naming.lookup Δ name with
    | none =>
        rw [hown, Option.none_or] at hlookup
        have hscope := h.own name u hlookup hlive s hs
        exact List.mem_append_right _ (List.mem_append_right _ hscope)
    | some v =>
        rw [hown, Option.some_or, Option.some.injEq] at hlookup
        subst hlookup
        rcases hsupported name v hown hlive with hparam | hdeclared
        · obtain ⟨q, hq, hname⟩ := hparam
          rw [x.uniform name s hs q.symbol (hname ▸ hparams q hq)]
          exact List.mem_append_right _ (List.mem_append_left _ (List.mem_map_of_mem hq))
        · obtain ⟨t, ht, hdeclares⟩ := hdeclared
          obtain ⟨symbol, hmention, hdefined⟩ := exists_definedIn x.coding ht hdeclares
          rw [x.uniform name s hs symbol (hsited _ hmention)]
          exact List.mem_append_left _ hdefined

end Emission

namespace Stmt

mutual

def assigned : Stmt → List UsageId
  | fn _ _ _ _ _ body _ => assignedOfAll body
  | if_ _ _ _ then_ else_ => assignedOfAll then_ ++ assignedOfElse else_
  | block _ body => assignedOfAll body
  | assign _ _ _ _ usage => usage.toList
  | _ => []

def assignedOfAll : List Stmt → List UsageId
  | [] => []
  | s :: rest => assigned s ++ assignedOfAll rest

def assignedOfElse : Option Stmt → List UsageId
  | none => []
  | some s => assigned s

end

section

variable {x : Emission} {target : Opcode}

open Emission

mutual

theorem scoped_instr? (s : Stmt) (htarget : target.looksUp = true) {Γ : Env} {scope : List Instr}
    (hbound : s.Bound x.naming x.live Γ) (hcovers : x.Covers Γ scope)
    (hsited : ∀ m ∈ s.mentions, m.Sited x target)
    (hassigned : target = .store → ∀ u ∈ s.assigned, x.live u) :
    ∀ i ∈ s.instr? x.coding, i.Scoped target scope := by
  have hatom : ∀ s, (x.coding.operand s).Scoped target scope :=
    fun s => Instr.scoped_of_isAtom (x.coding.isAtom s)
  intro i hi
  cases s with
  | import_ o q path => cases hi
  | enum o text es => cases hi
  | retain o texts => cases hi
  | let_ o text s value usage =>
      cases hi
      have hvalue := hcovers.scoped_expr htarget hbound
        fun m hm => hsited m (List.mem_append_left _ hm)
      exact Instr.scoped_node htarget rfl rfl ⟨hatom s, hvalue, trivial⟩
  | fn o text s params bo body usage =>
      cases hi
      obtain ⟨Δ, hsupported, hbody⟩ := hbound
      have hparams : ∀ q ∈ params, q.symbol ∈ x.named q.name := by
        intro q hq
        exact hsited (.binding q.name q.symbol)
          (List.mem_append_left _ (List.mem_cons_of_mem _ (List.mem_map_of_mem hq)))
      have hinner : ∀ m ∈ mentionsOfAll body, m.Sited x target :=
        fun m hm => hsited m (List.mem_append_right _ hm)
      have hstatements := scopedAll_instrs body htarget hbody
        (hcovers.extend hsupported hparams hinner) hinner hassigned
      have hblock := Instr.scoped_block htarget hstatements
      have hfunc : (Instr.node .func (params.map (fun q => x.coding.operand q.symbol) ++
          [.block (instrs x.coding body)])).Scoped target scope := by
        apply Instr.scoped_of_looksUp_eq_false htarget rfl
        rw [Instr.brings, List.dropLast_concat, Instr.scopedAll_append]
        refine ⟨?_, hblock, trivial⟩
        simpa [Function.comp_def] using
          Instr.scopedAll_operands x.coding (params.map Param.symbol)
      exact Instr.scoped_node htarget rfl rfl ⟨hatom s, hfunc, trivial⟩
  | return_ o value =>
      cases hi
      cases value with
      | none =>
          exact Instr.scoped_node htarget rfl rfl
            ⟨Instr.scoped_node htarget rfl rfl trivial, trivial⟩
      | some e =>
          have hvalue := hcovers.scoped_expr htarget (hbound e rfl)
            fun m hm => hsited m (by simpa [mentions] using hm)
          exact Instr.scoped_node htarget rfl rfl ⟨hvalue, trivial⟩
  | if_ o condition b then_ else_ =>
      cases hi
      obtain ⟨hcondition, ⟨Δ, hsupported, hthen⟩, helse⟩ := hbound
      have htest := hcovers.scoped_expr htarget hcondition
        fun m hm => hsited m (List.mem_append_left _ (List.mem_append_left _ hm))
      have hinner : ∀ m ∈ mentionsOfAll then_, m.Sited x target :=
        fun m hm => hsited m (List.mem_append_left _ (List.mem_append_right _ hm))
      have hstatements := scopedAll_instrs then_ htarget hthen
        (hcovers.extend hsupported nofun hinner) hinner
        fun hstore u hu => hassigned hstore u (List.mem_append_left _ hu)
      have hblock := Instr.scoped_block htarget hstatements
      have hother := scoped_elseInstr else_ htarget helse hcovers
        (fun m hm => hsited m (List.mem_append_right _ hm))
        fun hstore u hu => hassigned hstore u (List.mem_append_right _ hu)
      exact Instr.scoped_node htarget rfl rfl ⟨htest, hblock, hother, trivial⟩
  | block o body =>
      cases hi
      obtain ⟨Δ, hsupported, hbody⟩ := hbound
      have hstatements := scopedAll_instrs body htarget hbody
        (hcovers.extend hsupported nofun hsited) hsited hassigned
      exact Instr.scoped_block htarget hstatements
  | assign o text s value usage =>
      cases hi
      obtain ⟨hbound, u, husage, hlookup⟩ := hbound
      have hvalue := hcovers.scoped_expr htarget hbound
        fun m hm => hsited m (List.mem_append_left _ hm)
      refine ⟨?_, hatom s, hvalue, trivial⟩
      intro hstore k hk
      cases hk
      have hlive : x.live u := hassigned hstore.symm u (by simp [assigned, husage])
      have hnamed : s ∈ x.named text :=
        hsited (.binding text s) (List.mem_append_right _ (List.mem_singleton_self _))
      exact hcovers.own text u hlookup hlive s hnamed
  | setMember o target' s value =>
      cases hi
      have hobject := hcovers.scoped_expr htarget hbound.1
        fun m hm => hsited m (List.mem_append_left _ (List.mem_append_left _ hm))
      have hvalue := hcovers.scoped_expr htarget hbound.2
        fun m hm => hsited m (List.mem_append_left _ (List.mem_append_right _ hm))
      exact Instr.scoped_node htarget rfl rfl
        ⟨hobject, hatom s, hvalue, trivial⟩
  | expr e =>
      cases hi
      have hvalue := hcovers.scoped_expr htarget hbound hsited
      exact Instr.scoped_node htarget rfl rfl ⟨hvalue, trivial⟩

/-- Statements that are bound become scoped code.  Stores are scoped if the bindings
that are assigned are live. -/
theorem scopedAll_instrs (ss : List Stmt) (htarget : target.looksUp = true) {Γ : Env}
    {scope : List Instr} (hbound : BoundAll x.naming x.live Γ ss) (hcovers : x.Covers Γ scope)
    (hsited : ∀ m ∈ mentionsOfAll ss, m.Sited x target)
    (hassigned : target = .store → ∀ u ∈ assignedOfAll ss, x.live u) :
    Instr.ScopedAll target scope (instrs x.coding ss) := by
  cases ss with
  | nil => trivial
  | cons s rest =>
      rw [instrs, Instr.scopedAll_append]
      have hfirst := scoped_instr? s htarget hbound.1 hcovers
        (fun m hm => hsited m (List.mem_append_left _ hm))
        fun hstore u hu => hassigned hstore u (List.mem_append_left _ hu)
      have hrest := scopedAll_instrs rest htarget hbound.2 hcovers
        (fun m hm => hsited m (List.mem_append_right _ hm))
        fun hstore u hu => hassigned hstore u (List.mem_append_right _ hu)
      refine ⟨?_, hrest⟩
      cases hs : s.instr? x.coding with
      | none => trivial
      | some i => exact ⟨hfirst i hs, trivial⟩

theorem scoped_elseInstr (e : Option Stmt) (htarget : target.looksUp = true) {Γ : Env}
    {scope : List Instr} (hbound : BoundElse x.naming x.live Γ e) (hcovers : x.Covers Γ scope)
    (hsited : ∀ m ∈ mentionsOfElse e, m.Sited x target)
    (hassigned : target = .store → ∀ u ∈ assignedOfElse e, x.live u) :
    (elseInstr x.coding e).Scoped target scope := by
  have hempty : (Instr.block []).Scoped target scope :=
    Instr.scoped_block htarget trivial
  cases e with
  | none => exact hempty
  | some s =>
      have hs := scoped_instr? s htarget hbound hcovers hsited hassigned
      rw [elseInstr]
      cases hi : s.instr? x.coding with
      | none => exact hempty
      | some i => exact hs i hi

end

end

end Stmt

end Splice

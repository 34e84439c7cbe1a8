import Splice.Proofs.Tree.Analysis
import Splice.Proofs.Tree.Binding

/-!
# Where names are visible

A site is a place that reads a bare name or stores into one.  `Stmt.sites` lists the
sites of a tree in the order of the source, each with the lists of statements around
it, innermost first.  A list of statements declares the names of its `let` and `fn`
statements, wherever they stand in it, and the list in the body of a function its
parameters as well.  Lists of statements are numbered in the order in which they start.
Binding a name is making it one of the own namespace just when it is visible.
-/

namespace Splice

/-- A list of statements that a site stands in: what it declares, and its number. -/
structure Block where
  names : List Text
  scope : ScopeId
deriving DecidableEq, Repr

namespace Block

def isVisible (around : List Block) (name : Text) : Bool :=
  around.any fun b => b.names.contains name

/-- The innermost list of statements that declares a name. -/
def declaring? (around : List Block) (name : Text) : Option ScopeId :=
  (around.find? fun b => b.names.contains name).map scope

theorem isVisible_cons (b : Block) (around : List Block) (name : Text) :
    isVisible (b :: around) name = (b.names.contains name || isVisible around name) := rfl

end Block

/-- An access to a member: its offset, the member's name, and the entry of an enum that
it stands for, once that is known. -/
structure Access where
  offset : Nat
  member : Text
  entry : Option EntryRead
deriving DecidableEq, Repr

/-- A place that reads a bare name, with the access to a member of it, if there is one,
or that stores into one. -/
inductive Site where
  | read (offset : Nat) (name : Text) (access : Option Access) (read : NameRead)
  | store (offset : Nat) (name : Text) (usage : Option UsageId)
deriving DecidableEq, Repr

mutual

/-- The sites of an expression; `access` is what is accessed on it. -/
def Expr.sites (access : Option Access) : Expr → List Site
  | name o n read => [.read o n access read]
  | member o x m _ entry => sites (some ⟨o, m, entry⟩) x
  | call _ callee args => sites none callee ++ sitesOfAll args
  | syscall _ _ args => sitesOfAll args
  | object _ _ values => sitesOfAll values
  | binary _ _ left right => sites none left ++ sites none right
  | unary _ _ x => sites none x
  | number _ _ => []
  | string _ _ => []
  | bool _ _ => []
  | nil _ => []
  | imported _ _ _ _ => []

def Expr.sitesOfAll : List Expr → List Site
  | [] => []
  | x :: rest => sites none x ++ sitesOfAll rest

end

def Expr.placed (around : List Block) (e : Expr) : List (List Block × Site) :=
  (e.sites none).map (Prod.mk around)

namespace Stmt

mutual

def listCount : Stmt → Nat
  | fn _ _ _ _ _ body _ => 1 + listCountOfAll body
  | if_ _ _ _ then_ else_ => 1 + listCountOfAll then_ + listCountOfElse else_
  | block _ body => 1 + listCountOfAll body
  | _ => 0

def listCountOfAll : List Stmt → Nat
  | [] => 0
  | s :: rest => listCount s + listCountOfAll rest

def listCountOfElse : Option Stmt → Nat
  | none => 0
  | some s => listCount s

end

mutual

/-- The sites of a statement; `next` is the number of the first list of statements
inside it. -/
def sites (next : ScopeId) (around : List Block) : Stmt → List (List Block × Site)
  | let_ _ _ _ value _ => value.placed around
  | fn _ _ _ params _ body _ =>
      sitesOfAll (next + 1) (⟨params.map (·.name) ++ declaredNames body, next⟩ :: around) body
  | assign o name _ value usage => value.placed around ++ [(around, .store o name usage)]
  | setMember _ target _ value => target.placed around ++ value.placed around
  | return_ _ value => value.toList.flatMap (Expr.placed around)
  | if_ _ condition _ then_ else_ =>
      condition.placed around ++
        sitesOfAll (next + 1) (⟨declaredNames then_, next⟩ :: around) then_ ++
        sitesOfElse (next + 1 + listCountOfAll then_) around else_
  | block _ body => sitesOfAll (next + 1) (⟨declaredNames body, next⟩ :: around) body
  | expr x => x.placed around
  | import_ _ _ _ => []
  | enum _ _ _ => []
  | retain _ _ => []

def sitesOfAll (next : ScopeId) (around : List Block) : List Stmt → List (List Block × Site)
  | [] => []
  | s :: rest => sites next around s ++ sitesOfAll (next + listCount s) around rest

def sitesOfElse (next : ScopeId) (around : List Block) : Option Stmt → List (List Block × Site)
  | none => []
  | some s => sites next around s

end

end Stmt

def Tree.sites (root : ScopeId) (t : Tree) : List (List Block × Site) :=
  Stmt.sitesOfAll (root + 1) [⟨Stmt.declaredNames t.statements, root⟩] t.statements

/-! ## Binding -/

/-- What binding makes of a site: a visible name belongs to the own namespace, and any
other one is an enum of it or refers to the standard library. -/
def Site.Bound (p : Program) (n : NamespaceId) (around : List Block) : Site → Prop
  | read _ name _ (.own _ _) => Block.isVisible around name = true
  | read _ name access (.std r _) =>
      Block.isVisible around name = false ∧ (p.spaceAt n).enum? name = none ∧
        r < p.references.size ∧ (p.reference r).qualifier = [] ∧ (p.reference r).name = name ∧
        (p.reference r).member = access.elim [] Access.member
  | read _ name _ .unbound =>
      Block.isVisible around name = false ∧ ((p.spaceAt n).enum? name).isSome
  | store _ _ _ => True

namespace Program

variable {n : NamespaceId} {visible : List Text} {around : List Block} {p p' p'' : Program}

def SameEnumNames (n : NamespaceId) (p q : Program) : Prop :=
  ∀ name, ((q.spaceAt n).enum? name).isSome = ((p.spaceAt n).enum? name).isSome

theorem SameEnumNames.of_enums (h : (p'.spaceAt n).enums = (p.spaceAt n).enums) :
    SameEnumNames n p p' := by
  intro name
  rw [Namespace.enum?, h, Namespace.enum?]

theorem SameEnumNames.eq_none (h : SameEnumNames n p p') {name : Text}
    (hnone : (p.spaceAt n).enum? name = none) : (p'.spaceAt n).enum? name = none := by
  rw [← Option.not_isSome_iff_eq_none, h, hnone]
  exact Bool.false_ne_true

/-- What binding one name leaves alone of what it makes of others. -/
structure Retains (n : NamespaceId) (p p' : Program) : Prop where
  enums : SameEnumNames n p p'
  references_le : p.references.size ≤ p'.references.size
  named : ∀ r < p.references.size,
    (p'.reference r).qualifier = (p.reference r).qualifier ∧
      (p'.reference r).name = (p.reference r).name ∧
      (p'.reference r).member = (p.reference r).member

theorem Retains.refl (p : Program) : Retains n p p :=
  ⟨fun _ => rfl, le_rfl, fun _ _ => ⟨rfl, rfl, rfl⟩⟩

theorem Retains.trans (h : Retains n p p') (h' : Retains n p' p'') : Retains n p p'' where
  enums name := (h'.enums name).trans (h.enums name)
  references_le := h.references_le.trans h'.references_le
  named r hr := by
    obtain ⟨hqualifier, hname, hmember⟩ := h.named r hr
    obtain ⟨hqualifier', hname', hmember'⟩ := h'.named r (hr.trans_le h.references_le)
    exact ⟨hqualifier'.trans hqualifier, hname'.trans hname, hmember'.trans hmember⟩

theorem retains_addSymbol (p : Program) (name : Text) : Retains n p (p.addSymbol n name).2 where
  enums := .of_enums ((sameFiles_addSymbol p n name).enums n)
  references_le := (Grows.addSymbol p n name).references_le
  named _ _ := ⟨rfl, rfl, rfl⟩

theorem size_addReference (p : Program) (qualifier name member : Text) (offset : Int) :
    (p.addReference n qualifier name member offset).2.references.size = p.references.size + 1 := by
  simp [addReference, modifySpace]

theorem retains_addReference (p : Program) (qualifier name member : Text) (offset : Int) :
    Retains n p (p.addReference n qualifier name member offset).2 where
  enums := .of_enums ((sameFiles_addReference p n qualifier name member offset).enums n)
  references_le := by
    rw [size_addReference]
    exact Nat.le_succ _
  named r hr := by
    rw [reference_addReference, if_neg hr.ne]
    exact ⟨rfl, rfl, rfl⟩

theorem retains_modifySpace (p : Program) {f : Namespace → Namespace}
    (h : ∀ ns, (f ns).enums = ns.enums) : Retains n p (p.modifySpace n f) where
  enums := .of_enums (spaceAt_modifySpace_same p n n f Namespace.enums h)
  references_le := le_rfl
  named _ _ := ⟨rfl, rfl, rfl⟩

end Program

theorem Site.Bound.retains {p p' : Program} {n : NamespaceId} {around : List Block} {site : Site}
    (h : site.Bound p n around) (hlater : Program.Retains n p p') : site.Bound p' n around := by
  cases site with
  | store o name usage => trivial
  | read o name access read =>
      cases read with
      | own s usage => exact h
      | unbound => exact ⟨h.1, by rw [hlater.enums]; exact h.2⟩
      | std r record =>
          obtain ⟨hvisible, hnone, hlt, hqualifier, hname, hmember⟩ := h
          obtain ⟨hqualifier', hname', hmember'⟩ := hlater.named r hlt
          exact ⟨hvisible, hlater.enums.eq_none hnone, hlt.trans_le hlater.references_le,
            hqualifier'.trans hqualifier, hname'.trans hname, hmember'.trans hmember⟩

namespace Program

variable {n : NamespaceId} {visible : List Text} {around : List Block} {p p' p'' : Program}

/-- The outcome of binding some sites.  What is referred to is the standard library. -/
structure BindsSites (n : NamespaceId) (p p' : Program) (sites : List (List Block × Site)) :
    Prop where
  retains : Retains n p p'
  stage : ∀ m, (p'.spaceAt m).stage = (p.spaceAt m).stage
  added : ∀ r ∈ (p'.spaceAt n).references,
    r ∈ (p.spaceAt n).references ∨ p.references.size ≤ r
  unqualified : ∀ r, p.references.size ≤ r → (p'.reference r).qualifier = []
  bound : ∀ e ∈ sites, e.2.Bound p' n e.1

theorem BindsSites.append {a b : List (List Block × Site)} (h : BindsSites n p p' a)
    (h' : BindsSites n p' p'' b) : BindsSites n p p'' (a ++ b) where
  retains := h.retains.trans h'.retains
  stage m := (h'.stage m).trans (h.stage m)
  added r hr := by
    rcases h'.added r hr with hold | hnew
    · exact h.added r hold
    · exact Or.inr (h.retains.references_le.trans hnew)
  unqualified r hr := by
    by_cases hlt : r < p'.references.size
    · rw [(h'.retains.named r hlt).1]
      exact h.unqualified r hr
    · exact h'.unqualified r (Nat.le_of_not_lt hlt)
  bound e he := by
    rcases List.mem_append.mp he with he | he
    · exact (h.bound e he).retains h'.retains
    · exact h'.bound e he

theorem reference_of_size_le {r : ReferenceId} (h : p.references.size ≤ r) :
    p.reference r = ⟨[], [], [], 0, none, .unresolved⟩ := by
  rw [reference, Array.getD_eq_getD_getElem?, Array.getElem?_eq_none h]
  rfl

/-- Binding that adds no reference. -/
theorem BindsSites.of_references {sites : List (List Block × Site)} (hretains : Retains n p p')
    (hstage : ∀ m, (p'.spaceAt m).stage = (p.spaceAt m).stage)
    (hspace : (p'.spaceAt n).references = (p.spaceAt n).references)
    (hreferences : p'.references = p.references)
    (hbound : ∀ e ∈ sites, e.2.Bound p' n e.1) : BindsSites n p p' sites where
  retains := hretains
  stage := hstage
  added r hr := Or.inl (hspace ▸ hr)
  unqualified r hr := by
    rw [reference_of_size_le (by rw [hreferences]; exact hr)]
  bound := hbound

/-- Sites that are bound already. -/
theorem BindsSites.refl {sites : List (List Block × Site)}
    (h : ∀ e ∈ sites, e.2.Bound p n e.1) : BindsSites n p p sites :=
  .of_references (Retains.refl p) (fun _ => rfl) rfl rfl h

theorem BindsSites.nil (n : NamespaceId) (p : Program) : BindsSites n p p [] :=
  .refl fun _ h => nomatch h

/-- The names that the binder takes for visible are those that the lists around declare. -/
def Tells (visible : List Text) (around : List Block) : Prop :=
  ∀ name, visible.contains name = Block.isVisible around name

theorem bindName_sites (h : Tells visible around) (member : Text) (o : Nat) (name : Text)
    (access : Option Access) (hmember : member = access.elim [] Access.member) (p : Program) :
    BindsSites n p (bindName n visible member o name p).2
      [(around, .read o name access (bindName n visible member o name p).1)] := by
  rw [bindName_eq, h name]
  cases hvisible : Block.isVisible around name with
  | true =>
      rw [if_pos rfl]
      refine .of_references (retains_addSymbol p name)
        (fun m => spaceAt_addSymbol_same p n m name Namespace.stage fun _ _ => rfl)
        (spaceAt_addSymbol_same p n n name Namespace.references fun _ _ => rfl) rfl ?_
      intro e he
      rw [List.mem_singleton.mp he]
      exact hvisible
  | false =>
      rw [if_neg Bool.false_ne_true]
      cases henum : (p.spaceAt n).enum? name with
      | some enum =>
          rw [if_pos Option.isSome_some]
          apply BindsSites.refl
          intro e he
          rw [List.mem_singleton.mp he]
          exact ⟨hvisible, by rw [henum]; rfl⟩
      | none =>
          rw [if_neg (by simp)]
          have hretains := retains_addReference (n := n) p [] name member o
          refine ⟨hretains, ?_, ?_, ?_, ?_⟩
          · exact fun m => spaceAt_modifySpace_same _ n m _ Namespace.stage fun _ => rfl
          · intro r hr
            exact (mem_of_mem_addReference hr).imp_right fun h => h.1.ge
          · intro r hr
            rw [reference_addReference]
            split
            · rfl
            · rw [reference_of_size_le hr]
          intro e he
          rw [List.mem_singleton.mp he]
          have hnew := reference_addReference_new p n [] name member o
          refine ⟨hvisible, ?_, ?_, ?_, ?_, ?_⟩
          · exact hretains.enums.eq_none henum
          · change p.references.size < (p.addReference n [] name member o).2.references.size
            rw [size_addReference]
            exact Nat.lt_succ_self _
          · exact congrArg Reference.qualifier hnew
          · exact congrArg Reference.name hnew
          · rw [← hmember]
            exact congrArg Reference.member hnew

mutual

theorem bindExpr_sites (h : Tells visible around) {access : Option Access} {e : Expr}
    (haccess : access = none ∨ ∀ o text read, e ≠ .name o text read) (p : Program) :
    BindsSites n p (bindExpr n visible e p).2
      (((bindExpr n visible e p).1.sites access).map (Prod.mk around)) := by
  cases e with
  | name o name read =>
      rw [bindExpr]
      obtain rfl : access = none := haccess.resolve_right fun hname => hname o name read rfl
      exact bindName_sites h [] o name none rfl p
  | member o x name q entry =>
      by_cases hx : ∃ o text read, x = .name o text read
      · obtain ⟨at_, target, read, rfl⟩ := hx
        rw [bindExpr_member_name]
        exact bindName_sites h name at_ target (some ⟨o, name, entry⟩) rfl p
      · have hx' : ∀ o text read, x ≠ .name o text read :=
          fun o text read hname => hx ⟨o, text, read, hname⟩
        rw [bindExpr_member n visible p hx']
        exact bindExpr_sites h (Or.inr hx') p
  | call o callee args =>
      rw [bindExpr_call]
      simp only [Expr.sites, List.map_append]
      exact (bindExpr_sites h (Or.inl rfl) p).append (bindExprs_sites h args _)
  | syscall o name args =>
      rw [bindExpr_syscall]
      exact bindExprs_sites h args p
  | object o keys values =>
      rw [bindExpr_object]
      exact bindExprs_sites h values p
  | binary o op left right =>
      rw [bindExpr_binary]
      simp only [Expr.sites, List.map_append]
      exact (bindExpr_sites h (Or.inl rfl) p).append (bindExpr_sites h (Or.inl rfl) _)
  | unary o op x =>
      rw [bindExpr_unary]
      exact bindExpr_sites h (Or.inl rfl) p
  | number o v => rw [bindExpr]; exact BindsSites.nil n p
  | string o v => rw [bindExpr]; exact BindsSites.nil n p
  | bool o v => rw [bindExpr]; exact BindsSites.nil n p
  | nil o => rw [bindExpr]; exact BindsSites.nil n p
  | imported o r m f => rw [bindExpr]; exact BindsSites.nil n p

theorem bindExprs_sites (h : Tells visible around) (es : List Expr) (p : Program) :
    BindsSites n p (bindExprs n visible es p).2
      ((Expr.sitesOfAll (bindExprs n visible es p).1).map (Prod.mk around)) := by
  cases es with
  | nil => rw [bindExprs]; exact BindsSites.nil n p
  | cons x rest =>
      rw [bindExprs_cons]
      simp only [Expr.sitesOfAll, List.map_append]
      exact (bindExpr_sites h (Or.inl rfl) p).append (bindExprs_sites h rest _)

end

theorem declared?_bindStmt (visible : List Text) (s : Stmt) (p : Program) :
    (bindStmt n visible s p).1.declared? = s.declared? := by
  cases s with
  | let_ o name sym v u => rw [bindStmt_let]; rfl
  | fn o name sym params bo body u => rw [bindStmt_fn]; rfl
  | assign o name sym v u => rw [bindStmt_assign]; rfl
  | setMember o target q v => rw [bindStmt_setMember]; rfl
  | return_ o v => rw [bindStmt_return]; rfl
  | if_ o c b t e => rw [bindStmt_if]; rfl
  | block o body => rw [bindStmt_block]; rfl
  | expr x => rw [bindStmt_expr]; rfl
  | import_ o q path => rw [bindStmt]; rfl
  | enum o name es => rw [bindStmt]; rfl
  | retain o names => rw [bindStmt]; rfl

theorem declaredNames_bindStmts (visible : List Text) (ss : List Stmt) (p : Program) :
    Stmt.declaredNames (bindStmts n visible ss p).1 = Stmt.declaredNames ss := by
  induction ss generalizing p with
  | nil => rw [bindStmts]; rfl
  | cons s rest ih =>
      rw [bindStmts_cons]
      have hrest := ih (bindStmt n visible s p).2
      unfold Stmt.declaredNames at hrest ⊢
      rw [List.filterMap_cons, List.filterMap_cons, hrest, declared?_bindStmt]

theorem Tells.cons (h : Tells visible around) {names declared : List Text}
    (scope : ScopeId)
    (hnames : ∀ name, name ∈ names ↔ name ∈ declared) :
    Tells (names ++ visible) (⟨declared, scope⟩ :: around) := by
  intro name
  rw [Block.isVisible_cons, ← h name, Bool.eq_iff_iff]
  simp [hnames name]

mutual

theorem bindStmt_sites {visible : List Text} {around : List Block} (h : Tells visible around)
    (next : ScopeId) (s : Stmt) (p : Program) :
    BindsSites n p (bindStmt n visible s p).2 ((bindStmt n visible s p).1.sites next around) := by
  cases s with
  | let_ o name sym v u =>
      rw [bindStmt_let]
      exact bindExpr_sites h (Or.inl rfl) p
  | fn o name sym params bo body u =>
      rw [bindStmt_fn]
      dsimp only
      rw [Stmt.sites, declaredNames_bindStmts]
      apply bindStmts_sites
      apply h.cons
      intro name
      rw [List.mem_append, List.mem_append, or_comm]
  | assign o name sym v u =>
      rw [bindStmt_assign]
      have hstore : BindsSites n (bindExpr n visible v p).2 (bindExpr n visible v p).2
          [(around, .store o name u)] := by
        apply BindsSites.refl
        intro e he
        rw [List.mem_singleton.mp he]
        trivial
      exact (bindExpr_sites h (Or.inl rfl) p).append hstore
  | setMember o target q v =>
      rw [bindStmt_setMember]
      exact (bindExpr_sites h (Or.inl rfl) p).append (bindExpr_sites h (Or.inl rfl) _)
  | return_ o v =>
      rw [bindStmt_return]
      cases v with
      | none => exact BindsSites.nil n p
      | some x =>
          have hrun : bindOptional n visible (some x) p =
              (some (bindExpr n visible x p).1, (bindExpr n visible x p).2) := rfl
          rw [hrun]
          simpa [Stmt.sites, Expr.placed] using bindExpr_sites (n := n) (e := x) h (Or.inl rfl) p
  | if_ o c b t e =>
      rw [bindStmt_if]
      dsimp only
      rw [Stmt.sites, declaredNames_bindStmts]
      have hc := bindExpr_sites (n := n) (e := c) h (Or.inl rfl) p
      have hinner : Tells (Stmt.declaredNames t ++ visible)
          (⟨Stmt.declaredNames t, next⟩ :: around) :=
        h.cons next fun _ => Iff.rfl
      have ht := bindStmts_sites hinner (next + 1) t (bindExpr n visible c p).2
      exact (hc.append ht).append (bindElse_sites h _ e _)
  | block o body =>
      rw [bindStmt_block]
      dsimp only
      rw [Stmt.sites, declaredNames_bindStmts]
      exact bindStmts_sites (h.cons next fun _ => Iff.rfl) (next + 1) body p
  | expr x =>
      rw [bindStmt_expr]
      exact bindExpr_sites h (Or.inl rfl) p
  | import_ o q path => rw [bindStmt]; exact BindsSites.nil n p
  | enum o name es => rw [bindStmt]; exact BindsSites.nil n p
  | retain o names => rw [bindStmt]; exact BindsSites.nil n p

theorem bindStmts_sites {visible : List Text} {around : List Block} (h : Tells visible around)
    (next : ScopeId) (ss : List Stmt) (p : Program) :
    BindsSites n p (bindStmts n visible ss p).2
      (Stmt.sitesOfAll next around (bindStmts n visible ss p).1) := by
  cases ss with
  | nil => rw [bindStmts]; exact BindsSites.nil n p
  | cons s rest =>
      rw [bindStmts_cons]
      exact (bindStmt_sites h next s p).append (bindStmts_sites h _ rest _)

theorem bindElse_sites {visible : List Text} {around : List Block} (h : Tells visible around)
    (next : ScopeId) (e : Option Stmt) (p : Program) :
    BindsSites n p (bindElse n visible e p).2
      (Stmt.sitesOfElse next around (bindElse n visible e p).1) := by
  cases e with
  | none => rw [bindElse]; exact BindsSites.nil n p
  | some s =>
      rw [bindElse]
      exact bindStmt_sites h next s p

end

end Program

end Splice

import Splice.Proofs.Tree.Generation
import Splice.Proofs.Tree.Pass
import Splice.Proofs.Tree.Sites

/-!
# Code can be generated

Generation fails at a name that it cannot load: one of the own namespace without its
record, an enum that is not read for an entry, or a reference that denotes nothing, or an
entry where a value is asked for.  An expression without such names (`Expr.Loads`) has
code, and so has a statement whose expressions (`Stmt.values`) are all of this kind.  A
pass of dead code removal puts no expression where there was none.
-/

namespace Splice

def Site.Loads (c : Coding) : Site → Prop
  | read _ _ _ (.own _ usage) => usage.isSome = true
  | read _ _ access (.std r _) =>
      c.resolution r ≠ .unresolved ∧ (access = none → ∃ s, c.resolution r = .value s)
  | read _ _ access .unbound => (access.bind Access.entry).isSome = true
  | store _ _ _ => True

def Expr.Loads (c : Coding) (e : Expr) : Prop :=
  (∀ site ∈ e.sites none, site.Loads c) ∧
    ∀ o r record, Mention.imported o r record ∈ e.mentions → c.resolution r ≠ .unresolved

namespace Expr

variable {c : Coding}

theorem mem_sitesOfAll {site : Site} (es : List Expr) :
    site ∈ sitesOfAll es ↔ ∃ e ∈ es, site ∈ e.sites none := by
  induction es with
  | nil => simp [sitesOfAll]
  | cons e rest ih => simp [sitesOfAll, ih]

theorem mem_mentionsOfAll {m : Mention} (es : List Expr) :
    m ∈ mentionsOfAll es ↔ ∃ e ∈ es, m ∈ e.mentions := by
  induction es with
  | nil => simp [mentionsOfAll]
  | cons e rest ih => simp [mentionsOfAll, ih]

theorem loads_all (es : List Expr) :
    (∀ e ∈ es, e.Loads c) ↔ (∀ site ∈ sitesOfAll es, site.Loads c) ∧
      ∀ o r record, Mention.imported o r record ∈ mentionsOfAll es →
        c.resolution r ≠ .unresolved := by
  simp only [mem_sitesOfAll, mem_mentionsOfAll]
  constructor
  · intro h
    constructor
    · rintro site ⟨e, he, hsite⟩
      exact (h e he).1 site hsite
    · rintro o r record ⟨e, he, hmention⟩
      exact (h e he).2 o r record hmention
  · rintro ⟨hsites, himported⟩ e he
    exact ⟨fun site hsite => hsites site ⟨e, he, hsite⟩,
      fun o r record hmention => himported o r record ⟨e, he, hmention⟩⟩

theorem loads_call {o : Nat} {callee : Expr} {args : List Expr} :
    (call o callee args).Loads c ↔ callee.Loads c ∧ ∀ a ∈ args, a.Loads c := by
  rw [loads_all]
  simp only [Loads, sites, mentions, List.mem_append, or_imp, forall_and]
  tauto

theorem loads_syscall {o : Nat} {text : Text} {args : List Expr} :
    (syscall o text args).Loads c ↔ ∀ a ∈ args, a.Loads c := by
  rw [loads_all]
  rfl

theorem loads_object {o : Nat} {keys : List SymbolId} {values : List Expr} :
    (object o keys values).Loads c ↔ ∀ v ∈ values, v.Loads c := by
  rw [loads_all]
  simp [Loads, sites, mentions]

theorem loads_binary {o : Nat} {op : BinaryOp} {a b : Expr} :
    (binary o op a b).Loads c ↔ a.Loads c ∧ b.Loads c := by
  simp only [Loads, sites, mentions, List.mem_append, or_imp, forall_and]
  tauto

theorem loads_unary {o : Nat} {op : UnaryOp} {a : Expr} : (unary o op a).Loads c ↔ a.Loads c :=
  Iff.rfl

/-- Only a bare name tells whether a member is accessed on it. -/
theorem sites_eq_of_not_name {e : Expr} (h : ∀ o n read, e ≠ name o n read)
    (access access' : Option Access) : e.sites access = e.sites access' := by
  cases e with
  | name o n read => exact absurd rfl (h o n read)
  | _ => rfl

/-- An access that stands for no entry has a target that can be loaded itself. -/
theorem Loads.target {o : Nat} {x : Expr} {n : Text} {s : SymbolId}
    (h : (member o x n s none).Loads c) (hx : c.stdEntry? x = none) : x.Loads c := by
  obtain ⟨hsites, himported⟩ := h
  constructor
  · by_cases hname : ∃ o' n' read, x = name o' n' read
    · obtain ⟨o', n', read, rfl⟩ := hname
      have hsite := hsites _ List.mem_cons_self
      intro site hmem
      rw [List.mem_singleton.mp hmem]
      cases read with
      | own symbol usage => exact hsite
      | unbound => cases hsite
      | std r record =>
          refine ⟨hsite.1, fun _ => ?_⟩
          -- The reference denotes a value: an entry would have been taken as such.
          cases hr : c.resolution r with
          | value symbol => exact ⟨symbol, rfl⟩
          | entry space enum entry value => simp [Coding.stdEntry?, hr] at hx
          | unresolved => exact absurd hr hsite.1
    · push Not at hname
      rw [sites_eq_of_not_name hname none (some ⟨o, n, none⟩)]
      exact hsites
  · intro o' r record hmention
    exact himported o' r record (List.mem_append_left _ hmention)

mutual

/-- A site that reads is a mention of its name. -/
theorem mention_of_site {o : Nat} {n : Text} {access : Option Access} {read : NameRead}
    (e : Expr) (given : Option Access) (h : Site.read o n access read ∈ e.sites given) :
    Mention.name o n read ∈ e.mentions := by
  cases e with
  | name o' n' read' =>
      cases List.mem_singleton.mp h
      exact List.mem_cons_self
  | member o' x m p entry => exact List.mem_append_left _ (mention_of_site x _ h)
  | call o' callee args =>
      rcases List.mem_append.mp h with hcallee | hargs
      · exact List.mem_append_left _ (mention_of_site callee _ hcallee)
      · exact List.mem_append_right _ (mention_of_sites args hargs)
  | syscall o' text args => exact mention_of_sites args h
  | object o' keys values => exact List.mem_append_left _ (mention_of_sites values h)
  | binary o' op a b =>
      rcases List.mem_append.mp h with hleft | hright
      · exact List.mem_append_left _ (mention_of_site a _ hleft)
      · exact List.mem_append_right _ (mention_of_site b _ hright)
  | unary o' op a => exact mention_of_site a _ h
  | number o' v => cases h
  | string o' v => cases h
  | bool o' v => cases h
  | nil o' => cases h
  | imported o' r m record => cases h

theorem mention_of_sites {o : Nat} {n : Text} {access : Option Access} {read : NameRead}
    (es : List Expr) (h : Site.read o n access read ∈ sitesOfAll es) :
    Mention.name o n read ∈ mentionsOfAll es := by
  cases es with
  | nil => cases h
  | cons e rest =>
      rcases List.mem_append.mp h with hfirst | hrest
      · exact List.mem_append_left _ (mention_of_site e _ hfirst)
      · exact List.mem_append_right _ (mention_of_sites rest hrest)

end

end Expr

namespace Stmt

mutual

/-- The expressions that a statement evaluates, inside it as well. -/
def values : Stmt → List Expr
  | let_ _ _ _ value _ => [value]
  | fn _ _ _ _ _ body _ => valuesOfAll body
  | return_ _ value => value.toList
  | if_ _ condition _ then_ else_ => condition :: (valuesOfAll then_ ++ valuesOfElse else_)
  | block _ body => valuesOfAll body
  | assign _ _ _ value _ => [value]
  | setMember _ target _ value => [target, value]
  | expr x => [x]
  | import_ _ _ _ => []
  | enum _ _ _ => []
  | retain _ _ => []

def valuesOfAll : List Stmt → List Expr
  | [] => []
  | s :: rest => values s ++ valuesOfAll rest

def valuesOfElse : Option Stmt → List Expr
  | none => []
  | some s => values s

end

theorem valuesOfAll_append (a b : List Stmt) :
    valuesOfAll (a ++ b) = valuesOfAll a ++ valuesOfAll b := by
  induction a with
  | nil => rfl
  | cons s rest ih => simp only [List.cons_append, valuesOfAll, ih, List.append_assoc]

theorem valuesOfAll_toList (e : Option Stmt) : valuesOfAll e.toList = valuesOfElse e := by
  cases e with
  | none => rfl
  | some s => exact List.append_nil _

theorem valuesOfAll_singleton (s : Stmt) : valuesOfAll [s] = s.values := List.append_nil _

variable {x : Expr}

mutual

theorem mentions_of_mem_values (s : Stmt) (hx : x ∈ s.values) : x.mentions ⊆ s.mentions := by
  cases s with
  | let_ o n sym v u =>
      cases List.mem_singleton.mp hx
      exact List.subset_append_left _ _
  | fn o n sym ps bo body u =>
      exact List.Subset.trans (mentions_of_mem_valuesOfAll body hx) (List.subset_append_right _ _)
  | return_ o v =>
      intro m hm
      exact List.mem_flatMap.mpr ⟨x, hx, hm⟩
  | if_ o c b t e =>
      intro m hm
      rcases List.mem_cons.mp hx with rfl | hx
      · exact List.mem_append_left _ (List.mem_append_left _ hm)
      · rcases List.mem_append.mp hx with hx | hx
        · exact List.mem_append_left _
            (List.mem_append_right _ (mentions_of_mem_valuesOfAll t hx hm))
        · exact List.mem_append_right _ (mentions_of_mem_valuesOfElse e hx hm)
  | block o body => exact mentions_of_mem_valuesOfAll body hx
  | assign o n sym v u =>
      cases List.mem_singleton.mp hx
      exact List.subset_append_left _ _
  | setMember o target p v =>
      intro m hm
      rcases List.mem_cons.mp hx with rfl | hx
      · exact List.mem_append_left _ (List.mem_append_left _ hm)
      · cases List.mem_singleton.mp hx
        exact List.mem_append_left _ (List.mem_append_right _ hm)
  | expr y =>
      cases List.mem_singleton.mp hx
      exact List.Subset.refl _
  | import_ o a p => cases hx
  | enum o n es => cases hx
  | retain o ns => cases hx

theorem mentions_of_mem_valuesOfAll (ss : List Stmt) (hx : x ∈ valuesOfAll ss) :
    x.mentions ⊆ mentionsOfAll ss := by
  cases ss with
  | nil => cases hx
  | cons s rest =>
      rcases List.mem_append.mp hx with hx | hx
      · exact List.Subset.trans (mentions_of_mem_values s hx) (List.subset_append_left _ _)
      · exact List.Subset.trans (mentions_of_mem_valuesOfAll rest hx)
          (List.subset_append_right _ _)

theorem mentions_of_mem_valuesOfElse (e : Option Stmt) (hx : x ∈ valuesOfElse e) :
    x.mentions ⊆ mentionsOfElse e := by
  cases e with
  | none => cases hx
  | some s => exact mentions_of_mem_values s hx

end

variable {site : Site}

theorem exists_of_placed (around : List Block) (hsite : site ∈ x.sites none) :
    ∃ e ∈ x.placed around, e.2 = site :=
  ⟨(around, site), List.mem_map_of_mem hsite, rfl⟩

mutual

/-- The sites of an expression are sites of the statement that evaluates it. -/
theorem site_of_mem_values (s : Stmt) (next : ScopeId) (around : List Block) (hx : x ∈ s.values)
    (hsite : site ∈ x.sites none) : ∃ e ∈ s.sites next around, e.2 = site := by
  cases s with
  | let_ o n sym v u =>
      cases List.mem_singleton.mp hx
      exact exists_of_placed around hsite
  | fn o n sym ps bo body u => exact site_of_mem_valuesOfAll body _ _ hx hsite
  | return_ o v =>
      obtain ⟨e, he, heq⟩ := exists_of_placed around hsite
      exact ⟨e, List.mem_flatMap.mpr ⟨x, hx, he⟩, heq⟩
  | if_ o c b t f =>
      rcases List.mem_cons.mp hx with rfl | hx
      · obtain ⟨e, he, heq⟩ := exists_of_placed around hsite
        exact ⟨e, List.mem_append_left _ (List.mem_append_left _ he), heq⟩
      · rcases List.mem_append.mp hx with hx | hx
        · obtain ⟨e, he, heq⟩ := site_of_mem_valuesOfAll t (next + 1) _ hx hsite
          exact ⟨e, List.mem_append_left _ (List.mem_append_right _ he), heq⟩
        · obtain ⟨e, he, heq⟩ := site_of_mem_valuesOfElse f _ around hx hsite
          exact ⟨e, List.mem_append_right _ he, heq⟩
  | block o body => exact site_of_mem_valuesOfAll body _ _ hx hsite
  | assign o n sym v u =>
      cases List.mem_singleton.mp hx
      obtain ⟨e, he, heq⟩ := exists_of_placed around hsite
      exact ⟨e, List.mem_append_left _ he, heq⟩
  | setMember o target p v =>
      obtain ⟨e, he, heq⟩ := exists_of_placed around hsite
      rcases List.mem_cons.mp hx with rfl | hx
      · exact ⟨e, List.mem_append_left _ he, heq⟩
      · cases List.mem_singleton.mp hx
        exact ⟨e, List.mem_append_right _ he, heq⟩
  | expr y =>
      cases List.mem_singleton.mp hx
      exact exists_of_placed around hsite
  | import_ o a p => cases hx
  | enum o n es => cases hx
  | retain o ns => cases hx

theorem site_of_mem_valuesOfAll (ss : List Stmt) (next : ScopeId) (around : List Block)
    (hx : x ∈ valuesOfAll ss) (hsite : site ∈ x.sites none) :
    ∃ e ∈ sitesOfAll next around ss, e.2 = site := by
  cases ss with
  | nil => cases hx
  | cons s rest =>
      rcases List.mem_append.mp hx with hx | hx
      · obtain ⟨e, he, heq⟩ := site_of_mem_values s next around hx hsite
        exact ⟨e, List.mem_append_left _ he, heq⟩
      · obtain ⟨e, he, heq⟩ := site_of_mem_valuesOfAll rest (next + listCount s) around hx hsite
        exact ⟨e, List.mem_append_right _ he, heq⟩

theorem site_of_mem_valuesOfElse (f : Option Stmt) (next : ScopeId) (around : List Block)
    (hx : x ∈ valuesOfElse f) (hsite : site ∈ x.sites none) :
    ∃ e ∈ sitesOfElse next around f, e.2 = site := by
  cases f with
  | none => cases hx
  | some s => exact site_of_mem_values s next around hx hsite

end

end Stmt

/-- A pass evaluates nothing that was not evaluated before. -/
theorem Pruning.Pass.mem_values {file : NamespaceId} {ss ss' : List Stmt} {k k' : Pruning}
    {x : Expr} (h : Pass file ss k ss' k') (hx : x ∈ Stmt.valuesOfAll ss') :
    x ∈ Stmt.valuesOfAll ss := by
  induction h with
  | nil => exact hx
  | cons _ _ ihead itail =>
      rw [Stmt.valuesOfAll_append] at hx
      rw [Stmt.valuesOfAll_singleton] at ihead
      exact List.mem_append.mpr ((List.mem_append.mp hx).imp ihead itail)
  | keep => exact hx
  | dropLet => cases hx
  | dropAssign => cases hx
  | reduceAssign => exact hx
  | dropFn => cases hx
  | fn _ _ ih =>
      rw [Stmt.valuesOfAll_singleton] at hx ⊢
      exact ih hx
  | block _ ih =>
      rw [Stmt.valuesOfAll_singleton] at hx ⊢
      exact ih hx
  | ifTrue _ _ ih =>
      rw [Stmt.valuesOfAll_singleton] at hx ⊢
      exact List.mem_cons_of_mem _ (List.mem_append_left _ (ih hx))
  | ifFalse _ _ ih =>
      have hother := ih hx
      rw [Stmt.valuesOfAll_toList] at hother
      rw [Stmt.valuesOfAll_singleton]
      exact List.mem_cons_of_mem _ (List.mem_append_right _ hother)
  | ifKeep _ _ _ ifirst isecond =>
      rw [Stmt.valuesOfAll_toList, Stmt.valuesOfAll_toList] at isecond
      rw [Stmt.valuesOfAll_singleton] at hx ⊢
      refine List.mem_cons.mpr ((List.mem_cons.mp hx).imp_right ?_)
      intro hbranches
      exact List.mem_append.mpr ((List.mem_append.mp hbranches).imp ifirst isecond)

/-! ## Generation succeeds -/

namespace Program

variable {p p' p'' : Program} {n : NamespaceId}

/-- Generation marks entries of enums as used, which changes neither what code depends on
nor how far namespaces have come. -/
structure Marks (p p' : Program) : Prop where
  coding : p'.coding = p.coding
  stage : ∀ m, (p'.spaceAt m).stage = (p.spaceAt m).stage

theorem Marks.refl (p : Program) : p.Marks p := ⟨rfl, fun _ => rfl⟩

theorem Marks.trans (h : p.Marks p') (h' : p'.Marks p'') : p.Marks p'' :=
  ⟨h'.coding.trans h.coding, fun m => (h'.stage m).trans (h.stage m)⟩

theorem marks_markEntryUsed (p : Program) (n : NamespaceId) (enum entry : Text) :
    p.Marks (p.markEntryUsed n enum entry) :=
  ⟨rfl, fun m => spaceAt_modifySpace_same p n m _ Namespace.stage fun _ => rfl⟩

abbrev Generates {α : Type} (action : Linking α) (p : Program) : Prop :=
  Ends action p (fun _ => False) fun _ p' => p.Marks p'

theorem generates_entryValue (space enum entry : Text) (value : Int64) :
    Generates (entryValue space enum entry value) p := by
  simp only [Generates, entryValue, ends_bind, ends_get]
  split
  · exact marks_markEntryUsed p _ enum entry
  · exact Marks.refl p

theorem generates_nameValue {o : Nat} {text : Text} {read : NameRead}
    (h : (Expr.name o text read).Loads p.coding) : Generates (nameValue n read) p := by
  have hsite := h.1 _ List.mem_cons_self
  cases read with
  | unbound => cases hsite
  | own s usage =>
      cases usage with
      | none => cases hsite
      | some u => exact Marks.refl p
  | std r record =>
      obtain ⟨s, hs⟩ : ∃ s, (p.reference r).resolution = .value s := hsite.2 rfl
      simp only [Generates, nameValue, referenceValue, ends_bind, ends_get, hs]
      exact Marks.refl p

mutual

theorem generates_expr (e : Expr) {p : Program} (h : e.Loads p.coding) :
    Generates (generateExpr n e) p := by
  cases e with
  | number o v => exact Marks.refl p
  | string o v => exact Marks.refl p
  | bool o v => exact Marks.refl p
  | nil o => exact Marks.refl p
  | name o text read => exact generates_nameValue h
  | imported o r m record =>
      have hr : (p.reference r).resolution ≠ .unresolved := h.2 o r record List.mem_cons_self
      simp only [Generates, generateExpr, ends_bind, ends_get]
      cases hresolution : (p.reference r).resolution with
      | unresolved => exact absurd hresolution hr
      | entry space enum entry value => exact generates_entryValue space enum entry value
      | value s =>
          simp only [referenceValue, ends_bind, ends_get, hresolution, ends_pure]
          cases m with
          | none => exact Marks.refl p
          | some property => exact Marks.refl p
  | member o x text s entry =>
      simp only [Generates, generateExpr]
      cases entry with
      | some e => exact marks_markEntryUsed p n e.enum e.entry
      | none =>
          simp only [ends_bind, ends_get]
          have hstd := stdRead?_eq p x
          cases hread : p.stdRead? x with
          | some entry =>
              obtain ⟨space, enum, entry, value⟩ := entry
              exact generates_entryValue space enum entry value
          | none =>
              rw [hread, Option.map_none] at hstd
              simp only [ends_bind]
              exact generates_expr x (h.target hstd.symm)
  | call o callee args =>
      obtain ⟨hcallee, hargs⟩ := Expr.loads_call.mp h
      simp only [Generates, generateExpr, ends_bind]
      refine (generates_expr callee hcallee).mono ?_
      intro i p₁ hmarks
      rw [← hmarks.coding] at hargs
      exact (generates_exprs args hargs).mono fun _ _ hmarks' => hmarks.trans hmarks'
  | syscall o text args =>
      simp only [Generates, generateExpr, ends_bind]
      exact generates_exprs args (Expr.loads_syscall.mp h)
  | object o keys values =>
      simp only [Generates, generateExpr, ends_bind]
      exact generates_exprs values (Expr.loads_object.mp h)
  | binary o op a b =>
      obtain ⟨ha, hb⟩ := Expr.loads_binary.mp h
      simp only [Generates, generateExpr, ends_bind]
      refine (generates_expr a ha).mono ?_
      intro i p₁ hmarks
      rw [← hmarks.coding] at hb
      exact (generates_expr b hb).mono fun _ _ hmarks' => hmarks.trans hmarks'
  | unary o op a =>
      simp only [Generates, generateExpr, ends_bind]
      exact generates_expr a (Expr.loads_unary.mp h)

theorem generates_exprs (es : List Expr) {p : Program} (h : ∀ e ∈ es, e.Loads p.coding) :
    Generates (generateExprs n es) p := by
  cases es with
  | nil => exact Marks.refl p
  | cons e rest =>
      simp only [Generates, generateExprs, ends_bind]
      refine (generates_expr e (h e List.mem_cons_self)).mono ?_
      intro i p₁ hmarks
      have hrest : ∀ e ∈ rest, e.Loads p₁.coding := by
        intro e he
        rw [hmarks.coding]
        exact h e (List.mem_cons_of_mem _ he)
      exact (generates_exprs rest hrest).mono fun _ _ hmarks' => hmarks.trans hmarks'

end

mutual

theorem generates_stmt (s : Stmt) {p : Program} (h : ∀ x ∈ s.values, x.Loads p.coding) :
    Generates (generateStmt n s) p := by
  cases s with
  | import_ o q path => exact Marks.refl p
  | enum o text es => exact Marks.refl p
  | retain o texts => exact Marks.refl p
  | let_ o text s value usage =>
      simp only [Generates, generateStmt, ends_bind]
      exact generates_expr value (h value List.mem_cons_self)
  | fn o text s params bo body usage =>
      simp only [Generates, generateStmt, ends_bind]
      exact generates_stmts body h
  | assign o text s value usage =>
      simp only [Generates, generateStmt, ends_bind]
      exact generates_expr value (h value List.mem_cons_self)
  | setMember o target s value =>
      simp only [Generates, generateStmt, ends_bind]
      refine (generates_expr target (h target List.mem_cons_self)).mono ?_
      intro i p₁ hmarks
      have hvalue : value.Loads p₁.coding := by
        rw [hmarks.coding]
        exact h value (List.mem_cons_of_mem _ List.mem_cons_self)
      exact (generates_expr value hvalue).mono fun _ _ hmarks' => hmarks.trans hmarks'
  | return_ o value =>
      simp only [Generates, generateStmt, ends_bind]
      cases value with
      | none => exact Marks.refl p
      | some x =>
          simp only [generateReturn, ends_bind]
          exact generates_expr x (h x List.mem_cons_self)
  | if_ o condition b then_ else_ =>
      simp only [Generates, generateStmt, ends_bind]
      refine (generates_expr condition (h condition List.mem_cons_self)).mono ?_
      intro i p₁ hmarks₁
      have hthen : ∀ x ∈ Stmt.valuesOfAll then_, x.Loads p₁.coding := by
        intro x hx
        rw [hmarks₁.coding]
        exact h x (List.mem_cons_of_mem _ (List.mem_append_left _ hx))
      refine (generates_stmts then_ hthen).mono ?_
      intro is p₂ hmarks₂
      have hboth := hmarks₁.trans hmarks₂
      have helse : ∀ x ∈ Stmt.valuesOfElse else_, x.Loads p₂.coding := by
        intro x hx
        rw [hboth.coding]
        exact h x (List.mem_cons_of_mem _ (List.mem_append_right _ hx))
      exact (generates_else else_ helse).mono fun _ _ hmarks₃ => hboth.trans hmarks₃
  | block o body =>
      simp only [Generates, generateStmt, ends_bind]
      exact generates_stmts body h
  | expr x =>
      simp only [Generates, generateStmt, ends_bind]
      exact generates_expr x (h x List.mem_cons_self)

theorem generates_stmts (ss : List Stmt) {p : Program}
    (h : ∀ x ∈ Stmt.valuesOfAll ss, x.Loads p.coding) : Generates (generateStmts n ss) p := by
  cases ss with
  | nil => exact Marks.refl p
  | cons s rest =>
      simp only [Generates, generateStmts, ends_bind]
      refine (generates_stmt s fun x hx => h x (List.mem_append_left _ hx)).mono ?_
      intro i p₁ hmarks
      have hrest : ∀ x ∈ Stmt.valuesOfAll rest, x.Loads p₁.coding := by
        intro x hx
        rw [hmarks.coding]
        exact h x (List.mem_append_right _ hx)
      exact (generates_stmts rest hrest).mono fun _ _ hmarks' => hmarks.trans hmarks'

theorem generates_else (e : Option Stmt) {p : Program}
    (h : ∀ x ∈ Stmt.valuesOfElse e, x.Loads p.coding) : Generates (generateElse n e) p := by
  cases e with
  | none => exact Marks.refl p
  | some s =>
      simp only [Generates, generateElse, ends_bind]
      exact generates_stmt s h

end

end Program

end Splice

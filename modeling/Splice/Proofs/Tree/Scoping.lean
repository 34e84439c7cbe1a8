import Splice.Proofs.Ledger.Visibility
import Splice.Proofs.Tree.Pruning

/-!
# Scopes of a tree

Statements are bound in an environment if every name that code is generated for has
the record that the environment gives it, and a list of statements in braces has
bindings of its own in front of the environment, each of which is a parameter or is
declared by one of the statements.  The last condition is asked only of bindings
that are live.  After the analysis all of them may count as live; once dead code is
removed, those that are read.
-/

namespace Splice

/-- What the names of a namespace stand for: its identifier, and which records
belong to a reference. -/
structure Naming where
  space : Text
  foreign : ReferenceId → ForeignId → Prop

namespace Naming

def lookup (c : Naming) (Γ : Env) (name : Text) : Option UsageId :=
  Γ.lookup (Symbol.idOf c.space name)

theorem lookup_append (c : Naming) (Δ Γ : Env) (name : Text) :
    c.lookup (Δ ++ Γ) name = (c.lookup Δ name).or (c.lookup Γ name) := by
  rw [lookup, List.lookup_append]
  rfl

end Naming

def Mention.Known (c : Naming) (Γ : Env) : Mention → Prop
  | name _ n (.own _ usage) => ∃ u, usage = some u ∧ c.lookup Γ n = some u
  | name _ _ (.std r record) => ∃ f, record = some f ∧ c.foreign r f
  | imported _ r record => ∃ f, record = some f ∧ c.foreign r f
  | _ => True

theorem Mention.Known.mono {c d : Naming} {Γ : Env} {m : Mention} (h : m.Known c Γ)
    (hspace : c.space = d.space) (hforeign : ∀ r f, c.foreign r f → d.foreign r f) :
    m.Known d Γ := by
  cases m with
  | name o n read =>
      cases read with
      | unbound => trivial
      | own s usage =>
          obtain ⟨u, husage, hlookup⟩ := h
          refine ⟨u, husage, ?_⟩
          rw [Naming.lookup, ← hspace]
          exact hlookup
      | std r record =>
          obtain ⟨f, hrecord, hf⟩ := h
          exact ⟨f, hrecord, hforeign r f hf⟩
  | imported o r record =>
      obtain ⟨f, hrecord, hf⟩ := h
      exact ⟨f, hrecord, hforeign r f hf⟩
  | property s => trivial
  | binding n s => trivial

def Mention.Attached (c : Naming) : Mention → Prop
  | name _ _ (.std r record) => ∃ f, record = some f ∧ c.foreign r f
  | imported _ r record => ∃ f, record = some f ∧ c.foreign r f
  | _ => True

theorem Mention.Known.attached {c : Naming} {Γ : Env} {m : Mention} (h : m.Known c Γ) :
    m.Attached c := by
  cases m with
  | name o n read =>
      cases read with
      | unbound => trivial
      | own s usage => trivial
      | std r record => exact h
  | imported o r record => exact h
  | property s => trivial
  | binding n s => trivial

theorem Mention.Attached.mono {c d : Naming} {m : Mention} (h : m.Attached c)
    (hforeign : ∀ r f, c.foreign r f → d.foreign r f) : m.Attached d := by
  cases m with
  | name o n read =>
      cases read with
      | unbound => trivial
      | own s usage => trivial
      | std r record =>
          obtain ⟨f, hrecord, hf⟩ := h
          exact ⟨f, hrecord, hforeign r f hf⟩
  | imported o r record =>
      obtain ⟨f, hrecord, hf⟩ := h
      exact ⟨f, hrecord, hforeign r f hf⟩
  | property s => trivial
  | binding n s => trivial

theorem Mention.attached_of_read? {c : Naming} {m : Mention} (h : m.read? = none) :
    m.Attached c := by
  cases m with
  | name o n read =>
      cases read with
      | unbound => trivial
      | own s usage => trivial
      | std r record => cases h
  | imported o r record => cases h
  | property s => trivial
  | binding n s => trivial

namespace Expr

mutual

/-- The names in an expression that code is generated for: all but those of enums
whose entries are accessed. -/
def loads : Expr → List Mention
  | number _ _ => []
  | string _ _ => []
  | bool _ _ => []
  | nil _ => []
  | name o n read => [.name o n read]
  | imported o r _ record => [.imported o r record]
  | member _ x _ _ entry => if entry.isSome then [] else loads x
  | call _ callee args => loads callee ++ loadsOfAll args
  | syscall _ _ args => loadsOfAll args
  | object _ _ values => loadsOfAll values
  | binary _ _ a b => loads a ++ loads b
  | unary _ _ a => loads a

def loadsOfAll : List Expr → List Mention
  | [] => []
  | e :: rest => loads e ++ loadsOfAll rest

end

/-- Every name that code is generated for has its record. -/
def Bound (c : Naming) (Γ : Env) (e : Expr) : Prop := ∀ m ∈ e.loads, m.Known c Γ

theorem Bound.mono {c d : Naming} {Γ : Env} {e : Expr} (h : e.Bound c Γ)
    (hspace : c.space = d.space) (hforeign : ∀ r f, c.foreign r f → d.foreign r f) :
    e.Bound d Γ :=
  fun m hm => (h m hm).mono hspace hforeign

end Expr

namespace Stmt

/-- A statement declares a name and has the record of its binding. -/
def Declares (name : Text) (u : UsageId) : Stmt → Prop
  | let_ _ n _ _ usage => n = name ∧ usage = some u
  | fn _ n _ _ _ _ usage => n = name ∧ usage = some u
  | _ => False

/-- Every live binding of a list of statements is a parameter or is declared. -/
def Supported (c : Naming) (live : UsageId → Prop) (params : List Param) (body : List Stmt)
    (Δ : Env) : Prop :=
  ∀ name u, c.lookup Δ name = some u → live u →
    (∃ q ∈ params, q.name = name) ∨ ∃ s ∈ body, s.Declares name u

mutual

def Bound (c : Naming) (live : UsageId → Prop) (Γ : Env) : Stmt → Prop
  | import_ _ _ _ => True
  | enum _ _ _ => True
  | retain _ _ => True
  | let_ _ _ _ value _ => value.Bound c Γ
  | fn _ _ _ params _ body _ =>
      ∃ Δ, Supported c live params body Δ ∧ BoundAll c live (Δ ++ Γ) body
  | return_ _ value => ∀ x ∈ value, Expr.Bound c Γ x
  | if_ _ condition _ then_ else_ =>
      condition.Bound c Γ ∧
      (∃ Δ, Supported c live [] then_ Δ ∧ BoundAll c live (Δ ++ Γ) then_) ∧
      BoundElse c live Γ else_
  | block _ body => ∃ Δ, Supported c live [] body Δ ∧ BoundAll c live (Δ ++ Γ) body
  | assign _ n _ value usage =>
      value.Bound c Γ ∧ ∃ u, usage = some u ∧ c.lookup Γ n = some u
  | setMember _ target _ value => target.Bound c Γ ∧ value.Bound c Γ
  | expr x => x.Bound c Γ

def BoundAll (c : Naming) (live : UsageId → Prop) (Γ : Env) : List Stmt → Prop
  | [] => True
  | s :: rest => Bound c live Γ s ∧ BoundAll c live Γ rest

def BoundElse (c : Naming) (live : UsageId → Prop) (Γ : Env) : Option Stmt → Prop
  | none => True
  | some s => Bound c live Γ s

end

variable {c d : Naming} {live live' : UsageId → Prop} {Γ Δ : Env}

theorem boundAll_append (a b : List Stmt) :
    BoundAll c live Γ (a ++ b) ↔ BoundAll c live Γ a ∧ BoundAll c live Γ b := by
  induction a with
  | nil => simp [BoundAll]
  | cons s rest ih => simp only [List.cons_append, BoundAll, ih, and_assoc]

theorem boundAll_toList (e : Option Stmt) :
    BoundAll c live Γ e.toList ↔ BoundElse c live Γ e := by
  cases e <;> simp [BoundAll, BoundElse]

theorem Supported.mono {params : List Param} {body : List Stmt}
    (h : Supported c live params body Δ) (hspace : c.space = d.space)
    (hlive : ∀ u, live' u → live u) : Supported d live' params body Δ := by
  intro name u hlookup hu
  apply h name u _ (hlive u hu)
  rw [Naming.lookup, hspace]
  exact hlookup

mutual

/-- Fewer bindings may be live, and more may be known of the records. -/
theorem Bound.mono {Γ : Env} {s : Stmt} (h : s.Bound c live Γ) (hspace : c.space = d.space)
    (hforeign : ∀ r f, c.foreign r f → d.foreign r f) (hlive : ∀ u, live' u → live u) :
    s.Bound d live' Γ := by
  cases s with
  | import_ o q p => trivial
  | enum o n es => trivial
  | retain o ns => trivial
  | let_ o n s v u => exact Expr.Bound.mono h hspace hforeign
  | fn o n s ps bo body u =>
      obtain ⟨Δ, hsupported, hbody⟩ := h
      exact ⟨Δ, hsupported.mono hspace hlive, BoundAll.mono hbody hspace hforeign hlive⟩
  | return_ o v =>
      intro x hx
      exact Expr.Bound.mono (h x hx) hspace hforeign
  | if_ o condition b then_ else_ =>
      obtain ⟨hcondition, ⟨Δ, hsupported, hthen⟩, helse⟩ := h
      exact ⟨hcondition.mono hspace hforeign,
        ⟨Δ, hsupported.mono hspace hlive, BoundAll.mono hthen hspace hforeign hlive⟩,
        BoundElse.mono helse hspace hforeign hlive⟩
  | block o body =>
      obtain ⟨Δ, hsupported, hbody⟩ := h
      exact ⟨Δ, hsupported.mono hspace hlive, BoundAll.mono hbody hspace hforeign hlive⟩
  | assign o n s v u =>
      obtain ⟨hvalue, w, husage, hlookup⟩ := h
      refine ⟨hvalue.mono hspace hforeign, w, husage, ?_⟩
      rw [Naming.lookup, ← hspace]
      exact hlookup
  | setMember o t p v =>
      exact ⟨Expr.Bound.mono h.1 hspace hforeign, Expr.Bound.mono h.2 hspace hforeign⟩
  | expr x => exact Expr.Bound.mono h hspace hforeign

theorem BoundAll.mono {Γ : Env} {ss : List Stmt} (h : BoundAll c live Γ ss)
    (hspace : c.space = d.space) (hforeign : ∀ r f, c.foreign r f → d.foreign r f)
    (hlive : ∀ u, live' u → live u) :
    BoundAll d live' Γ ss := by
  cases ss with
  | nil => trivial
  | cons s rest =>
      exact ⟨Bound.mono h.1 hspace hforeign hlive, BoundAll.mono h.2 hspace hforeign hlive⟩

theorem BoundElse.mono {Γ : Env} {e : Option Stmt} (h : BoundElse c live Γ e)
    (hspace : c.space = d.space) (hforeign : ∀ r f, c.foreign r f → d.foreign r f)
    (hlive : ∀ u, live' u → live u) : BoundElse d live' Γ e := by
  cases e with
  | none => trivial
  | some s => exact Bound.mono (s := s) h hspace hforeign hlive

end

end Stmt

/-! ## Dead code removal keeps names bound -/

namespace Pruning

variable {file : NamespaceId} {c : Naming} {live live' : UsageId → Prop}

theorem isRead_of_release {l : Ledger} {r : Read} {u : UsageId}
    (h : ((l.release file r).usage u).isRead = true) : (l.usage u).isRead = true := by
  simp only [Usage.isRead, Ledger.readers_release, Bool.not_eq_true', List.isEmpty_eq_false_iff]
    at h ⊢
  intro hnil
  rw [hnil] at h
  simp at h

/-- Readers only ever disappear. -/
theorem Releases.isRead {l l' : Ledger} {a b : List Read} {u : UsageId}
    (h : Releases file a b l l') (hread : (l'.usage u).isRead = true) :
    (l.usage u).isRead = true := by
  obtain ⟨dropped, -, rfl⟩ := h
  clear a b
  induction dropped generalizing l with
  | nil => exact hread
  | cons r rest ih => exact isRead_of_release (ih hread)

theorem not_isDead {l : Ledger} {u : UsageId} (h : (l.usage u).isRead = true) :
    isDead l (some u) = false := by
  simp [isDead, h]

/-- The declaration of a binding that is still read after a pass is kept. -/
theorem pruneStmt_declares {s : Stmt} {k : Pruning} {name : Text} {u : UsageId}
    (h : s.Declares name u) (hread : ((pruneStmt file s k).2.ledger.usage u).isRead = true) :
    ∃ s', (pruneStmt file s k).1 = some s' ∧ s'.Declares name u := by
  have hdead := not_isDead ((pruneStmt_releases s k).isRead hread)
  cases s with
  | let_ o n sym v usage =>
      obtain ⟨rfl, rfl⟩ := h
      rw [pruneStmt_let, hdead]
      exact ⟨_, rfl, rfl, rfl⟩
  | fn o n sym ps bo body usage =>
      obtain ⟨rfl, rfl⟩ := h
      rw [pruneStmt_fn, hdead]
      exact ⟨_, rfl, rfl, rfl⟩
  | import_ o q p => cases h
  | enum o n es => cases h
  | retain o ns => cases h
  | return_ o v => cases h
  | if_ o cond b t e => cases h
  | block o body => cases h
  | assign o n sym v usage => cases h
  | setMember o t p v => cases h
  | expr x => cases h

theorem pruneStmts_declares {ss : List Stmt} {k : Pruning} {name : Text} {u : UsageId}
    (h : ∃ s ∈ ss, s.Declares name u)
    (hread : ((pruneStmts file ss k).2.ledger.usage u).isRead = true) :
    ∃ s ∈ (pruneStmts file ss k).1, s.Declares name u := by
  induction ss generalizing k with
  | nil => simp at h
  | cons s rest ih =>
      rw [pruneStmts_cons] at hread ⊢
      obtain ⟨t, ht, hdeclares⟩ := h
      rcases List.mem_cons.mp ht with rfl | hrest
      · have hfirst := (pruneStmts_releases rest (pruneStmt file t k).2).isRead hread
        obtain ⟨s', hkept, hs'⟩ := pruneStmt_declares hdeclares hfirst
        refine ⟨s', ?_, hs'⟩
        simp [hkept]
      · obtain ⟨s', hmem, hs'⟩ := ih ⟨t, hrest, hdeclares⟩ hread
        exact ⟨s', List.mem_append_right _ hmem, hs'⟩

theorem pruneStmts_supported {ss : List Stmt} {k : Pruning} {params : List Param} {Δ : Env}
    (h : Stmt.Supported c live params ss Δ) (hlive : ∀ u, live' u → live u)
    (hread : ∀ u, live' u → ((pruneStmts file ss k).2.ledger.usage u).isRead = true) :
    Stmt.Supported c live' params (pruneStmts file ss k).1 Δ := by
  intro name u hlookup hu
  rcases h name u hlookup (hlive u hu) with hparam | hdeclared
  · exact Or.inl hparam
  · exact Or.inr (pruneStmts_declares hdeclared (hread u hu))

mutual

theorem pruneStmt_bound {Γ : Env} (s : Stmt) (k : Pruning) (h : s.Bound c live Γ)
    (hlive : ∀ u, live' u → live u)
    (hread : ∀ u, live' u → ((pruneStmt file s k).2.ledger.usage u).isRead = true) :
    Stmt.BoundElse c live' Γ (pruneStmt file s k).1 := by
  have hkept : Stmt.BoundElse c live' Γ (some s) :=
    Stmt.Bound.mono h rfl (fun _ _ hf => hf) hlive
  cases s with
  | let_ o n s v u =>
      rw [pruneStmt_let]
      split
      · trivial
      · exact hkept
  | assign o n s v u =>
      rw [pruneStmt_assign]
      split
      · split
        · trivial
        · exact h.1
      · exact hkept
  | fn o n s ps bo body u =>
      rw [pruneStmt_fn] at hread ⊢
      split
      · trivial
      · next hdead =>
          rw [if_neg hdead] at hread
          obtain ⟨Δ, hsupported, hbody⟩ := h
          exact ⟨Δ, pruneStmts_supported hsupported hlive hread,
            pruneStmts_bound body k hbody hlive hread⟩
  | block o body =>
      rw [pruneStmt_block] at hread ⊢
      obtain ⟨Δ, hsupported, hbody⟩ := h
      exact ⟨Δ, pruneStmts_supported hsupported hlive hread,
        pruneStmts_bound body k hbody hlive hread⟩
  | if_ o condition b t e =>
      obtain ⟨hcondition, ⟨Δ, hsupported, hthen⟩, helse⟩ := h
      cases hc : condition.constant? k.ledger with
      | none =>
          rw [pruneStmt_if_none _ _ _ _ _ _ _ hc] at hread ⊢
          have hmid : ∀ u, live' u → ((pruneStmts file t k).2.ledger.usage u).isRead = true :=
            fun u hu => (pruneElse_releases e _).isRead (hread u hu)
          exact ⟨hcondition,
            ⟨Δ, pruneStmts_supported hsupported hlive hmid,
              pruneStmts_bound t k hthen hlive hmid⟩,
            pruneElse_bound e _ helse hlive hread⟩
      | some value =>
          cases value with
          | true =>
              rw [pruneStmt_if_true _ _ _ _ _ _ _ hc] at hread ⊢
              exact ⟨Δ, pruneStmts_supported hsupported hlive hread,
                pruneStmts_bound t _ hthen hlive hread⟩
          | false =>
              rw [pruneStmt_if_false _ _ _ _ _ _ _ hc] at hread ⊢
              exact pruneElse_bound e _ helse hlive hread
  | import_ o q p => rw [pruneStmt_of_isInert file k rfl]; exact hkept
  | enum o n es => rw [pruneStmt_of_isInert file k rfl]; exact hkept
  | retain o ns => rw [pruneStmt_of_isInert file k rfl]; exact hkept
  | return_ o v => rw [pruneStmt_of_isInert file k rfl]; exact hkept
  | setMember o t p v => rw [pruneStmt_of_isInert file k rfl]; exact hkept
  | expr x => rw [pruneStmt_of_isInert file k rfl]; exact hkept

/-- Statements stay bound in a pass, with those bindings live that are still read
after it. -/
theorem pruneStmts_bound {Γ : Env} (ss : List Stmt) (k : Pruning)
    (h : Stmt.BoundAll c live Γ ss) (hlive : ∀ u, live' u → live u)
    (hread : ∀ u, live' u → ((pruneStmts file ss k).2.ledger.usage u).isRead = true) :
    Stmt.BoundAll c live' Γ (pruneStmts file ss k).1 := by
  cases ss with
  | nil =>
      rw [pruneStmts]
      trivial
  | cons s rest =>
      rw [pruneStmts_cons] at hread ⊢
      have hmid : ∀ u, live' u → ((pruneStmt file s k).2.ledger.usage u).isRead = true :=
        fun u hu => (pruneStmts_releases rest _).isRead (hread u hu)
      rw [Stmt.boundAll_append, Stmt.boundAll_toList]
      exact ⟨pruneStmt_bound s k h.1 hlive hmid, pruneStmts_bound rest _ h.2 hlive hread⟩

theorem pruneElse_bound {Γ : Env} (e : Option Stmt) (k : Pruning)
    (h : Stmt.BoundElse c live Γ e) (hlive : ∀ u, live' u → live u)
    (hread : ∀ u, live' u → ((pruneElse file e k).2.ledger.usage u).isRead = true) :
    Stmt.BoundElse c live' Γ (pruneElse file e k).1 := by
  cases e with
  | none =>
      rw [pruneElse_none]
      trivial
  | some s =>
      rw [pruneElse_some] at hread ⊢
      exact pruneStmt_bound s k h hlive hread

end

end Pruning

end Splice

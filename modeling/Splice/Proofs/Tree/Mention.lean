import Splice.Tree.Node

/-!
# What a tree mentions

The mentions of a tree are the names it reads, declares and assigns, and the
properties it accesses, in the order of the nodes that hold them.  A mention of a
name or of an import keeps its offset and the records it was given, so the reads of
a tree can be told from its mentions alone (`Stmt.filterMap_mention?_nodes`).  What
later steps need to know of a tree, apart from the scopes of its names, is stated
of its list of mentions.
-/

namespace Splice

inductive Mention where
  /-- A bare name. -/
  | name (offset : Nat) (name : Text) (read : NameRead)
  /-- A name behind an import alias. -/
  | imported (offset : Nat) (reference : ReferenceId) (record : Option ForeignId)
  /-- A name of a member or a field. -/
  | property (symbol : SymbolId)
  /-- A name that is declared or assigned. -/
  | binding (name : Text) (symbol : SymbolId)
deriving DecidableEq, Repr, Inhabited

namespace Mention

def read? : Mention → Option Read
  | name o _ (.own _ usage) => some ⟨o, usage, none⟩
  | name o _ (.std _ record) => some ⟨o, none, record⟩
  | imported o _ record => some ⟨o, none, record⟩
  | _ => none

def offset? : Mention → Option Nat
  | name o _ _ => some o
  | imported o _ _ => some o
  | _ => none

def isName : Mention → Bool
  | name _ _ _ => true
  | imported _ _ _ => true
  | _ => false

theorem filterMap_read?_filter (ms : List Mention) :
    (ms.filter isName).filterMap read? = ms.filterMap read? := by
  rw [List.filterMap_filter]
  congr 1
  funext m
  cases m <;> rfl

def bare : Mention → Mention
  | name o n (.own s _) => name o n (.own s none)
  | name o n (.std r _) => name o n (.std r none)
  | imported o r _ => imported o r none
  | m => m

@[simp] theorem offset?_bare (m : Mention) : m.bare.offset? = m.offset? := by
  cases m with
  | name o n read => cases read <;> rfl
  | imported o r record => rfl
  | property s => rfl
  | binding n s => rfl

end Mention

namespace Expr

mutual

def mentions : Expr → List Mention
  | number _ _ => []
  | string _ _ => []
  | bool _ _ => []
  | nil _ => []
  | name o n read => [.name o n read]
  | imported o r m record => .imported o r record :: m.toList.map .property
  | member _ x _ p _ => mentions x ++ [.property p]
  | call _ callee args => mentions callee ++ mentionsOfAll args
  | syscall _ _ args => mentionsOfAll args
  | object _ keys values => mentionsOfAll values ++ keys.map .property
  | binary _ _ a b => mentions a ++ mentions b
  | unary _ _ a => mentions a

def mentionsOfAll : List Expr → List Mention
  | [] => []
  | e :: rest => mentions e ++ mentionsOfAll rest

end

def mention? : Expr → Option Mention
  | name o n read => some (.name o n read)
  | imported o r _ record => some (.imported o r record)
  | _ => none

theorem read?_eq (e : Expr) : e.read? = e.mention?.bind Mention.read? := by
  cases e with
  | name o n read => cases read <;> rfl
  | _ => rfl

mutual

/-- The names among the mentions of an expression are its nodes. -/
theorem filterMap_mention?_nodes (e : Expr) :
    e.nodes.filterMap mention? = e.mentions.filter Mention.isName := by
  cases e with
  | name o n read => rfl
  | imported o r m record => cases m <;> rfl
  | member o x n p entry =>
      simp [nodes, mentions, List.filterMap_cons, mention?, Mention.isName,
        filterMap_mention?_nodes x]
  | call o callee args =>
      simp [nodes, mentions, List.filterMap_cons, mention?, filterMap_mention?_nodes callee,
        filterMap_mention?_nodesOfAll args]
  | syscall o n args =>
      simp [nodes, mentions, List.filterMap_cons, mention?, filterMap_mention?_nodesOfAll args]
  | object o keys values =>
      simp [nodes, mentions, List.filterMap_cons, mention?, Mention.isName,
        filterMap_mention?_nodesOfAll values]
  | binary o op a b =>
      simp [nodes, mentions, List.filterMap_cons, mention?, filterMap_mention?_nodes a,
        filterMap_mention?_nodes b]
  | unary o op a =>
      simp [nodes, mentions, List.filterMap_cons, mention?, filterMap_mention?_nodes a]
  | number o v => rfl
  | string o v => rfl
  | bool o v => rfl
  | nil o => rfl

theorem filterMap_mention?_nodesOfAll (es : List Expr) :
    (nodesOfAll es).filterMap mention? = (mentionsOfAll es).filter Mention.isName := by
  cases es with
  | nil => rfl
  | cons e rest =>
      simp [nodesOfAll, mentionsOfAll, filterMap_mention?_nodes e,
        filterMap_mention?_nodesOfAll rest]

end

end Expr

def Node.mention? : Node → Option Mention
  | expr e => e.mention?
  | stmt _ => none

theorem Node.filterMap_read?_eq (nodes : List Node) :
    nodes.filterMap Node.read? = (nodes.filterMap Node.mention?).filterMap Mention.read? := by
  rw [List.filterMap_filterMap]
  congr 1
  funext node
  cases node with
  | expr e => exact e.read?_eq
  | stmt s => rfl

namespace Stmt

mutual

/-- The mentions of a statement and of everything inside it. -/
def mentions : Stmt → List Mention
  | import_ _ _ _ => []
  | enum _ _ _ => []
  | retain _ _ => []
  | let_ _ n s value _ => value.mentions ++ [.binding n s]
  | fn _ n s params _ body _ =>
      .binding n s :: (params.map fun q => .binding q.name q.symbol) ++ mentionsOfAll body
  | return_ _ value => value.toList.flatMap Expr.mentions
  | if_ _ c _ then_ else_ => c.mentions ++ mentionsOfAll then_ ++ mentionsOfElse else_
  | block _ body => mentionsOfAll body
  | assign _ n s value _ => value.mentions ++ [.binding n s]
  | setMember _ target p value => target.mentions ++ value.mentions ++ [.property p]
  | expr x => x.mentions

def mentionsOfAll : List Stmt → List Mention
  | [] => []
  | s :: rest => mentions s ++ mentionsOfAll rest

def mentionsOfElse : Option Stmt → List Mention
  | none => []
  | some s => mentions s

end

theorem mentionsOfAll_toList_append (e : Option Stmt) (rest : List Stmt) :
    mentionsOfAll (e.toList ++ rest) = mentionsOfElse e ++ mentionsOfAll rest := by
  cases e <;> rfl

private theorem filterMap_mention?_exprNodes (e : Expr) :
    e.nodes.filterMap (Node.mention? ∘ Node.expr) = e.mentions.filter Mention.isName :=
  Expr.filterMap_mention?_nodes e

/-! A node of a statement is no mention; its expressions are listed by their own
nodes. -/

theorem nodes_let (o n s v u) :
    nodes (let_ o n s v u) = .stmt (let_ o n s v u) :: v.nodes.map Node.expr := rfl

theorem nodes_if (o c b t e) :
    nodes (if_ o c b t e) = .stmt (if_ o c b t e) ::
      (c.nodes.map Node.expr ++ .stmt (block b t) :: nodesOfAll t ++ nodesOfElse e) := rfl

theorem nodes_assign (o n s v u) :
    nodes (assign o n s v u) = .stmt (assign o n s v u) :: v.nodes.map Node.expr := rfl

theorem nodes_setMember (o t p v) :
    nodes (setMember o t p v) = .stmt (setMember o t p v) ::
      (t.nodes.map Node.expr ++ v.nodes.map Node.expr) := rfl

theorem nodes_expr (x) : nodes (expr x) = .stmt (expr x) :: x.nodes.map Node.expr := rfl

theorem nodes_return (o v) :
    nodes (return_ o (some v)) = .stmt (return_ o (some v)) :: v.nodes.map Node.expr := by
  change _ :: ((some v).toList.flatMap fun e : Expr => e.nodes.map Node.expr) = _
  simp

mutual

/-- The names among the mentions of a statement are its nodes. -/
theorem filterMap_mention?_nodes (s : Stmt) :
    s.nodes.filterMap Node.mention? = s.mentions.filter Mention.isName := by
  cases s with
  | let_ o n s v u =>
      simp [nodes_let, mentions, List.filterMap_cons, Node.mention?, Mention.isName,
        filterMap_mention?_exprNodes]
  | fn o n s params bo body u =>
      simp [nodes, mentions, List.filterMap_cons, Node.mention?, Mention.isName,
        filterMap_mention?_nodesOfAll body]
  | return_ o v =>
      cases v with
      | none => rfl
      | some x =>
          simp [nodes_return, mentions, List.filterMap_cons, Node.mention?,
            filterMap_mention?_exprNodes]
  | if_ o c b then_ else_ =>
      simp [nodes_if, mentions, List.filterMap_cons, Node.mention?, filterMap_mention?_exprNodes,
        filterMap_mention?_nodesOfAll then_, filterMap_mention?_nodesOfElse else_]
  | block o body =>
      simp [nodes, mentions, List.filterMap_cons, Node.mention?, filterMap_mention?_nodesOfAll body]
  | assign o n s v u =>
      simp [nodes_assign, mentions, List.filterMap_cons, Node.mention?, Mention.isName,
        filterMap_mention?_exprNodes]
  | setMember o t p v =>
      simp [nodes_setMember, mentions, List.filterMap_cons, Node.mention?, Mention.isName,
        filterMap_mention?_exprNodes]
  | expr x =>
      simp [nodes_expr, mentions, List.filterMap_cons, Node.mention?, filterMap_mention?_exprNodes]
  | import_ o a p => rfl
  | enum o n es => rfl
  | retain o ns => rfl

theorem filterMap_mention?_nodesOfAll (ss : List Stmt) :
    (nodesOfAll ss).filterMap Node.mention? = (mentionsOfAll ss).filter Mention.isName := by
  cases ss with
  | nil => rfl
  | cons s rest =>
      simp [nodesOfAll, mentionsOfAll, filterMap_mention?_nodes s,
        filterMap_mention?_nodesOfAll rest]

theorem filterMap_mention?_nodesOfElse (e : Option Stmt) :
    (nodesOfElse e).filterMap Node.mention? = (mentionsOfElse e).filter Mention.isName := by
  cases e with
  | none => rfl
  | some s => exact filterMap_mention?_nodes s

end

/-! ## Reads -/

def reads (s : Stmt) : List Read := s.nodes.filterMap Node.read?

def readsOfAll (ss : List Stmt) : List Read := (nodesOfAll ss).filterMap Node.read?

def readsOfElse (e : Option Stmt) : List Read := (nodesOfElse e).filterMap Node.read?

@[simp] theorem readsOfAll_nil : readsOfAll [] = [] := rfl

@[simp] theorem readsOfAll_cons (s : Stmt) (rest : List Stmt) :
    readsOfAll (s :: rest) = s.reads ++ readsOfAll rest := by
  simp [readsOfAll, reads, nodesOfAll]

@[simp] theorem readsOfElse_none : readsOfElse none = [] := rfl

@[simp] theorem readsOfElse_some (s : Stmt) : readsOfElse (some s) = s.reads := rfl

theorem readsOfAll_toList_append (e : Option Stmt) (rest : List Stmt) :
    readsOfAll (e.toList ++ rest) = readsOfElse e ++ readsOfAll rest := by
  cases e <;> simp

@[simp] theorem reads_let (o n s v u) :
    (let_ o n s v u).reads = v.nodes.filterMap Expr.read? := by
  simp only [reads, nodes_let, List.filterMap_cons, List.filterMap_map, Node.read?]
  rfl

@[simp] theorem reads_assign (o n s v u) :
    (assign o n s v u).reads = v.nodes.filterMap Expr.read? := by
  simp only [reads, nodes_assign, List.filterMap_cons, List.filterMap_map, Node.read?]
  rfl

@[simp] theorem reads_expr (x) : (expr x).reads = x.nodes.filterMap Expr.read? := by
  simp only [reads, nodes_expr, List.filterMap_cons, List.filterMap_map, Node.read?]
  rfl

@[simp] theorem reads_fn (o n s ps bo body u) :
    (fn o n s ps bo body u).reads = readsOfAll body := by
  simp [reads, readsOfAll, nodes, List.filterMap_cons, Node.read?]

@[simp] theorem reads_block (o body) : (block o body).reads = readsOfAll body := by
  simp [reads, readsOfAll, nodes, List.filterMap_cons, Node.read?]

@[simp] theorem reads_if (o c b t e) :
    (if_ o c b t e).reads =
      c.nodes.filterMap Expr.read? ++ readsOfAll t ++ readsOfElse e := by
  simp only [reads, readsOfAll, readsOfElse, nodes_if, List.filterMap_cons,
    List.filterMap_append, List.filterMap_map, Node.read?, List.append_assoc]
  rfl

end Stmt

def Tree.reads (t : Tree) : List Read := Stmt.readsOfAll t.statements

theorem Tree.reads_eq (t : Tree) : t.reads = t.nodes.filterMap Node.read? := rfl

/-- The reads among the nodes of a tree are those among its mentions. -/
theorem Tree.reads_eq_mentions (t : Tree) :
    t.reads = (Stmt.mentionsOfAll t.statements).filterMap Mention.read? := by
  rw [Tree.reads, Stmt.readsOfAll, Node.filterMap_read?_eq, Stmt.filterMap_mention?_nodesOfAll,
    Mention.filterMap_read?_filter]

namespace Stmt

mutual

/-- The other branch of an `if` declares nothing in the scope around it. -/
def Regular : Stmt → Prop
  | fn _ _ _ _ _ body _ => RegularAll body
  | if_ _ _ _ then_ else_ => RegularAll then_ ∧ RegularElse else_
  | block _ body => RegularAll body
  | _ => True

def RegularAll : List Stmt → Prop
  | [] => True
  | s :: rest => Regular s ∧ RegularAll rest

def RegularElse : Option Stmt → Prop
  | none => True
  | some s => s.declared? = none ∧ Regular s

end

end Stmt

end Splice

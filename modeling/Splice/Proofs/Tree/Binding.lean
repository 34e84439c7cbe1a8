import Splice.Proofs.Tree.Regularity
import Splice.Tree.Bind

/-!
# What binding does to a tree

Binding gives every bare name a symbol of its own namespace or a reference to the
standard library.  It leaves the places of names and the shape of statements as they
are, and what a name is given belongs to the namespace.
-/

namespace Splice

namespace Program

variable {n : NamespaceId} {visible : List Text} {p p' p'' : Program}

def Unshadowed (p : Program) (n : NamespaceId) (ms : List Mention) : Prop :=
  ∀ o text r record, Mention.name o text (.std r record) ∈ ms →
    (p.spaceAt n).enum? text = none

theorem Unshadowed.of_enums {ms : List Mention} (h : Unshadowed p n ms)
    (henums : (p'.spaceAt n).enums = (p.spaceAt n).enums) : Unshadowed p' n ms := by
  intro o text r record hm
  rw [Namespace.enum?, henums]
  exact h o text r record hm

/-- Mentions are replaced one by one while the program grows: they stand where they
stood, refer to what is there, and have no records.  The files stay as they are. -/
structure Binds (n : NamespaceId) (p p' : Program) (before after : List Mention) : Prop where
  adds : p.Adds n p'
  files : p.SameFiles p'
  offsets : after.filterMap Mention.offset? = before.filterMap Mention.offset?
  valid : ∀ m ∈ after, m.Valid p' n ∧ m.bare = m
  unshadowed : Unshadowed p' n after

def Bindable (n : NamespaceId) (p : Program) (ms : List Mention) : Prop :=
  ∀ m ∈ ms, m.Valid p n ∧ m.Parsed

theorem Bindable.mono {ms : List Mention} (h : Bindable n p ms) (hgrows : p.Grows p') :
    Bindable n p' ms :=
  fun m hm => ⟨(h m hm).1.mono hgrows, (h m hm).2⟩

theorem Bindable.left {a b : List Mention} (h : Bindable n p (a ++ b)) : Bindable n p a :=
  fun m hm => h m (List.mem_append_left _ hm)

theorem Bindable.right {a b : List Mention} (h : Bindable n p (a ++ b)) : Bindable n p b :=
  fun m hm => h m (List.mem_append_right _ hm)

theorem bare_of_parsed {m : Mention} (h : m.Parsed) : m.bare = m := by
  cases m with
  | name o text read =>
      rw [show read = .unbound from h]
      rfl
  | imported o r record =>
      rw [show record = none from h]
      rfl
  | property s => rfl
  | binding text s => rfl

theorem Binds.append {a a' b b' : List Mention} (h : Binds n p p' a a')
    (h' : Binds n p' p'' b b') : Binds n p p'' (a ++ b) (a' ++ b') where
  adds := h.adds.trans h'.adds
  files := h.files.trans h'.files
  offsets := by rw [List.filterMap_append, List.filterMap_append, h.offsets, h'.offsets]
  valid m hm := by
    rcases List.mem_append.mp hm with hm | hm
    · exact ⟨(h.valid m hm).1.mono h'.adds.grows, (h.valid m hm).2⟩
    · exact h'.valid m hm
  unshadowed o text r record hm := by
    rcases List.mem_append.mp hm with hm | hm
    · exact h.unshadowed.of_enums (h'.files.enums n) o text r record hm
    · exact h'.unshadowed o text r record hm

/-- Mentions that binding leaves alone. -/
theorem Binds.refl (hp : p.Pristine) {ms : List Mention} (h : Bindable n p ms) :
    Binds n p p ms ms where
  adds := Adds.refl hp
  files := SameFiles.refl p
  offsets := rfl
  valid m hm := ⟨(h m hm).1, bare_of_parsed (h m hm).2⟩
  unshadowed o text r record hm := by
    have hparsed : NameRead.std r record = .unbound := (h _ hm).2
    cases hparsed

theorem bindName_eq (n : NamespaceId) (visible : List Text) (member : Text) (o : Nat) (text : Text)
    (p : Program) :
    bindName n visible member o text p =
      if visible.contains text then (.own (p.addSymbol n text).1 none, (p.addSymbol n text).2)
      else if ((p.spaceAt n).enum? text).isSome then (.unbound, p)
      else (.std (p.addReference n [] text member o).1 none,
        (p.addReference n [] text member o).2) := by
  change (ite _ _ _ : StateM Program NameRead) p = _
  split
  · rfl
  · split <;> rfl

theorem bindName_spec (hp : p.Pristine) (hn : n < p.namespaces.size) (member : Text)
    (o : Nat) (text : Text) (read : NameRead) :
    Binds n p (bindName n visible member o text p).2 [.name o text read]
      [.name o text (bindName n visible member o text p).1] := by
  rw [bindName_eq]
  split
  · refine ⟨adds_addSymbol hp n text, sameFiles_addSymbol p n text, rfl, ?_, ?_⟩
    · intro m hm
      rw [List.mem_singleton.mp hm]
      exact ⟨mem_symbolsOf_addSymbol hn text, rfl⟩
    · intro _ _ _ _ hm
      cases List.mem_singleton.mp hm
  · split
    · refine ⟨Adds.refl hp, SameFiles.refl p, rfl, ?_, ?_⟩
      · intro m hm
        rw [List.mem_singleton.mp hm]
        exact ⟨trivial, rfl⟩
      · intro _ _ _ _ hm
        cases List.mem_singleton.mp hm
    · next henum =>
        have hadds := adds_addReference (n := n) hp [] text member o
        have hfiles := sameFiles_addReference p n [] text member o
        have hmem := mem_addReference hn [] text member o
        refine ⟨hadds, hfiles, rfl, ?_, ?_⟩
        · intro m hm
          rw [List.mem_singleton.mp hm]
          refine ⟨⟨hmem, hadds.pristine.reference_lt n _ hmem, ?_, ?_⟩, rfl⟩
          · rw [reference_addReference_new]
          · rw [reference_addReference_new]
        · intro _ _ _ _ hm
          cases List.mem_singleton.mp hm
          rw [hfiles.part (fun ns => ns.enum? text) (fun _ => rfl)]
          simpa using henum

section

variable (n : NamespaceId) (visible : List Text) (p : Program)

-- The equations are made once, for all the lemmas below.
attribute [local simp] bindExpr bindExprs

theorem bindExpr_member_name (o at_ target read name q e) :
    bindExpr n visible (.member o (.name at_ target read) name q e) p =
      let r := bindName n visible name at_ target p
      (.member o (.name at_ target r.1) name q e, r.2) := by
  rw [bindExpr]
  rfl

theorem bindExpr_member {x : Expr} (hx : ∀ o text read, x ≠ .name o text read) (o name q e) :
    bindExpr n visible (.member o x name q e) p =
      (.member o (bindExpr n visible x p).1 name q e, (bindExpr n visible x p).2) := by
  rw [bindExpr]
  · rfl
  · exact hx

theorem bindExpr_call (o callee args) :
    bindExpr n visible (.call o callee args) p =
      let r := bindExpr n visible callee p
      let a := bindExprs n visible args r.2
      (.call o r.1 a.1, a.2) := by
  rw [bindExpr]
  rfl

theorem bindExpr_syscall (o name args) :
    bindExpr n visible (.syscall o name args) p =
      (.syscall o name (bindExprs n visible args p).1, (bindExprs n visible args p).2) := by
  rw [bindExpr]
  rfl

theorem bindExpr_object (o keys values) :
    bindExpr n visible (.object o keys values) p =
      (.object o keys (bindExprs n visible values p).1, (bindExprs n visible values p).2) := by
  rw [bindExpr]
  rfl

theorem bindExpr_binary (o op left right) :
    bindExpr n visible (.binary o op left right) p =
      let r := bindExpr n visible left p
      let a := bindExpr n visible right r.2
      (.binary o op r.1 a.1, a.2) := by
  rw [bindExpr]
  rfl

theorem bindExpr_unary (o op x) :
    bindExpr n visible (.unary o op x) p =
      (.unary o op (bindExpr n visible x p).1, (bindExpr n visible x p).2) := by
  rw [bindExpr]
  rfl

theorem bindExprs_cons (x rest) :
    bindExprs n visible (x :: rest) p =
      let r := bindExpr n visible x p
      let a := bindExprs n visible rest r.2
      (r.1 :: a.1, a.2) := by
  rw [bindExprs]
  rfl

end

mutual

theorem bindExpr_spec (visible : List Text) (e : Expr) {p : Program} (hp : p.Pristine)
    (hn : n < p.namespaces.size) (hvalid : Bindable n p e.mentions) :
    Binds n p (bindExpr n visible e p).2 e.mentions (bindExpr n visible e p).1.mentions := by
  cases e with
  | name o text read =>
      rw [bindExpr]
      exact bindName_spec hp hn [] o text read
  | member o x name q entry =>
      have hproperty : Bindable n p [.property q] := hvalid.right
      have htarget : ∀ (x' : Expr) (p' : Program), Binds n p p' x.mentions x'.mentions →
          Binds n p p' (Expr.mentions (.member o x name q entry))
            (Expr.mentions (.member o x' name q entry)) := by
        intro x' p' hx
        exact hx.append (Binds.refl hx.adds.pristine (hproperty.mono hx.adds.grows))
      by_cases hx : ∃ o text read, x = .name o text read
      · obtain ⟨at_, target, read, rfl⟩ := hx
        rw [bindExpr_member_name]
        exact htarget _ _ (bindName_spec hp hn name at_ target read)
      · rw [bindExpr_member n visible p (fun o text read h => hx ⟨o, text, read, h⟩)]
        exact htarget _ _ (bindExpr_spec _ x hp hn hvalid.left)
  | call o callee args =>
      rw [bindExpr_call]
      have hcallee := bindExpr_spec visible callee hp hn hvalid.left
      exact hcallee.append (bindExprs_spec _ args hcallee.adds.pristine
        (hn.trans_le hcallee.adds.grows.spaces_le) (hvalid.right.mono hcallee.adds.grows))
  | syscall o name args =>
      rw [bindExpr_syscall]
      exact bindExprs_spec _ args hp hn hvalid
  | object o keys values =>
      rw [bindExpr_object]
      have hvalues := bindExprs_spec visible values hp hn hvalid.left
      exact hvalues.append
        (Binds.refl hvalues.adds.pristine (hvalid.right.mono hvalues.adds.grows))
  | binary o op left right =>
      rw [bindExpr_binary]
      have hleft := bindExpr_spec visible left hp hn hvalid.left
      exact hleft.append (bindExpr_spec _ right hleft.adds.pristine
        (hn.trans_le hleft.adds.grows.spaces_le) (hvalid.right.mono hleft.adds.grows))
  | unary o op x =>
      rw [bindExpr_unary]
      exact bindExpr_spec _ x hp hn hvalid
  | number o v => rw [bindExpr]; exact Binds.refl hp hvalid
  | string o v => rw [bindExpr]; exact Binds.refl hp hvalid
  | bool o v => rw [bindExpr]; exact Binds.refl hp hvalid
  | nil o => rw [bindExpr]; exact Binds.refl hp hvalid
  | imported o r m f => rw [bindExpr]; exact Binds.refl hp hvalid

theorem bindExprs_spec (visible : List Text) (es : List Expr) {p : Program}
    (hp : p.Pristine) (hn : n < p.namespaces.size)
    (hvalid : Bindable n p (Expr.mentionsOfAll es)) :
    Binds n p (bindExprs n visible es p).2 (Expr.mentionsOfAll es)
      (Expr.mentionsOfAll (bindExprs n visible es p).1) := by
  cases es with
  | nil => rw [bindExprs]; exact Binds.refl hp hvalid
  | cons x rest =>
      rw [bindExprs_cons]
      have hx := bindExpr_spec visible x hp hn hvalid.left
      exact hx.append (bindExprs_spec _ rest hx.adds.pristine
        (hn.trans_le hx.adds.grows.spaces_le) (hvalid.right.mono hx.adds.grows))

end

/-! ## Statements -/

section

variable (n : NamespaceId) (visible : List Text) (p : Program)

attribute [local simp] bindStmt bindStmts bindElse

theorem bindStmt_let (o name s v u) :
    bindStmt n visible (.let_ o name s v u) p =
      (.let_ o name s (bindExpr n visible v p).1 u, (bindExpr n visible v p).2) := by
  rw [bindStmt]
  rfl

theorem bindStmt_fn (o name s params bo body u) :
    bindStmt n visible (.fn o name s params bo body u) p =
      let inner := Stmt.declaredNames body ++ params.map (·.name) ++ visible
      (.fn o name s params bo (bindStmts n inner body p).1 u, (bindStmts n inner body p).2) := by
  rw [bindStmt]
  rfl

theorem bindStmt_assign (o name s v u) :
    bindStmt n visible (.assign o name s v u) p =
      (.assign o name s (bindExpr n visible v p).1 u, (bindExpr n visible v p).2) := by
  rw [bindStmt]
  rfl

theorem bindStmt_setMember (o target q v) :
    bindStmt n visible (.setMember o target q v) p =
      let r := bindExpr n visible target p
      let a := bindExpr n visible v r.2
      (.setMember o r.1 q a.1, a.2) := by
  rw [bindStmt]
  rfl

theorem bindStmt_return (o v) :
    bindStmt n visible (.return_ o v) p =
      (.return_ o (bindOptional n visible v p).1, (bindOptional n visible v p).2) := by
  rw [bindStmt]
  rfl

theorem bindStmt_if (o c b t e) :
    bindStmt n visible (.if_ o c b t e) p =
      let r := bindExpr n visible c p
      let a := bindStmts n (Stmt.declaredNames t ++ visible) t r.2
      let f := bindElse n visible e a.2
      (.if_ o r.1 b a.1 f.1, f.2) := by
  rw [bindStmt]
  rfl

theorem bindStmt_block (o body) :
    bindStmt n visible (.block o body) p =
      let r := bindStmts n (Stmt.declaredNames body ++ visible) body p
      (.block o r.1, r.2) := by
  rw [bindStmt]
  rfl

theorem bindStmt_expr (x) :
    bindStmt n visible (.expr x) p =
      (.expr (bindExpr n visible x p).1, (bindExpr n visible x p).2) := by
  rw [bindStmt]
  rfl

theorem bindStmts_cons (s rest) :
    bindStmts n visible (s :: rest) p =
      let r := bindStmt n visible s p
      let a := bindStmts n visible rest r.2
      (r.1 :: a.1, a.2) := by
  rw [bindStmts]
  rfl

end

mutual

theorem bindStmt_spec (visible : List Text) (s : Stmt) {p : Program} (hp : p.Pristine)
    (hn : n < p.namespaces.size) (hvalid : Bindable n p s.mentions) :
    Binds n p (bindStmt n visible s p).2 s.mentions (bindStmt n visible s p).1.mentions := by
  cases s with
  | let_ o name sym v u =>
      rw [bindStmt_let]
      have hv := bindExpr_spec visible v hp hn hvalid.left
      exact hv.append (Binds.refl hv.adds.pristine (hvalid.right.mono hv.adds.grows))
  | fn o name sym params bo body u =>
      rw [bindStmt_fn]
      exact (Binds.refl hp hvalid.left).append (bindStmts_spec _ body hp hn hvalid.right)
  | assign o name sym v u =>
      rw [bindStmt_assign]
      have hv := bindExpr_spec visible v hp hn hvalid.left
      exact hv.append (Binds.refl hv.adds.pristine (hvalid.right.mono hv.adds.grows))
  | setMember o target q v =>
      rw [bindStmt_setMember]
      have htarget := bindExpr_spec visible target hp hn hvalid.left.left
      have hn' := hn.trans_le htarget.adds.grows.spaces_le
      have hv := bindExpr_spec visible v htarget.adds.pristine hn'
        (hvalid.left.right.mono htarget.adds.grows)
      have hboth := htarget.append hv
      exact hboth.append (Binds.refl hboth.adds.pristine (hvalid.right.mono hboth.adds.grows))
  | return_ o v =>
      rw [bindStmt_return]
      cases v with
      | none => exact Binds.refl hp hvalid
      | some x =>
          have hrun : bindOptional n visible (some x) p =
              (some (bindExpr n visible x p).1, (bindExpr n visible x p).2) := rfl
          rw [hrun]
          have hx := bindExpr_spec visible x hp hn (by simpa [Stmt.mentions] using hvalid)
          simpa [Stmt.mentions] using hx
  | if_ o c b t e =>
      rw [bindStmt_if]
      have hc := bindExpr_spec visible c hp hn hvalid.left.left
      have hn' := hn.trans_le hc.adds.grows.spaces_le
      have ht := bindStmts_spec (Stmt.declaredNames t ++ visible) t hc.adds.pristine hn'
        (hvalid.left.right.mono hc.adds.grows)
      have hboth := hc.append ht
      have hn'' := hn.trans_le hboth.adds.grows.spaces_le
      exact hboth.append (bindElse_spec _ e hboth.adds.pristine hn''
        (hvalid.right.mono hboth.adds.grows))
  | block o body =>
      rw [bindStmt_block]
      exact bindStmts_spec _ body hp hn hvalid
  | expr x =>
      rw [bindStmt_expr]
      exact bindExpr_spec _ x hp hn hvalid
  | import_ o q path => rw [bindStmt]; exact Binds.refl hp hvalid
  | enum o name es => rw [bindStmt]; exact Binds.refl hp hvalid
  | retain o names => rw [bindStmt]; exact Binds.refl hp hvalid

theorem bindStmts_spec (visible : List Text) (ss : List Stmt) {p : Program} (hp : p.Pristine)
    (hn : n < p.namespaces.size) (hvalid : Bindable n p (Stmt.mentionsOfAll ss)) :
    Binds n p (bindStmts n visible ss p).2 (Stmt.mentionsOfAll ss)
      (Stmt.mentionsOfAll (bindStmts n visible ss p).1) := by
  cases ss with
  | nil => rw [bindStmts]; exact Binds.refl hp hvalid
  | cons s rest =>
      rw [bindStmts_cons]
      have hs := bindStmt_spec visible s hp hn hvalid.left
      exact hs.append (bindStmts_spec _ rest hs.adds.pristine
        (hn.trans_le hs.adds.grows.spaces_le) (hvalid.right.mono hs.adds.grows))

theorem bindElse_spec (visible : List Text) (e : Option Stmt) {p : Program} (hp : p.Pristine)
    (hn : n < p.namespaces.size) (hvalid : Bindable n p (Stmt.mentionsOfElse e)) :
    Binds n p (bindElse n visible e p).2 (Stmt.mentionsOfElse e)
      (Stmt.mentionsOfElse (bindElse n visible e p).1) := by
  cases e with
  | none => rw [bindElse]; exact Binds.refl hp hvalid
  | some s =>
      rw [bindElse]
      exact bindStmt_spec _ s hp hn hvalid

end

mutual

theorem bindStmt_regular (visible : List Text) (s : Stmt) (p : Program) (h : s.Regular) :
    (bindStmt n visible s p).1.Regular ∧
      (bindStmt n visible s p).1.declared? = s.declared? := by
  cases s with
  | let_ o name sym v u => rw [bindStmt_let]; exact ⟨trivial, rfl⟩
  | fn o name sym params bo body u =>
      rw [bindStmt_fn]
      exact ⟨bindStmts_regular _ body p h, rfl⟩
  | assign o name sym v u => rw [bindStmt_assign]; exact ⟨trivial, rfl⟩
  | setMember o target q v => rw [bindStmt_setMember]; exact ⟨trivial, rfl⟩
  | return_ o v => rw [bindStmt_return]; exact ⟨trivial, rfl⟩
  | if_ o c b t e =>
      rw [bindStmt_if]
      exact ⟨⟨bindStmts_regular _ t _ h.1, bindElse_regular _ e _ h.2⟩, rfl⟩
  | block o body =>
      rw [bindStmt_block]
      exact ⟨bindStmts_regular _ body p h, rfl⟩
  | expr x => rw [bindStmt_expr]; exact ⟨trivial, rfl⟩
  | import_ o q path => rw [bindStmt]; exact ⟨trivial, rfl⟩
  | enum o name es => rw [bindStmt]; exact ⟨trivial, rfl⟩
  | retain o names => rw [bindStmt]; exact ⟨trivial, rfl⟩

theorem bindStmts_regular (visible : List Text) (ss : List Stmt) (p : Program)
    (h : Stmt.RegularAll ss) : Stmt.RegularAll (bindStmts n visible ss p).1 := by
  cases ss with
  | nil => rw [bindStmts]; trivial
  | cons s rest =>
      rw [bindStmts_cons]
      exact ⟨(bindStmt_regular visible s p h.1).1, bindStmts_regular visible rest _ h.2⟩

theorem bindElse_regular (visible : List Text) (e : Option Stmt) (p : Program)
    (h : Stmt.RegularElse e) : Stmt.RegularElse (bindElse n visible e p).1 := by
  cases e with
  | none => rw [bindElse]; trivial
  | some s =>
      rw [bindElse]
      have hs := bindStmt_regular visible s p h.2
      exact ⟨hs.2.trans h.1, hs.1⟩

end

/-- A tree as it is found: its names belong to its namespace and stand at different
places, and nothing is recorded yet. -/
structure Found (p : Program) (t : Tree) : Prop where
  lt : t.owner < p.namespaces.size
  root : t.root = none
  regular : Stmt.RegularAll t.statements
  valid : ∀ m ∈ Stmt.mentionsOfAll t.statements, m.Valid p t.owner ∧ m.bare = m
  places : ((Stmt.mentionsOfAll t.statements).filterMap Mention.offset?).Nodup

theorem Found.mono {t : Tree} (h : Found p t) (hgrows : p.Grows p') : Found p' t where
  lt := h.lt.trans_le hgrows.spaces_le
  root := h.root
  regular := h.regular
  valid m hm := ⟨(h.valid m hm).1.mono hgrows, (h.valid m hm).2⟩
  places := h.places

theorem yields_advance (stage : Stage) :
    Yields (advance n stage) p fun _ p' => SameNames p p' := by
  simp only [advance, yields_bind, yields_get]
  split
  · simp
  · simp only [yields_set]
    exact sameNames_modifySpace p n _ (fun _ => rfl) (fun _ => rfl) (fun _ => rfl)
      (fun _ => rfl) fun _ => rfl

/-- The references of a namespace lead to the standard library or through an alias. -/
def Anchored (p : Program) (n : NamespaceId) : Prop :=
  ∀ r ∈ (p.spaceAt n).references,
    (p.reference r).qualifier = [] ∨ (p.reference r).qualifier ∈ (p.spaceAt n).aliases

/-- Where the parser begins, nothing was declared. -/
theorem good_parserState (hp : p.Pristine) (hn : n < p.namespaces.size) {tokens : List Token}
    (htokens : (p.spaceAt n).unit.tokens = .ok tokens) :
    Parser.Good p n (p.parserState n tokens) where
  pristine := hp
  lt := hn
  synced := ⟨rfl, rfl⟩
  words t ht := SourceUnit.isWord_of_mem_tokens htokens t (List.dropLast_subset _ ht)
  tidied htidy :=
    ⟨fun _ _ _ _ h => absurd h List.not_mem_nil, fun _ => Iff.rfl, fun _ => Iff.rfl, htidy⟩

theorem yields_parseStatements (hp : p.Pristine) (hn : n < p.namespaces.size) :
    Yields (parseStatements n) p fun ss p' =>
      p.Adds n p' ∧ Bindable n p' (Stmt.mentionsOfAll ss) ∧
        ((Stmt.mentionsOfAll ss).filterMap Mention.offset?).Nodup ∧ Fills n p p' ∧
        ((p.spaceAt n).Tidy → (p'.spaceAt n).Tidy ∧
          ((p.spaceAt n).references = [] → Anchored p' n)) := by
  simp only [parseStatements, yields_bind, yields_get]
  split
  · simp
  · next tokens htokens =>
      split
      · next statements s hrun =>
          simp only [yields_bind, yields_set, yields_pure]
          have hstart := good_parserState hp hn htokens
          have hreads := Parser.yields_file hstart statements s hrun
          refine ⟨hreads.adds, hreads.valid, ?_, fills_enact p n _,
            fun htidy => ⟨(hreads.tidied htidy).tidy, fun hnone r hr => Or.inr ?_⟩⟩
          · obtain ⟨used, hused, hsub⟩ := hreads.consumed
            have hfront : used.Sublist tokens := by
              have hleft : used.Sublist tokens.dropLast := by
                rw [show tokens.dropLast = used ++ s.rest from hused]
                exact List.sublist_append_left _ _
              exact hleft.trans (List.dropLast_sublist tokens)
            exact (hsub.trans (hfront.map _)).nodup (SourceUnit.nodup_tokens htokens)
          · have htidied := hreads.tidied htidy
            rcases mem_references_enact hp hr with hold | ⟨name, member, offset, hmem⟩
            · rw [hnone] at hold
              cases hold
            · rw [List.mem_reverse] at hmem
              exact (htidied.aliases _).mp (htidied.aliased _ _ _ _ hmem)
      · simp

/-- What reading a source does to the files. -/
structure Reads (n : NamespaceId) (p : Program) (t : Tree) (p' : Program) : Prop where
  fills : Fills n p p'
  tidy : (p.spaceAt n).Tidy → (p'.spaceAt n).Tidy
  unshadowed : Unshadowed p' n (Stmt.mentionsOfAll t.statements)

/-- Parsing in terms of what binding gives and of the program it leaves. -/
theorem parse_eq (n : NamespaceId) :
    parse n = (do
      let ss ← parseStatements n
      let p ← get
      set (bindStmts n (Stmt.declaredNames ss) ss p).2
      advance n .parsed
      pure { owner := n, statements := (bindStmts n (Stmt.declaredNames ss) ss p).1 }) :=
  rfl

theorem yields_parse (hp : p.Pristine) (hn : n < p.namespaces.size) :
    Yields (parse n) p fun t p' =>
      p.Adds n p' ∧ t.owner = n ∧ Found p' t ∧ Reads n p t p' := by
  simp only [parse_eq, yields_bind, yields_get, yields_set, yields_pure]
  refine ((yields_parseStatements hp hn).and (parseStatements_regular n p)).mono ?_
  rintro ss p₁ ⟨⟨hadds, hbindable, hplaces, hfills, htidy⟩, hregular⟩
  have hn₁ := hn.trans_le hadds.grows.spaces_le
  have hbinds := bindStmts_spec (Stmt.declaredNames ss) ss hadds.pristine hn₁ hbindable
  refine ((yields_advance .parsed).and (sameFiles_advance .parsed)).mono ?_
  rintro _ p₂ ⟨hsame, hfiles⟩
  have hadvance := hsame.adds (n := n) hbinds.adds.pristine
  have hlater := hbinds.adds.trans hadvance
  have hsameFiles := hbinds.files.trans hfiles
  refine ⟨hadds.trans hlater, trivial, ?_, ?_⟩
  · constructor
    · exact hn₁.trans_le hlater.grows.spaces_le
    · rfl
    · exact bindStmts_regular _ ss p₁ hregular
    · intro m hm
      exact ⟨(hbinds.valid m hm).1.mono hadvance.grows, (hbinds.valid m hm).2⟩
    · rw [hbinds.offsets]
      exact hplaces
  · exact {
      fills := hfills.trans hsameFiles.fills
      tidy := fun h => (htidy h).1.of_content (hsameFiles.content n)
      unshadowed := hbinds.unshadowed.of_enums (hfiles.enums n) }

end Program

end Splice

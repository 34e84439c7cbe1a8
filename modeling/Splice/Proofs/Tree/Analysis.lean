import Splice.Proofs.Ledger.Growth
import Splice.Proofs.Tree.Scoping
import Splice.Tree.Check

/-!
# What the analysis of a tree enters

An analysis that finds no mistake extends the ledger by the scopes of the tree and
enters every read of it once (`Check.checkStmts_spec`).  The statements that come
back mention what they mentioned before, and they are bound in what their scope
sees.  The scope of a list of statements is filled before its statements are looked
at, so nothing is added to the scopes around a statement while it is analysed.
-/

namespace Splice

namespace Check

section

variable (c : CheckContext) (refs : ReferenceId → Reference) (s : ScopeId) (k : Check)

-- The equations are made once, for all the lemmas below.
attribute [local simp] checkExpr checkExprs

theorem unlessFailed_eq {α : Type} (x : α) (work : Checking α) :
    unlessFailed x work k = if k.mistake.isSome then (x, k) else work k := by
  change (ite _ _ _ : Checking α) k = _
  split <;> rfl

theorem checkExpr_name (o n read) :
    checkExpr c refs s (.name o n read) k =
      if k.mistake.isSome then (.name o n read, k)
      else (.name o n (checkName c s o n read k).1, (checkName c s o n read k).2) := by
  rw [checkExpr, unlessFailed_eq]
  rfl

theorem checkExpr_imported (o r m record) :
    checkExpr c refs s (.imported o r m record) k =
      if k.mistake.isSome then (.imported o r m record, k)
      else
        let a := readForeign c s (refs r).qualifier (refs r).name o k
        (.imported o r m (some a.1), a.2) := by
  rw [checkExpr, unlessFailed_eq]
  rfl

theorem checkExpr_member (o x n p entry) :
    checkExpr c refs s (.member o x n p entry) k =
      if k.mistake.isSome then (.member o x n p entry, k)
      else
        match enumOfTarget? c x with
        | some enum =>
            match enum.entry? n with
            | some e => (.member o x n p (some ⟨enum.name, e.name, e.value⟩), k)
            | none =>
                (.member o x n p entry,
                  (fail c o ("enum " ++ enum.name ++ " has no entry " ++ n) k).2)
        | none => (.member o (checkExpr c refs s x k).1 n p entry, (checkExpr c refs s x k).2) := by
  rw [checkExpr, unlessFailed_eq]
  split
  · rfl
  · cases enumOfTarget? c x with
    | none => rfl
    | some enum =>
        dsimp only
        cases enum.entry? n <;> rfl

theorem checkExpr_call (o callee args) :
    checkExpr c refs s (.call o callee args) k =
      let a := checkExpr c refs s callee k
      (.call o a.1 (checkExprs c refs s args a.2).1, (checkExprs c refs s args a.2).2) := by
  rw [checkExpr]
  rfl

theorem checkExpr_syscall (o n args) :
    checkExpr c refs s (.syscall o n args) k =
      (.syscall o n (checkExprs c refs s args k).1, (checkExprs c refs s args k).2) := by
  rw [checkExpr]
  rfl

theorem checkExpr_object (o keys values) :
    checkExpr c refs s (.object o keys values) k =
      (.object o keys (checkExprs c refs s values k).1, (checkExprs c refs s values k).2) := by
  rw [checkExpr]
  rfl

theorem checkExpr_binary (o op left right) :
    checkExpr c refs s (.binary o op left right) k =
      let a := checkExpr c refs s left k
      (.binary o op a.1 (checkExpr c refs s right a.2).1, (checkExpr c refs s right a.2).2) := by
  rw [checkExpr]
  rfl

theorem checkExpr_unary (o op x) :
    checkExpr c refs s (.unary o op x) k =
      (.unary o op (checkExpr c refs s x k).1, (checkExpr c refs s x k).2) := by
  rw [checkExpr]
  rfl

theorem checkExprs_cons (x rest) :
    checkExprs c refs s (x :: rest) k =
      let a := checkExpr c refs s x k
      (a.1 :: (checkExprs c refs s rest a.2).1, (checkExprs c refs s rest a.2).2) := by
  rw [checkExprs]
  rfl

theorem checkExprs_nil : checkExprs c refs s [] k = ([], k) := by
  rw [checkExprs]
  rfl

end

/-! ## A mistake stays -/

variable {c : CheckContext} {refs : ReferenceId → Reference} {s root : ScopeId}

theorem mistake_fail (o : Nat) (message : Text) (k : Check) :
    (fail c o message k).2.mistake ≠ none := by
  intro h
  cases h

theorem mistake_of_unlessFailed {α : Type} {x : α} {work : Checking α} {k : Check}
    (h : (unlessFailed x work k).2.mistake = none) :
    k.mistake = none ∧ unlessFailed x work k = work k := by
  rw [unlessFailed_eq] at h ⊢
  cases hk : k.mistake with
  | none => simp
  | some d =>
      rw [hk] at h
      simp [hk] at h

theorem mistake_of_ite {α : Type} {a : α} {y : α × Check} {k : Check}
    (h : (if k.mistake.isSome then (a, k) else y).2.mistake = none) :
    k.mistake = none ∧ (if k.mistake.isSome then (a, k) else y) = y := by
  cases hk : k.mistake with
  | none => simp
  | some d => simp [hk] at h

mutual

theorem mistake_checkExpr (e : Expr) (k : Check)
    (h : (checkExpr c refs s e k).2.mistake = none) : k.mistake = none := by
  cases e with
  | name o n read =>
      rw [checkExpr] at h
      exact (mistake_of_unlessFailed h).1
  | imported o r m record =>
      rw [checkExpr] at h
      exact (mistake_of_unlessFailed h).1
  | member o x n p entry =>
      rw [checkExpr] at h
      exact (mistake_of_unlessFailed h).1
  | call o callee args =>
      rw [checkExpr_call] at h
      exact mistake_checkExpr callee k (mistake_checkExprs args _ h)
  | syscall o n args =>
      rw [checkExpr_syscall] at h
      exact mistake_checkExprs args k h
  | object o keys values =>
      rw [checkExpr_object] at h
      exact mistake_checkExprs values k h
  | binary o op left right =>
      rw [checkExpr_binary] at h
      exact mistake_checkExpr left k (mistake_checkExpr right _ h)
  | unary o op x =>
      rw [checkExpr_unary] at h
      exact mistake_checkExpr x k h
  | number o v => rw [checkExpr] at h; exact h
  | string o v => rw [checkExpr] at h; exact h
  | bool o v => rw [checkExpr] at h; exact h
  | nil o => rw [checkExpr] at h; exact h

theorem mistake_checkExprs (es : List Expr) (k : Check)
    (h : (checkExprs c refs s es k).2.mistake = none) : k.mistake = none := by
  cases es with
  | nil =>
      rw [checkExprs_nil] at h
      exact h
  | cons x rest =>
      rw [checkExprs_cons] at h
      exact mistake_checkExpr x k (mistake_checkExprs rest _ h)

end

end Check

/-! ## Expressions -/

def CheckContext.naming (c : CheckContext) (refs : ReferenceId → Reference) (root : ScopeId)
    (l : Ledger) : Naming where
  space := c.space
  foreign r f := l.FilesUnder root (refs r).qualifier (refs r).name f

def Mention.Plain (enums : List Enumeration) : Mention → Prop
  | name _ n (.std _ _) => enums.find? (·.name == n) = none
  | _ => True

/-- The reads of what is mentioned have been entered, and nothing else is mentioned
than before.  Reads of foreign names are attached to their records; a name that is
taken for an enum of the namespace would not be. -/
structure Entered (c : CheckContext) (refs : ReferenceId → Reference) (root : ScopeId)
    (l l' : Ledger) (before after : List Mention) : Prop where
  enters : Ledger.Enters c.file l l' (after.filterMap Mention.read?)
  bare : after.map Mention.bare = before.map Mention.bare
  attached : (∀ m ∈ before, m.Plain c.enums) →
    ∀ m ∈ after, m.Attached (c.naming refs root l')

section

variable {c : CheckContext} {refs : ReferenceId → Reference} {root : ScopeId}
  {l l' l'' : Ledger} {a a' b b' : List Mention}

theorem Entered.refl (hl : l.WellFormed) : Entered c refs root l l [] [] where
  enters := Ledger.Enters.refl hl
  bare := rfl
  attached _ _ hm := nomatch hm

theorem attached_later (h : ∀ m ∈ a, m.Attached (c.naming refs root l)) (hl : l.WellFormed)
    (hl' : l'.WellFormed) (hext : l.Extends l') :
    ∀ m ∈ a, m.Attached (c.naming refs root l') := by
  intro m hm
  apply (h m hm).mono
  intro r f hf
  exact Ledger.FilesUnder.extends hf hl hl' hext

theorem Entered.append (h : Entered c refs root l l' a a') (h' : Entered c refs root l' l'' b b') :
    Entered c refs root l l'' (a ++ b) (a' ++ b') where
  enters := by
    rw [List.filterMap_append]
    exact h.enters.trans h'.enters
  bare := by rw [List.map_append, List.map_append, h.bare, h'.bare]
  attached hplain m hm := by
    have hleft := attached_later
      (h.attached fun x hx => hplain x (List.mem_append_left _ hx)) h.enters.wellFormed
      h'.enters.wellFormed h'.enters.extend
    have hright := h'.attached fun x hx => hplain x (List.mem_append_right _ hx)
    rcases List.mem_append.mp hm with hm | hm
    · exact hleft m hm
    · exact hright m hm

theorem attached_of_inert {inert : List Mention} (hinert : inert.filterMap Mention.read? = [])
    {naming : Naming} : ∀ m ∈ inert, m.Attached naming := by
  intro m hm
  exact Mention.attached_of_read? (List.filterMap_eq_nil_iff.mp hinert m hm)

/-- Mentions that are no reads. -/
theorem Entered.append_inert (h : Entered c refs root l l' a a') {inert : List Mention}
    (hinert : inert.filterMap Mention.read? = []) :
    Entered c refs root l l' (a ++ inert) (a' ++ inert) where
  enters := by simpa [hinert] using h.enters
  bare := by simp [h.bare]
  attached hplain m hm := by
    rcases List.mem_append.mp hm with hm | hm
    · exact h.attached (fun x hx => hplain x (List.mem_append_left _ hx)) m hm
    · exact attached_of_inert hinert m hm

theorem Entered.inert_append (h : Entered c refs root l l' a a') {inert : List Mention}
    (hinert : inert.filterMap Mention.read? = []) :
    Entered c refs root l l' (inert ++ a) (inert ++ a') where
  enters := by simpa [hinert] using h.enters
  bare := by simp [h.bare]
  attached hplain m hm := by
    rcases List.mem_append.mp hm with hm | hm
    · exact attached_of_inert hinert m hm
    · exact h.attached (fun x hx => hplain x (List.mem_append_right _ hx)) m hm

/-- Changes that concern no reader may come first or last. -/
theorem Entered.earlier (h : Entered c refs root l' l'' a a') (h' : l.Enters c.file l' []) :
    Entered c refs root l l'' a a' where
  enters := h'.trans h.enters
  bare := h.bare
  attached := h.attached

theorem Entered.later (h : Entered c refs root l l' a a') (h' : l'.Enters c.file l'' []) :
    Entered c refs root l l'' a a' where
  enters := by simpa using h.enters.trans h'
  bare := h.bare
  attached hplain :=
    attached_later (h.attached hplain) h.enters.wellFormed h'.wellFormed h'.extend

theorem filterMap_read?_property (keys : List SymbolId) :
    (keys.map Mention.property).filterMap Mention.read? = [] := by
  simp [List.filterMap_eq_nil_iff, Mention.read?]

end

/-- A mention before the analysis: it has no record yet, and a reference to the
standard library is one to the name it stands for. -/
def Mention.Fresh (refs : ReferenceId → Reference) : Mention → Prop
  | name _ _ (.own _ usage) => usage = none
  | name _ n (.std r record) => record = none ∧ (refs r).qualifier = [] ∧ (refs r).name = n
  | imported _ _ record => record = none
  | _ => True

namespace Check

variable {c : CheckContext} {refs : ReferenceId → Reference} {s root : ScopeId}

theorem naming_later {l l' : Ledger} (hl : l.WellFormed) (hl' : l'.WellFormed)
    (hext : l.Extends l') (r : ReferenceId) (f : ForeignId)
    (h : (c.naming refs root l).foreign r f) : (c.naming refs root l').foreign r f :=
  Ledger.FilesUnder.extends h hl hl' hext

/-- Where a part of a tree is analysed: in a scope that lies inside the outermost one
of the tree. -/
structure Ready (root s : ScopeId) (l : Ledger) : Prop where
  wellFormed : l.WellFormed
  lt : s < l.scopes.size
  root_mem : root ∈ l.chain s

theorem Ready.later {l l' : Ledger} (h : Ready root s l) (hl' : l'.WellFormed)
    (hext : l.Extends l') : Ready root s l' where
  wellFormed := hl'
  lt := h.lt.trans_le hext.scopes_le
  root_mem := by
    rw [hext.chain_eq h.wellFormed hl' h.lt]
    exact h.root_mem

theorem readForeign_spec {k : Check} (hk : Ready root s k.ledger) (qualifier name : Text)
    (o : Nat) :
    let r := readForeign c s qualifier name o k
    Ledger.Enters c.file k.ledger r.2.ledger [⟨o, none, some r.1⟩] ∧
      r.2.ledger.FilesUnder root qualifier name r.1 := by
  obtain ⟨hwf, hext, hfiles, haccounts⟩ :=
    Ledger.mentionForeign_spec hk.wellFormed hk.lt qualifier name c.file o
  have hlater := hk.later hwf hext
  exact ⟨⟨hwf, hext, haccounts, fun h => h.mentionForeign _ _ _ _⟩, s, hlater.lt,
    hlater.root_mem, hfiles⟩

theorem attached_single {m : Mention} {naming : Naming} {enums : List Enumeration}
    {before : List Mention} (h : m.Attached naming) :
    (∀ x ∈ before, x.Plain enums) → ∀ x ∈ [m], x.Attached naming := by
  intro _ x hx
  rw [List.mem_singleton.mp hx]
  exact h

/-- The target of an access to an enum of the namespace is no read of a foreign name. -/
theorem attached_of_enumOfTarget? {x : Expr} {enum : Enumeration} {naming : Naming}
    (h : enumOfTarget? c x = some enum) (hplain : ∀ m ∈ x.mentions, m.Plain c.enums) :
    ∀ m ∈ x.mentions, m.Attached naming := by
  intro m hm
  have hthis := hplain m hm
  cases x with
  | name o n read =>
      rw [List.mem_singleton.mp (show m ∈ [Mention.name o n read] from hm)] at hthis ⊢
      cases read with
      | unbound => trivial
      | own s usage => trivial
      | std r record =>
          have hfind : c.enums.find? (·.name == n) = some enum := h
          rw [show c.enums.find? (·.name == n) = none from hthis] at hfind
          cases hfind
  | number o v => cases h
  | string o v => cases h
  | bool o v => cases h
  | nil o => cases h
  | imported o r q record => cases h
  | member o y n p entry => cases h
  | call o callee args => cases h
  | syscall o n args => cases h
  | object o keys values => cases h
  | binary o op a b => cases h
  | unary o op a => cases h

theorem checkName_own (o : Nat) (n : Text) (symbol : SymbolId) (usage : Option UsageId)
    (k : Check) :
    checkName c s o n (.own symbol usage) k =
      match k.ledger.find? s (Symbol.idOf c.space n) with
      | none =>
          (.own symbol usage,
            (fail c o (n ++ " is bound but no enclosing scope declares it") k).2)
      | some u =>
          (.own symbol (some u), { k with ledger := k.ledger.addReader u ⟨c.file, o⟩ }) := by
  cases hfind : k.ledger.find? s (Symbol.idOf c.space n) <;>
    simp only [checkName, bind, StateT.bind, get, getThe, MonadStateOf.get, StateT.get,
      pure, hfind] <;> rfl

theorem checkName_spec {k : Check} (hk : Ready root s k.ledger) (o : Nat) (n : Text)
    (read : NameRead) (hfresh : (Mention.name o n read).Fresh refs)
    (hok : (checkName c s o n read k).2.mistake = none) :
    let r := checkName c s o n read k
    Entered c refs root k.ledger r.2.ledger [.name o n read] [.name o n r.1] ∧
      (Mention.name o n r.1).Known (c.naming refs root r.2.ledger) (k.ledger.visible s) := by
  cases read with
  | unbound => exact absurd hok (mistake_fail _ _ _)
  | std r record =>
      obtain ⟨rfl, hqualifier, hname⟩ := hfresh
      obtain ⟨henters, hfiles⟩ := readForeign_spec (c := c) hk [] n o
      have hknown : (Mention.name o n (checkName c s o n (.std r none) k).1).Known
          (c.naming refs root (checkName c s o n (.std r none) k).2.ledger)
          (k.ledger.visible s) := by
        refine ⟨_, rfl, ?_⟩
        simp only [CheckContext.naming, hqualifier, hname]
        exact hfiles
      exact ⟨⟨henters, rfl, attached_single hknown.attached⟩, hknown⟩
  | own symbol usage =>
      cases hfind : k.ledger.find? s (Symbol.idOf c.space n) with
      | none =>
          rw [checkName_own, hfind] at hok
          exact absurd hok (mistake_fail _ _ _)
      | some u =>
          rw [checkName_own, hfind]
          have hu := hk.wellFormed.lt_of_find? hfind
          refine ⟨⟨⟨hk.wellFormed.modifyUsage u _,
            Ledger.extends_modifyUsage _ u _ fun _ => rfl, ?_,
            fun h => h.modifyUsage u _ fun _ hx => hx⟩, rfl, attached_single trivial⟩, u, rfl, ?_⟩
          · intro before hbefore
            exact hbefore.addReader hu c.file o
          · rw [Ledger.find?_eq_lookup] at hfind
            exact hfind

theorem filterMap_read?_of_fresh {ms : List Mention} (h : ∀ m ∈ ms, m.Fresh refs) :
    ∀ r ∈ ms.filterMap Mention.read?, r.usage = none ∧ r.record = none := by
  intro r hr
  obtain ⟨m, hm, hread⟩ := List.mem_filterMap.mp hr
  have hfresh := h m hm
  cases m with
  | name o n read =>
      cases read with
      | unbound => cases hread
      | own s usage =>
          cases hread
          exact ⟨hfresh, rfl⟩
      | std r record =>
          cases hread
          exact ⟨rfl, hfresh.1⟩
  | imported o r record =>
      cases hread
      exact ⟨rfl, hfresh⟩
  | property s => cases hread
  | binding n s => cases hread

/-- The outcome of analysing expressions: their reads are entered, and the names that
code is generated for have the records that the scope gives them. -/
structure Analysed (c : CheckContext) (refs : ReferenceId → Reference) (root s : ScopeId)
    (l l' : Ledger) (before after loads : List Mention) : Prop where
  entered : Entered c refs root l l' before after
  known : ∀ m ∈ loads, m.Known (c.naming refs root l') (l.visible s)

theorem Analysed.append {l l' l'' : Ledger} {a a' b b' x y : List Mention}
    (hl : Ready root s l) (h : Analysed c refs root s l l' a a' x)
    (h' : Analysed c refs root s l' l'' b b' y) :
    Analysed c refs root s l l'' (a ++ b) (a' ++ b') (x ++ y) where
  entered := h.entered.append h'.entered
  known := by
    have hl' := h.entered.enters.wellFormed
    have hl'' := h'.entered.enters.wellFormed
    have hvisible := h.entered.enters.extend.visible_eq hl.wellFormed hl' hl.lt
    intro m hm
    rcases List.mem_append.mp hm with hm | hm
    · exact (h.known m hm).mono rfl (naming_later hl' hl'' h'.entered.enters.extend)
    · rw [← hvisible]
      exact h'.known m hm

mutual

theorem checkExpr_spec (e : Expr) (k : Check) (hk : Ready root s k.ledger)
    (hfresh : ∀ m ∈ e.mentions, m.Fresh refs)
    (hok : (checkExpr c refs s e k).2.mistake = none) :
    let r := checkExpr c refs s e k
    Analysed c refs root s k.ledger r.2.ledger e.mentions r.1.mentions r.1.loads := by
  have hnone := mistake_checkExpr _ k hok
  cases e with
  | name o n read =>
      rw [checkExpr_name, hnone] at hok ⊢
      obtain ⟨hentered, hknown⟩ :=
        checkName_spec hk o n read (hfresh _ (by simp [Expr.mentions])) hok
      refine ⟨hentered, ?_⟩
      intro m hm
      rw [List.mem_singleton.mp hm]
      exact hknown
  | imported o r m record =>
      rw [checkExpr_imported, hnone]
      obtain ⟨henters, hfiles⟩ :=
        readForeign_spec (c := c) hk (refs r).qualifier (refs r).name o
      refine ⟨⟨?_, rfl, ?_⟩, ?_⟩
      · cases m <;> exact henters
      · intro _ x hx
        rcases List.mem_cons.mp hx with rfl | hx
        · exact ⟨_, rfl, hfiles⟩
        · obtain ⟨_, -, rfl⟩ := List.mem_map.mp hx
          trivial
      · intro m hm
        rw [List.mem_singleton.mp hm]
        exact ⟨_, rfl, hfiles⟩
  | member o x n p entry =>
      rw [checkExpr_member, hnone] at hok ⊢
      simp only [Option.isSome_none, Bool.false_eq_true, if_false] at hok ⊢
      have hx : ∀ m ∈ x.mentions, m.Fresh refs := by
        intro m hm
        exact hfresh m (List.mem_append_left _ hm)
      cases htarget : enumOfTarget? c x with
      | none =>
          rw [htarget] at hok
          have hspec := checkExpr_spec x k hk hx hok
          refine ⟨hspec.entered.append_inert rfl, ?_⟩
          intro m hm
          rw [Expr.loads] at hm
          split at hm
          · cases hm
          · exact hspec.known m hm
      | some enum =>
          rw [htarget] at hok
          dsimp only at hok ⊢
          cases hentry : enum.entry? n with
          | none =>
              rw [hentry] at hok
              exact absurd hok (mistake_fail _ _ _)
          | some e =>
              -- The target is no read of a binding, so it has no record and gets none.
              refine ⟨⟨⟨hk.wellFormed, Ledger.Extends.refl _, ?_, fun h => h⟩, rfl, ?_⟩, ?_⟩
              · intro before hbefore
                exact hbefore.append_unlisted (filterMap_read?_of_fresh hfresh)
              · intro hplain m hm
                rcases List.mem_append.mp hm with hm | hm
                · exact attached_of_enumOfTarget? htarget
                    (fun x hx => hplain x (List.mem_append_left _ hx)) m hm
                · exact attached_of_inert rfl m hm
              · intro m hm
                simp [Expr.loads] at hm
  | call o callee args =>
      rw [checkExpr_call] at hok ⊢
      have hcallee := checkExpr_spec callee k hk
        (fun m hm => hfresh m (List.mem_append_left _ hm)) (mistake_checkExprs args _ hok)
      have henters := hcallee.entered.enters
      have hargs := checkExprs_spec args _ (hk.later henters.wellFormed henters.extend)
        (fun m hm => hfresh m (List.mem_append_right _ hm)) hok
      exact hcallee.append hk hargs
  | syscall o n args =>
      rw [checkExpr_syscall] at hok ⊢
      exact checkExprs_spec args k hk hfresh hok
  | object o keys values =>
      rw [checkExpr_object] at hok ⊢
      have hvalues := checkExprs_spec values k hk
        (fun m hm => hfresh m (List.mem_append_left _ hm)) hok
      exact ⟨hvalues.entered.append_inert (filterMap_read?_property keys), hvalues.known⟩
  | binary o op left right =>
      rw [checkExpr_binary] at hok ⊢
      have hleft := checkExpr_spec left k hk
        (fun m hm => hfresh m (List.mem_append_left _ hm)) (mistake_checkExpr right _ hok)
      have henters := hleft.entered.enters
      have hright := checkExpr_spec right _ (hk.later henters.wellFormed henters.extend)
        (fun m hm => hfresh m (List.mem_append_right _ hm)) hok
      exact hleft.append hk hright
  | unary o op x =>
      rw [checkExpr_unary] at hok ⊢
      exact checkExpr_spec x k hk hfresh hok
  | number o v =>
      rw [checkExpr]
      exact ⟨Entered.refl hk.wellFormed, fun m hm => nomatch hm⟩
  | string o v =>
      rw [checkExpr]
      exact ⟨Entered.refl hk.wellFormed, fun m hm => nomatch hm⟩
  | bool o v =>
      rw [checkExpr]
      exact ⟨Entered.refl hk.wellFormed, fun m hm => nomatch hm⟩
  | nil o =>
      rw [checkExpr]
      exact ⟨Entered.refl hk.wellFormed, fun m hm => nomatch hm⟩

theorem checkExprs_spec (es : List Expr) (k : Check) (hk : Ready root s k.ledger)
    (hfresh : ∀ m ∈ Expr.mentionsOfAll es, m.Fresh refs)
    (hok : (checkExprs c refs s es k).2.mistake = none) :
    let r := checkExprs c refs s es k
    Analysed c refs root s k.ledger r.2.ledger (Expr.mentionsOfAll es)
      (Expr.mentionsOfAll r.1) (Expr.loadsOfAll r.1) := by
  cases es with
  | nil =>
      rw [checkExprs_nil]
      exact ⟨Entered.refl hk.wellFormed, by simp [Expr.loadsOfAll]⟩
  | cons x rest =>
      rw [checkExprs_cons] at hok ⊢
      have hx := checkExpr_spec x k hk
        (fun m hm => hfresh m (List.mem_append_left _ hm)) (mistake_checkExprs rest _ hok)
      have henters := hx.entered.enters
      have hrest := checkExprs_spec rest _ (hk.later henters.wellFormed henters.extend)
        (fun m hm => hfresh m (List.mem_append_right _ hm)) hok
      exact hx.append hk hrest

end

/-! ## Statements -/

section

variable (c : CheckContext) (refs : ReferenceId → Reference) (s : ScopeId) (k : Check)

attribute [local simp] checkStmt checkStmts checkElse

def idsOf (c : CheckContext) (names : List Text) : List Text := names.map (Symbol.idOf c.space)

theorem defineAll_eq (names : List Text) :
    (forIn names PUnit.unit fun name _ => do
      let _ ← define c s name
      pure (ForInStep.yield PUnit.unit) : Checking PUnit) k =
      (⟨⟩, { k with ledger := k.ledger.defineAll s (idsOf c names) }) := by
  induction names generalizing k with
  | nil => rfl
  | cons name rest ih =>
      rw [List.forIn_cons]
      exact ih _

theorem hoist_eq (ss : List Stmt) :
    hoist c s ss k =
      if k.mistake.isSome then ((), k)
      else ((), { k with ledger := k.ledger.defineAll s (idsOf c (Stmt.declaredNames ss)) }) := by
  rw [hoist, unlessFailed_eq]
  split
  · rfl
  · exact defineAll_eq c s k _

/-- The state in which the statements of a new scope are looked at, after its
parameters and declarations have been entered. -/
def inside (names : List Text) : Check :=
  { k with
    ledger := (k.ledger.openChild s).2.defineAll k.ledger.scopes.size (idsOf c names) }

theorem hoist_openChild (hk : ¬k.mistake.isSome) (ss : List Stmt) :
    (hoist c k.ledger.scopes.size ss { k with ledger := (k.ledger.openChild s).2 }).2 =
      inside c s k (Stmt.declaredNames ss) := by
  rw [hoist_eq, if_neg hk]
  rfl

def defined (name : Text) (value : Truth) : UsageId × Check :=
  let d := k.ledger.define s (Symbol.idOf c.space name)
  (d.1, { k with ledger := d.2.track d.1 value })

theorem checkStmt_let (o n sym v u) :
    checkStmt c refs s (.let_ o n sym v u) k =
      let a := checkExpr c refs s v k
      if a.2.mistake.isSome then (.let_ o n sym a.1 u, a.2)
      else
        let d := defined c s a.2 n a.1.truth
        (.let_ o n sym a.1 (some d.1), d.2) := by
  rw [checkStmt]
  exact unlessFailed_eq _ _ _

theorem checkStmt_fn (o n sym ps bo body u) :
    checkStmt c refs s (.fn o n sym ps bo body u) k =
      if k.mistake.isSome then (.fn o n sym ps bo body u, k)
      else
        let d := defined c s k n .truthy
        let r := checkStmts c refs d.2.ledger.scopes.size body
          (inside c s d.2 (ps.map (·.name) ++ Stmt.declaredNames body))
        (.fn o n sym ps bo r.1 (some d.1), r.2) := by
  rw [checkStmt, unlessFailed_eq]
  split
  · rfl
  · next hk =>
      have hparams : ∀ (inner : ScopeId) (k : Check),
          (forIn ps PUnit.unit fun param _ => do
            let _ ← define c inner param.name
            pure (ForInStep.yield PUnit.unit) : Checking PUnit) k =
          (⟨⟩, { k with ledger := k.ledger.defineAll inner (idsOf c (ps.map (·.name))) }) := by
        intro inner k
        rw [← defineAll_eq, List.forIn_map]
      change (let d := defined c s k n .truthy
        let i := (forIn ps PUnit.unit fun param _ => do
          let _ ← define c d.2.ledger.scopes.size param.name
          pure (ForInStep.yield PUnit.unit) : Checking PUnit)
            { d.2 with ledger := (d.2.ledger.openChild s).2 }
        let r := checkStmts c refs d.2.ledger.scopes.size body
          (hoist c d.2.ledger.scopes.size body i.2).2;
        (Stmt.fn o n sym ps bo r.1 (some d.1), r.2)) = _
      dsimp only
      rw [hparams, hoist_eq, if_neg (show ¬(defined c s k n .truthy).2.mistake.isSome from hk)]
      simp only [inside, idsOf, Ledger.defineAll, List.map_append, List.foldl_append]

theorem checkStmt_block (o body) :
    checkStmt c refs s (.block o body) k =
      if k.mistake.isSome then (.block o body, k)
      else
        let r := checkStmts c refs k.ledger.scopes.size body
          (inside c s k (Stmt.declaredNames body))
        (.block o r.1, r.2) := by
  rw [checkStmt, unlessFailed_eq]
  split
  · rfl
  · next hk =>
      rw [← hoist_openChild c s k hk]
      rfl

theorem checkStmt_assign (o n sym v u) :
    checkStmt c refs s (.assign o n sym v u) k =
      let a := checkExpr c refs s v k
      if a.2.mistake.isSome then (.assign o n sym a.1 u, a.2)
      else
        match a.2.ledger.find? s (Symbol.idOf c.space n) with
        | none =>
            (.assign o n sym a.1 u, (fail c o ("assignment to undeclared name " ++ n) a.2).2)
        | some w =>
            (.assign o n sym a.1 (some w),
              { a.2 with ledger := (a.2.ledger.markDefined w).track w a.1.truth }) := by
  rw [checkStmt]
  refine (unlessFailed_eq _ _ _).trans ?_
  dsimp only
  split
  · rfl
  · simp only [bind, StateT.bind, get, getThe, MonadStateOf.get, StateT.get, pure,
      Ledger.assign?]
    cases (checkExpr c refs s v k).2.ledger.find? s (Symbol.idOf c.space n) <;> rfl

theorem checkStmt_if (o condition b then_ else_) :
    checkStmt c refs s (.if_ o condition b then_ else_) k =
      let a := checkExpr c refs s condition k
      if a.2.mistake.isSome then (.if_ o a.1 b then_ else_, a.2)
      else
        let r := checkStmts c refs a.2.ledger.scopes.size then_
          (inside c s a.2 (Stmt.declaredNames then_))
        let e := checkElse c refs s else_ r.2
        (.if_ o a.1 b r.1 e.1, e.2) := by
  rw [checkStmt]
  refine (unlessFailed_eq _ _ _).trans ?_
  dsimp only
  split
  · rfl
  · next hk =>
      rw [← hoist_openChild c s _ hk]
      rfl

theorem checkStmt_setMember (o target p v) :
    checkStmt c refs s (.setMember o target p v) k =
      let a := checkExpr c refs s target k
      let b := checkExpr c refs s v a.2
      (.setMember o a.1 p b.1, b.2) := by
  rw [checkStmt]
  rfl

theorem checkStmt_return (o v) :
    checkStmt c refs s (.return_ o v) k =
      (.return_ o (checkOptional c refs s v k).1, (checkOptional c refs s v k).2) := by
  rw [checkStmt]
  rfl

theorem checkStmt_expr (x) :
    checkStmt c refs s (.expr x) k =
      (.expr (checkExpr c refs s x k).1, (checkExpr c refs s x k).2) := by
  rw [checkStmt]
  rfl

theorem checkStmts_cons (st rest) :
    checkStmts c refs s (st :: rest) k =
      let a := checkStmt c refs s st k
      (a.1 :: (checkStmts c refs s rest a.2).1, (checkStmts c refs s rest a.2).2) := by
  rw [checkStmts]
  rfl

theorem checkStmts_nil : checkStmts c refs s [] k = ([], k) := by
  rw [checkStmts]
  rfl

theorem checkElse_some (st) :
    checkElse c refs s (some st) k =
      (some (checkStmt c refs s st k).1, (checkStmt c refs s st k).2) := by
  rw [checkElse]
  rfl

theorem checkElse_none : checkElse c refs s none k = (none, k) := by
  rw [checkElse]
  rfl

end

mutual

theorem mistake_checkStmt (st : Stmt) (k : Check)
    (h : (checkStmt c refs s st k).2.mistake = none) : k.mistake = none := by
  cases st with
  | let_ o n sym v u =>
      rw [checkStmt_let] at h
      dsimp only at h
      split at h
      · exact mistake_checkExpr v k h
      · exact mistake_checkExpr v k h
  | fn o n sym ps bo body u =>
      rw [checkStmt] at h
      exact (mistake_of_unlessFailed h).1
  | assign o n sym v u =>
      rw [checkStmt_assign] at h
      dsimp only at h
      split at h
      · exact mistake_checkExpr v k h
      · next hk => exact mistake_checkExpr v k (by simpa using hk)
  | setMember o t p v =>
      rw [checkStmt_setMember] at h
      exact mistake_checkExpr t k (mistake_checkExpr v _ h)
  | return_ o v =>
      rw [checkStmt_return] at h
      cases v with
      | none => exact h
      | some x => exact mistake_checkExpr x k h
  | if_ o condition b t e =>
      rw [checkStmt_if] at h
      dsimp only at h
      split at h
      · exact mistake_checkExpr condition k h
      · next hk => exact mistake_checkExpr condition k (by simpa using hk)
  | block o body =>
      rw [checkStmt] at h
      exact (mistake_of_unlessFailed h).1
  | expr x =>
      rw [checkStmt_expr] at h
      exact mistake_checkExpr x k h
  | import_ o q p => rw [checkStmt] at h; exact h
  | enum o n es => rw [checkStmt] at h; exact h
  | retain o ns => rw [checkStmt] at h; exact h

theorem mistake_checkStmts (ss : List Stmt) (k : Check)
    (h : (checkStmts c refs s ss k).2.mistake = none) : k.mistake = none := by
  cases ss with
  | nil =>
      rw [checkStmts_nil] at h
      exact h
  | cons st rest =>
      rw [checkStmts_cons] at h
      exact mistake_checkStmt st k (mistake_checkStmts rest _ h)

theorem mistake_checkElse (e : Option Stmt) (k : Check)
    (h : (checkElse c refs s e k).2.mistake = none) : k.mistake = none := by
  cases e with
  | none =>
      rw [checkElse_none] at h
      exact h
  | some st =>
      rw [checkElse_some] at h
      exact mistake_checkStmt st k h

end

end Check

theorem Stmt.declaredNames_subset_cons (st : Stmt) (rest : List Stmt) :
    declaredNames rest ⊆ declaredNames (st :: rest) := by
  intro n hn
  simp only [declaredNames, List.filterMap_cons]
  split
  · exact hn
  · exact List.mem_cons_of_mem _ hn

theorem Symbol.idOf_injective (space : Text) : Function.Injective (Symbol.idOf space) := by
  intro a b h
  simp only [Symbol.idOf] at h
  split at h
  · exact List.append_cancel_left h
  · exact List.append_cancel_left h

namespace Check

variable {c : CheckContext} {refs : ReferenceId → Reference} {s root : ScopeId}

def always (_ : UsageId) : Prop := True

def Hoisted (c : CheckContext) (s : ScopeId) (l : Ledger) (names : List Text) : Prop :=
  ∀ n ∈ names, (l.own? s (Symbol.idOf c.space n)).isSome

theorem Hoisted.later {l l' : Ledger} {names : List Text} (h : Hoisted c s l names)
    (hl : Ready root s l) (hext : l.Extends l') : Hoisted c s l' names := by
  intro n hn
  rw [hext.own?_eq hl.wellFormed hl.lt]
  exact h n hn

theorem enters_modifyUsage {l : Ledger} (hl : l.WellFormed) (u : UsageId)
    (change : Usage → Usage) (hid : ∀ x, (change x).id = x.id)
    (hreaders : ∀ x, (change x).readers = x.readers)
    (hdefined : ∀ x, x.defined = true → (change x).defined = true) :
    l.Enters c.file (l.modifyUsage u change) [] := by
  refine Ledger.Enters.of_accounts (hl.modifyUsage u change)
    (Ledger.extends_modifyUsage l u change hid) ?_ fun h => h.modifyUsage u change hdefined
  intro before hbefore
  refine hbefore.congr (fun v => ?_) (fun _ => rfl) (fun _ => rfl)
  rw [Ledger.usage_modifyUsage]
  split
  · exact hreaders _
  · rfl

/-- Marking a record as defined and noting what is stored under it enters no read. -/
theorem enters_store {l : Ledger} (hl : l.WellFormed) (u : UsageId) (v : Truth) :
    l.Enters c.file ((l.markDefined u).track u v) [] := by
  have hmark := enters_modifyUsage (c := c) hl u
    (fun usage => { usage with defined := true }) (fun _ => rfl) (fun _ => rfl) (fun _ _ => rfl)
  have htrack := enters_modifyUsage (c := c) hmark.wellFormed u (fun usage => usage.track v)
    (fun _ => rfl) (fun _ => rfl) (fun _ hx => hx)
  exact hmark.trans htrack

theorem defined_spec {k : Check} (hk : Ready root s k.ledger) {n : Text}
    (hn : (k.ledger.own? s (Symbol.idOf c.space n)).isSome) (v : Truth) :
    k.ledger.Enters c.file (defined c s k n v).2.ledger [] ∧
      k.ledger.own? s (Symbol.idOf c.space n) = some (defined c s k n v).1 := by
  obtain ⟨u, hu⟩ := Option.isSome_iff_exists.mp hn
  simp only [defined, Ledger.define_of_own? hu]
  exact ⟨enters_store hk.wellFormed u v, hu⟩

theorem inside_filled {k : Check} (hk : Ready root s k.ledger) (names : List Text) :
    Ledger.Filled k.ledger (inside c s k names).ledger k.ledger.scopes.size (some s)
      (idsOf c names) :=
  (Ledger.filled_openChild hk.wellFormed hk.lt).defineAll le_rfl (idsOf c names)

theorem inside_ready {k : Check} (hk : Ready root s k.ledger) (names : List Text) :
    Ready root k.ledger.scopes.size (inside c s k names).ledger where
  wellFormed := (inside_filled hk names).wellFormed
  lt := (inside_filled hk names).lt
  root_mem := (inside_filled hk names).mem_chain hk.wellFormed hk.lt hk.root_mem

structure AnalysedAll (c : CheckContext) (refs : ReferenceId → Reference) (root s : ScopeId)
    (l l' : Ledger) (before after : List Stmt) : Prop where
  entered : Entered c refs root l l' (Stmt.mentionsOfAll before) (Stmt.mentionsOfAll after)
  bound : Stmt.BoundAll (c.naming refs root l') always (l.visible s) after
  declared : ∀ n ∈ Stmt.declaredNames before, ∀ u,
    l.own? s (Symbol.idOf c.space n) = some u → ∃ st ∈ after, st.Declares n u

/-- What a filled scope binds is a parameter, or the statements analysed in it declare it. -/
theorem AnalysedAll.supported {base l l' : Ledger} {parent : Option ScopeId}
    {body body' : List Stmt} (params : List Param)
    (hfilled : Ledger.Filled base l s parent
      (idsOf c (params.map (·.name) ++ Stmt.declaredNames body)))
    (h : AnalysedAll c refs root s l l' body body') :
    Stmt.Supported (c.naming refs root l') always params body' (l.frame s) := by
  intro name u hlookup _
  have hmem := hfilled.frame _ (Ledger.mem_of_lookup hlookup)
  obtain ⟨n, hn, hid⟩ := List.mem_map.mp hmem
  obtain rfl := Symbol.idOf_injective c.space hid
  rcases List.mem_append.mp hn with hparam | hdeclared
  · obtain ⟨q, hq, rfl⟩ := List.mem_map.mp hparam
    exact Or.inl ⟨q, hq, rfl⟩
  · right
    apply h.declared n hdeclared u
    rw [Ledger.own?_eq_lookup]
    exact hlookup

/-- A list of statements in braces, with its parameters. -/
theorem AnalysedAll.inside {k : Check} {l' : Ledger} {body body' : List Stmt}
    (params : List Param) (hk : Ready root s k.ledger)
    (h : AnalysedAll c refs root k.ledger.scopes.size
      (inside c s k (params.map (·.name) ++ Stmt.declaredNames body)).ledger l' body body') :
    Entered c refs root k.ledger l' (Stmt.mentionsOfAll body) (Stmt.mentionsOfAll body') ∧
      ∃ Δ, Stmt.Supported (c.naming refs root l') always params body' Δ ∧
        Stmt.BoundAll (c.naming refs root l') always (Δ ++ k.ledger.visible s) body' := by
  have hfilled := inside_filled (c := c) hk (params.map (·.name) ++ Stmt.declaredNames body)
  refine ⟨⟨?_, h.entered.bare, h.entered.attached⟩,
    (Check.inside c s k (params.map (·.name) ++ Stmt.declaredNames body)).ledger.frame
      k.ledger.scopes.size, h.supported params hfilled, ?_⟩
  · have hopen : k.ledger.Enters c.file _ [] :=
      Ledger.Enters.of_accounts hfilled.wellFormed hfilled.extend hfilled.accounts
        hfilled.unlinked
    exact hopen.trans h.entered.enters
  · rw [← hfilled.visible_eq hk.wellFormed hk.lt]
    exact h.bound

theorem hoisted_inside {k : Check} (hk : Ready root s k.ledger) (before names : List Text) :
    Hoisted c k.ledger.scopes.size (inside c s k (before ++ names)).ledger names := by
  intro n hn
  apply (inside_filled hk (before ++ names)).own
  exact List.mem_map.mpr ⟨n, List.mem_append_right _ hn, rfl⟩

structure AnalysedStmt (c : CheckContext) (refs : ReferenceId → Reference) (root s : ScopeId)
    (l l' : Ledger) (before after : Stmt) : Prop where
  entered : Entered c refs root l l' before.mentions after.mentions
  bound : after.Bound (c.naming refs root l') always (l.visible s)
  declared : ∀ n sym, before.declared? = some (n, sym) → ∀ u,
    l.own? s (Symbol.idOf c.space n) = some u → after.Declares n u

/-- A declaration gets the record that its scope has for the name. -/
theorem AnalysedStmt.let_ {l : Ledger} {k : Check} {v v' : Expr} {n : Text} {sym : SymbolId}
    (hl : Ready root s l) (hown : (l.own? s (Symbol.idOf c.space n)).isSome)
    (hv : Analysed c refs root s l k.ledger v.mentions v'.mentions v'.loads)
    (o : Nat) (usage : Option UsageId) (truth : Truth) :
    AnalysedStmt c refs root s l (defined c s k n truth).2.ledger (.let_ o n sym v usage)
      (.let_ o n sym v' (some (defined c s k n truth).1)) := by
  have henters := hv.entered.enters
  have hsame := henters.extend.own?_eq hl.wellFormed hl.lt (Symbol.idOf c.space n)
  obtain ⟨hdefined, hrecord⟩ := defined_spec (hl.later henters.wellFormed henters.extend)
    (hsame ▸ hown) truth
  refine ⟨(hv.entered.later hdefined).append_inert rfl, ?_, ?_⟩
  · exact Expr.Bound.mono hv.known rfl
      (naming_later henters.wellFormed hdefined.wellFormed hdefined.extend)
  · rintro _ _ ⟨rfl, rfl⟩ u hu
    rw [hsame, hu] at hrecord
    exact ⟨rfl, hrecord.symm⟩

/-- An assignment gets the record that its name is found under once the value is analysed. -/
theorem AnalysedStmt.assign {l l' : Ledger} {v v' : Expr} {n : Text} {sym : SymbolId}
    {w : UsageId} (hl : Ready root s l)
    (hv : Analysed c refs root s l l' v.mentions v'.mentions v'.loads)
    (hfind : l'.find? s (Symbol.idOf c.space n) = some w)
    (o : Nat) (usage : Option UsageId) (truth : Truth) :
    AnalysedStmt c refs root s l ((l'.markDefined w).track w truth) (.assign o n sym v usage)
      (.assign o n sym v' (some w)) := by
  have henters := hv.entered.enters
  have hstore := enters_store (c := c) henters.wellFormed w truth
  refine ⟨(hv.entered.later hstore).append_inert rfl, ⟨?_, w, rfl, ?_⟩, fun _ _ h => nomatch h⟩
  · exact Expr.Bound.mono hv.known rfl
      (naming_later henters.wellFormed hstore.wellFormed hstore.extend)
  · rw [henters.extend.find?_eq hl.wellFormed henters.wellFormed hl.lt,
      Ledger.find?_eq_lookup] at hfind
    exact hfind

/-- The branches of a conditional see the names that were visible before its condition. -/
theorem AnalysedStmt.if_ {l₀ l₁ l₂ l₃ : Ledger} {condition condition' : Expr}
    {t t' : List Stmt} {e e' : Option Stmt} (hl : Ready root s l₀)
    (hcondition : Analysed c refs root s l₀ l₁ condition.mentions condition'.mentions
      condition'.loads)
    (hthen : Entered c refs root l₁ l₂ (Stmt.mentionsOfAll t) (Stmt.mentionsOfAll t') ∧
      ∃ Δ, Stmt.Supported (c.naming refs root l₂) always [] t' Δ ∧
        Stmt.BoundAll (c.naming refs root l₂) always (Δ ++ l₁.visible s) t')
    (helse : Entered c refs root l₂ l₃ (Stmt.mentionsOfElse e) (Stmt.mentionsOfElse e') ∧
      Stmt.BoundElse (c.naming refs root l₃) always (l₂.visible s) e') (o b : Nat) :
    AnalysedStmt c refs root s l₀ l₃ (.if_ o condition b t e) (.if_ o condition' b t' e') := by
  obtain ⟨hthenEntered, Δ, hsupported, hthenBound⟩ := hthen
  obtain ⟨helseEntered, helseBound⟩ := helse
  have henters := hcondition.entered.enters
  have henters' := hthenEntered.enters
  have henters'' := helseEntered.enters
  have hl₁ := hl.later henters.wellFormed henters.extend
  have hvisible := henters.extend.visible_eq hl.wellFormed henters.wellFormed hl.lt
  have hvisible' := henters'.extend.visible_eq hl₁.wellFormed henters'.wellFormed hl₁.lt
  refine ⟨(hcondition.entered.append hthenEntered).append helseEntered,
    ⟨?_, ⟨Δ, ?_, ?_⟩, ?_⟩, fun _ _ h => nomatch h⟩
  · exact Expr.Bound.mono hcondition.known rfl
      (naming_later henters.wellFormed henters''.wellFormed
        (henters'.extend.trans henters''.extend))
  · exact hsupported.mono rfl fun _ hu => hu
  · rw [← hvisible]
    exact hthenBound.mono rfl
      (naming_later henters'.wellFormed henters''.wellFormed henters''.extend) fun _ hu => hu
  · rw [← hvisible, ← hvisible']
    exact helseBound

theorem AnalysedStmt.cons {l l' l'' : Ledger} {st st' : Stmt} {rest rest' : List Stmt}
    (hl : Ready root s l) (h : AnalysedStmt c refs root s l l' st st')
    (h' : AnalysedAll c refs root s l' l'' rest rest') :
    AnalysedAll c refs root s l l'' (st :: rest) (st' :: rest') where
  entered := h.entered.append h'.entered
  bound := by
    have henters := h.entered.enters
    have henters' := h'.entered.enters
    have hvisible := henters.extend.visible_eq hl.wellFormed henters.wellFormed hl.lt
    refine ⟨?_, ?_⟩
    · exact h.bound.mono rfl
        (naming_later henters.wellFormed henters'.wellFormed henters'.extend) fun _ hu => hu
    · rw [← hvisible]
      exact h'.bound
  declared := by
    intro n hn u hu
    simp only [Stmt.declaredNames, List.filterMap_cons] at hn
    have hrest : n ∈ Stmt.declaredNames rest → ∃ st ∈ rest', st.Declares n u := by
      intro hmem
      apply h'.declared n hmem u
      rw [h.entered.enters.extend.own?_eq hl.wellFormed hl.lt]
      exact hu
    cases hd : st.declared? with
    | none =>
        rw [hd] at hn
        obtain ⟨x, hx, hdeclares⟩ := hrest hn
        exact ⟨x, List.mem_cons_of_mem _ hx, hdeclares⟩
    | some d =>
        rw [hd] at hn
        rcases List.mem_cons.mp hn with rfl | hmem
        · exact ⟨st', List.mem_cons_self, h.declared d.1 d.2 hd u hu⟩
        · obtain ⟨x, hx, hdeclares⟩ := hrest hmem
          exact ⟨x, List.mem_cons_of_mem _ hx, hdeclares⟩

mutual

theorem checkStmt_spec {s : ScopeId} (st : Stmt) (k : Check) (hk : Ready root s k.ledger)
    (hfresh : ∀ m ∈ st.mentions, m.Fresh refs) (hregular : st.Regular)
    (hhoisted : ∀ n sym, st.declared? = some (n, sym) →
      (k.ledger.own? s (Symbol.idOf c.space n)).isSome)
    (hok : (checkStmt c refs s st k).2.mistake = none) :
    let r := checkStmt c refs s st k
    AnalysedStmt c refs root s k.ledger r.2.ledger st r.1 := by
  have hnone := mistake_checkStmt _ k hok
  cases st with
  | let_ o n sym v u =>
      rw [checkStmt_let] at hok ⊢
      dsimp only at hok ⊢
      obtain ⟨hmid, hrun⟩ := mistake_of_ite hok
      rw [hrun] at hok ⊢
      have hv := checkExpr_spec v k hk
        (fun m hm => hfresh m (List.mem_append_left _ hm)) hmid
      exact .let_ hk (hhoisted n sym rfl) hv o u _
  | fn o n sym ps bo body u =>
      rw [checkStmt_fn, if_neg (by simp [hnone])] at hok ⊢
      obtain ⟨hdefined, hrecord⟩ := defined_spec hk (hhoisted n sym rfl) .truthy
      have hk' := hk.later hdefined.wellFormed hdefined.extend
      have hbody := checkStmts_spec body _ (inside_ready hk' _)
        (fun m hm => hfresh m (List.mem_append_right _ hm)) hregular
        (hoisted_inside hk' (ps.map (·.name)) _) hok
      obtain ⟨hentered, Δ, hsupported, hbound⟩ := hbody.inside ps hk'
      have hheader : (Mention.binding n sym :: ps.map fun q => .binding q.name q.symbol).filterMap
          Mention.read? = [] := by
        simp [List.filterMap_cons, Mention.read?, List.filterMap_eq_nil_iff]
      refine ⟨(hentered.earlier hdefined).inert_append hheader, ⟨Δ, hsupported, ?_⟩, ?_⟩
      · rw [← hdefined.extend.visible_eq hk.wellFormed hdefined.wellFormed hk.lt]
        exact hbound
      · rintro _ _ ⟨rfl, rfl⟩ u hu
        rw [hu] at hrecord
        exact ⟨rfl, hrecord.symm⟩
  | assign o n sym v u =>
      rw [checkStmt_assign] at hok ⊢
      dsimp only at hok ⊢
      obtain ⟨hmid, hrun⟩ := mistake_of_ite hok
      rw [hrun] at hok ⊢
      have hv := checkExpr_spec v k hk
        (fun m hm => hfresh m (List.mem_append_left _ hm)) hmid
      cases hfind : (checkExpr c refs s v k).2.ledger.find? s (Symbol.idOf c.space n) with
      | none =>
          rw [hfind] at hok
          exact absurd hok (mistake_fail _ _ _)
      | some w => exact .assign hk hv hfind o u _
  | setMember o t p v =>
      rw [checkStmt_setMember] at hok ⊢
      have hfresh' : ∀ m ∈ t.mentions ++ v.mentions, m.Fresh refs :=
        fun m hm => hfresh m (List.mem_append_left _ hm)
      have ht := checkExpr_spec t k hk
        (fun m hm => hfresh' m (List.mem_append_left _ hm)) (mistake_checkExpr v _ hok)
      have henters := ht.entered.enters
      have hv := checkExpr_spec v _ (hk.later henters.wellFormed henters.extend)
        (fun m hm => hfresh' m (List.mem_append_right _ hm)) hok
      have hboth := ht.append hk hv
      refine ⟨hboth.entered.append_inert rfl, ⟨?_, ?_⟩, fun _ _ h => nomatch h⟩
      · exact fun m hm => hboth.known m (List.mem_append_left _ hm)
      · exact fun m hm => hboth.known m (List.mem_append_right _ hm)
  | return_ o v =>
      rw [checkStmt_return] at hok ⊢
      cases v with
      | none =>
          exact ⟨Entered.refl hk.wellFormed, (fun _ h => nomatch h), fun _ _ h => nomatch h⟩
      | some x =>
          have hrun : checkOptional c refs s (some x) k =
              (some (checkExpr c refs s x k).1, (checkExpr c refs s x k).2) := rfl
          rw [hrun] at hok ⊢
          have hx := checkExpr_spec x k hk (by simpa [Stmt.mentions] using hfresh) hok
          refine ⟨by simpa [Stmt.mentions] using hx.entered, ?_, fun _ _ h => nomatch h⟩
          intro y hy
          cases hy
          exact hx.known
  | if_ o condition b t e =>
      rw [checkStmt_if] at hok ⊢
      dsimp only at hok ⊢
      obtain ⟨hmid, hrun⟩ := mistake_of_ite hok
      rw [hrun] at hok ⊢
      have hfresh' : ∀ m ∈ condition.mentions ++ Stmt.mentionsOfAll t, m.Fresh refs :=
        fun m hm => hfresh m (List.mem_append_left _ hm)
      have hc := checkExpr_spec condition k hk
        (fun m hm => hfresh' m (List.mem_append_left _ hm)) hmid
      have henters := hc.entered.enters
      have hk' := hk.later henters.wellFormed henters.extend
      have hthen := checkStmts_spec t _ (inside_ready hk' _)
        (fun m hm => hfresh' m (List.mem_append_right _ hm)) hregular.1
        (hoisted_inside hk' [] _) (mistake_checkElse e _ hok)
      have hbranch := hthen.inside [] hk'
      have henters' := hbranch.1.enters
      have helse := checkElse_spec e _ (hk'.later henters'.wellFormed henters'.extend)
        (fun m hm => hfresh m (List.mem_append_right _ hm)) hregular.2 hok
      exact .if_ hk hc hbranch helse o b
  | block o body =>
      rw [checkStmt_block, if_neg (by simp [hnone])] at hok ⊢
      have hbody := checkStmts_spec body _ (inside_ready hk _) hfresh hregular
        (hoisted_inside hk [] _) hok
      obtain ⟨hentered, hbound⟩ := hbody.inside [] hk
      exact ⟨hentered, hbound, fun _ _ h => nomatch h⟩
  | expr x =>
      rw [checkStmt_expr] at hok ⊢
      have hx := checkExpr_spec x k hk hfresh hok
      exact ⟨hx.entered, hx.known, fun _ _ h => nomatch h⟩
  | import_ o q p =>
      rw [checkStmt]
      exact ⟨Entered.refl hk.wellFormed, trivial, fun _ _ h => nomatch h⟩
  | enum o n es =>
      rw [checkStmt]
      exact ⟨Entered.refl hk.wellFormed, trivial, fun _ _ h => nomatch h⟩
  | retain o ns =>
      rw [checkStmt]
      exact ⟨Entered.refl hk.wellFormed, trivial, fun _ _ h => nomatch h⟩

/-- Statements whose declarations are in their scope are analysed without adding to
the scopes that are there, and come back bound in them. -/
theorem checkStmts_spec {s : ScopeId} (ss : List Stmt) (k : Check)
    (hk : Ready root s k.ledger)
    (hfresh : ∀ m ∈ Stmt.mentionsOfAll ss, m.Fresh refs) (hregular : Stmt.RegularAll ss)
    (hhoisted : Hoisted c s k.ledger (Stmt.declaredNames ss))
    (hok : (checkStmts c refs s ss k).2.mistake = none) :
    let r := checkStmts c refs s ss k
    AnalysedAll c refs root s k.ledger r.2.ledger ss r.1 := by
  cases ss with
  | nil =>
      rw [checkStmts_nil]
      exact ⟨Entered.refl hk.wellFormed, trivial, fun _ h => nomatch h⟩
  | cons st rest =>
      rw [checkStmts_cons] at hok ⊢
      have hst := checkStmt_spec st k hk
        (fun m hm => hfresh m (List.mem_append_left _ hm)) hregular.1
        (fun n sym hd => hhoisted n (by simp [Stmt.declaredNames, hd]))
        (mistake_checkStmts rest _ hok)
      have henters := hst.entered.enters
      have hrest := checkStmts_spec rest _ (hk.later henters.wellFormed henters.extend)
        (fun m hm => hfresh m (List.mem_append_right _ hm)) hregular.2
        (Hoisted.later (fun n hn => hhoisted n (Stmt.declaredNames_subset_cons st rest hn)) hk
          henters.extend) hok
      exact hst.cons hk hrest

theorem checkElse_spec {s : ScopeId} (e : Option Stmt) (k : Check)
    (hk : Ready root s k.ledger)
    (hfresh : ∀ m ∈ Stmt.mentionsOfElse e, m.Fresh refs) (hregular : Stmt.RegularElse e)
    (hok : (checkElse c refs s e k).2.mistake = none) :
    let r := checkElse c refs s e k
    Entered c refs root k.ledger r.2.ledger (Stmt.mentionsOfElse e) (Stmt.mentionsOfElse r.1) ∧
      Stmt.BoundElse (c.naming refs root r.2.ledger) always (k.ledger.visible s) r.1 := by
  cases e with
  | none =>
      rw [checkElse_none]
      exact ⟨Entered.refl hk.wellFormed, trivial⟩
  | some st =>
      rw [checkElse_some] at hok ⊢
      have hst := checkStmt_spec st k hk hfresh hregular.2
        (fun n sym h => by rw [hregular.1] at h; cases h) hok
      exact ⟨hst.entered, hst.bound⟩

end

theorem declared?_checkStmt (st : Stmt) (k : Check) :
    (checkStmt c refs s st k).1.declared? = st.declared? := by
  cases st with
  | let_ o n sym v u =>
      rw [checkStmt_let]
      dsimp only
      split <;> rfl
  | fn o n sym ps bo body u =>
      rw [checkStmt_fn]
      split <;> rfl
  | assign o n sym v u =>
      rw [checkStmt_assign]
      dsimp only
      split
      · rfl
      · split <;> rfl
  | setMember o t p v => rw [checkStmt_setMember]; rfl
  | return_ o v => rw [checkStmt_return]; rfl
  | if_ o condition b t e =>
      rw [checkStmt_if]
      dsimp only
      split <;> rfl
  | block o body =>
      rw [checkStmt_block]
      split <;> rfl
  | expr x => rw [checkStmt_expr]; rfl
  | import_ o q p => rw [checkStmt]; rfl
  | enum o n es => rw [checkStmt]; rfl
  | retain o ns => rw [checkStmt]; rfl

theorem declaredNames_checkStmts (ss : List Stmt) (k : Check) :
    Stmt.declaredNames (checkStmts c refs s ss k).1 = Stmt.declaredNames ss := by
  induction ss generalizing k with
  | nil => rw [checkStmts_nil]
  | cons st rest ih =>
      rw [checkStmts_cons]
      have hrest := ih (checkStmt c refs s st k).2
      unfold Stmt.declaredNames at hrest ⊢
      rw [List.filterMap_cons, List.filterMap_cons, hrest, declared?_checkStmt]

end Check

end Splice

import Splice.Proofs.Program.Identifiers
import Splice.Proofs.Tree.Numbering

/-!
# Reads of enum entries

An expression reads an entry of an enum in one of three ways: as a member of an enum of
its own namespace, as a member of an enum of the standard library, or through an alias of
an import.  `Expr.entryUse?` tells which entry that is and with which integer it is coded.
While code is generated for a tree, the entries that its expressions read are noted in the
namespaces that declare them, and nothing else is (`Program.Notes`).
-/

namespace Splice

/-- An entry of an enum of some namespace, with the integer it is coded as. -/
structure EntryUse where
  space : Text
  enum : Text
  entry : Text
  value : Int64
deriving DecidableEq, Repr

namespace EntryUse

def name (u : EntryUse) : Text := u.space ++ ":" ++ u.enum ++ "." ++ u.entry

def key (u : EntryUse) : Text := u.enum ++ "." ++ u.entry

end EntryUse

def Coding.entryUse? (c : Coding) (r : ReferenceId) : Option EntryUse :=
  match c.resolution r with
  | .entry space enum entry value => some ⟨space, enum, entry, value⟩
  | _ => none

def Expr.entryUse? (c : Coding) (space : Text) : Expr → Option EntryUse
  | imported _ r _ _ => c.entryUse? r
  | member _ _ _ _ (some e) => some ⟨space, e.enum, e.entry, e.value⟩
  | member _ (name _ _ (.std r _)) _ _ none => c.entryUse? r
  | _ => none

def Expr.entryUses (c : Coding) (space : Text) (xs : List Expr) : List EntryUse :=
  xs.filterMap (entryUse? c space)

theorem Coding.resolution_of_entryUse? {c : Coding} {r : ReferenceId} {u : EntryUse}
    (h : c.entryUse? r = some u) : c.resolution r = .entry u.space u.enum u.entry u.value := by
  unfold entryUse? at h
  split at h
  · next hr =>
      cases h
      exact hr
  · cases h

/-- The code of a read is the integer of the entry. -/
theorem Expr.instr_of_entryUse? {c : Coding} {space : Text} {x : Expr} {u : EntryUse}
    (h : x.entryUse? c space = some u) : x.instr c = .number u.value := by
  unfold entryUse? at h
  split at h
  · simp only [instr, Coding.resolution_of_entryUse? h]
  · cases h
    rfl
  · simp only [instr, Coding.stdEntry?, Coding.resolution_of_entryUse? h]
  · cases h

/-- A node of a tree that was not analysed yet. -/
def Expr.Blank : Expr → Prop
  | member _ _ _ _ entry => entry = none
  | object _ keys values => values.length = keys.length
  | _ => True

/-- A node of an analysed tree: a member that is known to be an entry is one of an enum of
the namespace, whose name means nothing else there, and every key of an object has a
value. -/
def Expr.Apt (c : CheckContext) : Expr → Prop
  | member _ x text _ (some e) => Check.ReadsEntry c x text e ∧ ∃ o name, x = .name o name .unbound
  | object _ keys values => values.length = keys.length
  | _ => True

theorem Expr.Annotates.blank {x y : Expr} (h : x.Annotates noEntry y) (hx : x.Plain True) :
    y.Blank := by
  cases h with
  | member => exact hx
  | entry h => exact h.elim
  | object h => exact h.trans hx
  | _ => trivial

/-- An entry is read of a name that is unbound: a binding has no entries, and a name of the
standard library is no enum of the namespace. -/
theorem Check.ReadsEntry.exists_unbound {c : CheckContext} {x : Expr} {text : Text} {e : EntryRead}
    (h : Check.ReadsEntry c x text e)
    (hstd : ∀ o n r record, x = .name o n (.std r record) →
      c.enums.find? (·.name == n) = none) : ∃ o name, x = .name o name .unbound := by
  obtain ⟨enum, entry, henum, -⟩ := h
  cases x with
  | name o name read =>
      cases read with
      | unbound => exact ⟨o, name, rfl⟩
      | own s usage => cases henum
      | std r record =>
          cases henum.symm.trans (hstd o name r record rfl)
  | _ => cases henum

theorem Expr.Annotates.apt {c : CheckContext} {x y : Expr}
    (h : x.Annotates (Check.ReadsEntry c) y) (hx : x.Blank)
    (hstd : ∀ o n r record, Mention.name o n (.std r record) ∈ x.mentions →
      c.enums.find? (·.name == n) = none) : y.Apt c := by
  cases h with
  | member =>
      rw [show _ = none from hx]
      trivial
  | entry hstands =>
      refine ⟨hstands, hstands.exists_unbound ?_⟩
      rintro o n r record rfl
      exact hstd o n r record List.mem_cons_self
  | object hlength => exact hlength.trans hx
  | _ => trivial

theorem Check.ReadsEntry.of_enums {c c' : CheckContext} {x : Expr} {text : Text} {e : EntryRead}
    (h : Check.ReadsEntry c x text e) (henums : c'.enums = c.enums) :
    Check.ReadsEntry c' x text e := by
  obtain ⟨enum, entry, henum, hentry⟩ := h
  refine ⟨enum, entry, ?_, hentry⟩
  rw [← henum]
  cases x with
  | name o name read => cases read <;> simp only [Check.enumOfTarget?, henums]
  | _ => rfl

theorem Expr.Apt.of_enums {c c' : CheckContext} {x : Expr} (h : x.Apt c)
    (henums : c'.enums = c.enums) : x.Apt c' := by
  cases x with
  | member o x text s entry =>
      cases entry with
      | none => trivial
      | some e => exact ⟨h.1.of_enums henums, h.2⟩
  | object o keys values => exact h
  | _ => trivial

namespace Expr

variable {x : Expr}

mutual

theorem mentions_of_mem_nodes (e : Expr) (hx : x ∈ e.nodes) : x.mentions ⊆ e.mentions := by
  cases e with
  | member o y n p entry =>
      rcases List.mem_cons.mp hx with rfl | hx
      · exact List.Subset.refl _
      · exact List.Subset.trans (mentions_of_mem_nodes y hx) (List.subset_append_left _ _)
  | call o callee args =>
      rcases List.mem_cons.mp hx with rfl | hx
      · exact List.Subset.refl _
      · rcases List.mem_append.mp hx with hx | hx
        · exact List.Subset.trans (mentions_of_mem_nodes callee hx) (List.subset_append_left _ _)
        · exact List.Subset.trans (mentions_of_mem_nodesOfAll args hx)
            (List.subset_append_right _ _)
  | syscall o n args =>
      rcases List.mem_cons.mp hx with rfl | hx
      · exact List.Subset.refl _
      · exact mentions_of_mem_nodesOfAll args hx
  | object o keys values =>
      rcases List.mem_cons.mp hx with rfl | hx
      · exact List.Subset.refl _
      · exact List.Subset.trans (mentions_of_mem_nodesOfAll values hx)
          (List.subset_append_left _ _)
  | binary o op a b =>
      rcases List.mem_cons.mp hx with rfl | hx
      · exact List.Subset.refl _
      · rcases List.mem_append.mp hx with hx | hx
        · exact List.Subset.trans (mentions_of_mem_nodes a hx) (List.subset_append_left _ _)
        · exact List.Subset.trans (mentions_of_mem_nodes b hx) (List.subset_append_right _ _)
  | unary o op a =>
      rcases List.mem_cons.mp hx with rfl | hx
      · exact List.Subset.refl _
      · exact mentions_of_mem_nodes a hx
  | number o v => rw [List.mem_singleton.mp hx]; exact List.Subset.refl _
  | string o v => rw [List.mem_singleton.mp hx]; exact List.Subset.refl _
  | bool o v => rw [List.mem_singleton.mp hx]; exact List.Subset.refl _
  | nil o => rw [List.mem_singleton.mp hx]; exact List.Subset.refl _
  | name o n read => rw [List.mem_singleton.mp hx]; exact List.Subset.refl _
  | imported o r m record => rw [List.mem_singleton.mp hx]; exact List.Subset.refl _

theorem mentions_of_mem_nodesOfAll (es : List Expr) (hx : x ∈ nodesOfAll es) :
    x.mentions ⊆ mentionsOfAll es := by
  cases es with
  | nil => cases hx
  | cons e rest =>
      rcases List.mem_append.mp hx with hx | hx
      · exact List.Subset.trans (mentions_of_mem_nodes e hx) (List.subset_append_left _ _)
      · exact List.Subset.trans (mentions_of_mem_nodesOfAll rest hx)
          (List.subset_append_right _ _)

end

variable {o o' : Nat} {n m : Text} {read : NameRead} {s : SymbolId} {entry : Option EntryRead}

mutual

/-- A member of a name is a site of the name. -/
theorem site_of_mem_nodes (e : Expr) (access : Option Access)
    (h : member o (name o' n read) m s entry ∈ e.nodes) :
    Site.read o' n (some ⟨o, m, entry⟩) read ∈ e.sites access := by
  cases e with
  | member at_ y text p given =>
      rcases List.mem_cons.mp h with heq | h
      · cases heq
        exact List.mem_cons_self
      · exact site_of_mem_nodes y _ h
  | call at_ callee args =>
      rcases List.mem_append.mp ((List.mem_cons.mp h).resolve_left nofun) with h | h
      · exact List.mem_append_left _ (site_of_mem_nodes callee _ h)
      · exact List.mem_append_right _ (site_of_mem_nodesOfAll args h)
  | syscall at_ text args =>
      exact site_of_mem_nodesOfAll args ((List.mem_cons.mp h).resolve_left nofun)
  | object at_ keys values =>
      exact site_of_mem_nodesOfAll values ((List.mem_cons.mp h).resolve_left nofun)
  | binary at_ op a b =>
      rcases List.mem_append.mp ((List.mem_cons.mp h).resolve_left nofun) with h | h
      · exact List.mem_append_left _ (site_of_mem_nodes a _ h)
      · exact List.mem_append_right _ (site_of_mem_nodes b _ h)
  | unary at_ op a => exact site_of_mem_nodes a _ ((List.mem_cons.mp h).resolve_left nofun)
  | number at_ v => cases List.mem_singleton.mp h
  | string at_ v => cases List.mem_singleton.mp h
  | bool at_ v => cases List.mem_singleton.mp h
  | nil at_ => cases List.mem_singleton.mp h
  | name at_ text given => cases List.mem_singleton.mp h
  | imported at_ r property record => cases List.mem_singleton.mp h

theorem site_of_mem_nodesOfAll (es : List Expr)
    (h : member o (name o' n read) m s entry ∈ nodesOfAll es) :
    Site.read o' n (some ⟨o, m, entry⟩) read ∈ sitesOfAll es := by
  cases es with
  | nil => cases h
  | cons e rest =>
      rcases List.mem_append.mp h with h | h
      · exact List.mem_append_left _ (site_of_mem_nodes e _ h)
      · exact List.mem_append_right _ (site_of_mem_nodesOfAll rest h)

end

end Expr

theorem Tree.mentions_of_mem_exprs {t : Tree} {x : Expr} (hx : x ∈ t.exprs) :
    x.mentions ⊆ Stmt.mentionsOfAll t.statements := by
  obtain ⟨e, he, hx⟩ := List.mem_flatMap.mp hx
  exact List.Subset.trans (Expr.mentions_of_mem_nodes e hx)
    (Stmt.mentions_of_mem_valuesOfAll t.statements he)

namespace Program

variable {p p' p'' : Program} {n : NamespaceId} {c : CheckContext}

/-- A later program in which some uses have been noted. -/
structure Notes (uses : List EntryUse) (p p' : Program) : Prop extends SameCoding p p' where
  used : ∀ m < p.namespaces.size, ∀ key, key ∈ (p'.spaceAt m).usedEntries ↔
    key ∈ (p.spaceAt m).usedEntries ∨ ∃ u ∈ uses, u.space = (p.spaceAt m).id ∧ u.key = key

theorem Notes.refl (p : Program) : Notes [] p p where
  toSameCoding := SameCoding.refl p
  used m _ key := by simp

theorem Notes.trans {uses uses' : List EntryUse} (h : Notes uses p p')
    (h' : Notes uses' p' p'') : Notes (uses ++ uses') p p'' where
  toSameCoding := h.toSameCoding.trans h'.toSameCoding
  used m hm key := by
    rw [h'.used m (h.size ▸ hm) key, h.used m hm key, h.id, or_assoc]
    simp only [List.mem_append, or_and_right, exists_or]

theorem SameCoding.notes (h : SameCoding p p')
    (hused : ∀ m, (p'.spaceAt m).usedEntries = (p.spaceAt m).usedEntries) : Notes [] p p' where
  toSameCoding := h
  used m _ key := by simp [hused]

theorem Identified.of_ids (hp : p.Identified) (hsize : p'.namespaces.size = p.namespaces.size)
    (hid : ∀ n, (p'.spaceAt n).id = (p.spaceAt n).id) : p'.Identified where
  distinct a ha b hb heq := by
    rw [hsize] at ha hb
    rw [hid, hid] at heq
    exact hp.distinct a ha b hb heq
  word a ha := by
    rw [hsize] at ha
    rw [hid]
    exact hp.word a ha

/-- An entry is noted in its namespace only, since identifiers differ. -/
theorem notes_markEntryUsed (hp : p.Identified) (hn : n < p.namespaces.size)
    (enum entry : Text) (value : Int64) :
    Notes [⟨(p.spaceAt n).id, enum, entry, value⟩] p (p.markEntryUsed n enum entry) where
  toSameCoding := sameCoding_markEntryUsed p n enum entry
  used m hm key := by
    rw [markEntryUsed, spaceAt_modifySpace]
    by_cases hnm : n = m
    · subst hnm
      rw [if_pos ⟨rfl, hn⟩]
      simp [EntryUse.key, eq_comm]
    · rw [if_neg fun h => hnm h.1]
      have hid : (p.spaceAt n).id ≠ (p.spaceAt m).id := fun h => hnm (hp.distinct n hn m hm h)
      simp [hid]

theorem yields_entryValue_notes (hp : p.Identified) (space enum entry : Text) (value : Int64) :
    Yields (entryValue space enum entry value) p fun _ p' =>
      Notes [⟨space, enum, entry, value⟩] p p' := by
  simp only [entryValue, yields_bind, yields_get]
  split
  · next m hm =>
      simp only [yields_bind, yields_set, yields_pure]
      have hlt := List.mem_range.mp (List.mem_of_find?_eq_some hm)
      have hid : (p.spaceAt m).id = space := by simpa using List.find?_some hm
      rw [← hid]
      exact notes_markEntryUsed hp hlt enum entry value
  · next hnone =>
      simp only [yields_pure]
      refine ⟨SameCoding.refl p, fun m hm key => ?_⟩
      have hid : space ≠ (p.spaceAt m).id := by
        intro heq
        have hno := List.find?_eq_none.mp hnone m (List.mem_range.mpr hm)
        simp [heq] at hno
      simp [hid]

/-! ## Generation -/

abbrev NotesUses {α : Type} (n : NamespaceId) (xs : List Expr) (action : Linking α)
    (p : Program) : Prop :=
  Yields action p fun _ p' => Notes (Expr.entryUses p.coding (p.spaceAt n).id xs) p p'

theorem entryUses_append (c : Coding) (space : Text) (xs ys : List Expr) :
    Expr.entryUses c space (xs ++ ys) = Expr.entryUses c space xs ++ Expr.entryUses c space ys :=
  List.filterMap_append

/-- Two actions after each other. -/
theorem NotesUses.bind {α β : Type} {xs ys : List Expr} {action : Linking α}
    {next : α → Linking β} (hp : p.Identified) (hn : n < p.namespaces.size)
    (h : NotesUses n xs action p)
    (h' : ∀ a p', p'.Identified → n < p'.namespaces.size → NotesUses n ys (next a) p') :
    NotesUses n (xs ++ ys) (action >>= next) p := by
  rw [NotesUses, yields_bind]
  refine h.mono ?_
  intro a p₁ hnotes
  have hsame := hnotes.toSameCoding
  refine (h' a p₁ (hp.of_ids hsame.size hsame.id) (hsame.size ▸ hn)).mono ?_
  intro b p₂ hnotes'
  rw [hsame.coding, hsame.id] at hnotes'
  rw [entryUses_append]
  exact hnotes.trans hnotes'

/-- Making something of what comes out. -/
theorem NotesUses.map {α β : Type} {xs : List Expr} {action : Linking α} {f : α → β}
    (h : NotesUses n xs action p) : NotesUses n xs (action >>= fun a => pure (f a)) p := by
  simp only [NotesUses, yields_bind, yields_pure]
  exact h

/-- Making something of what comes out and of the program at that time. -/
theorem NotesUses.mapGet {α β : Type} {xs : List Expr} {action : Linking α}
    {f : α → Program → β} (h : NotesUses n xs action p) :
    NotesUses n xs (action >>= fun a => get >>= fun q => pure (f a q)) p := by
  simp only [NotesUses, yields_bind, yields_get, yields_pure]
  exact h

theorem notesUses_pure {α : Type} {a : α} : NotesUses n [] (pure a) p := by
  rw [NotesUses, yields_pure]
  exact Notes.refl p

theorem notesUses_nameValue (read : NameRead) : NotesUses n [] (nameValue n read) p := by
  refine (yields_nameValue read).mono ?_
  rintro _ p' ⟨-, rfl⟩
  exact Notes.refl p'

/-- A node that reads no entry itself. -/
theorem NotesUses.cons {α : Type} {x : Expr} {xs : List Expr} {action : Linking α}
    (h : NotesUses n xs action p) (hx : x.entryUse? p.coding (p.spaceAt n).id = none) :
    NotesUses n (x :: xs) action p := by
  rw [NotesUses, Expr.entryUses, List.filterMap_cons_none hx]
  exact h

/-- A node that reads an entry, inside which nothing else is read. -/
theorem NotesUses.of_use {α : Type} {x : Expr} {xs : List Expr} {u : EntryUse}
    {action : Linking α} (h : Yields action p fun _ p' => Notes [u] p p')
    (hx : x.entryUse? p.coding (p.spaceAt n).id = some u)
    (hxs : Expr.entryUses p.coding (p.spaceAt n).id xs = []) : NotesUses n (x :: xs) action p := by
  have huses : Expr.entryUses p.coding (p.spaceAt n).id (x :: xs) = [u] := by
    rw [Expr.entryUses, List.filterMap_cons_some hx]
    exact congrArg (u :: ·) hxs
  rw [NotesUses, huses]
  exact h

theorem generateImported_notes (hp : p.Identified) (o : Nat) (r : ReferenceId)
    (m : Option SymbolId) (record : Option UsageId) :
    NotesUses n [.imported o r m record] (generateExpr n (.imported o r m record)) p := by
  simp only [NotesUses, generateExpr, yields_bind, yields_get]
  split
  · next space enum entry value hr =>
      have huse : p.coding.entryUse? r = some ⟨space, enum, entry, value⟩ := by
        simp only [Coding.entryUse?, coding, hr]
      exact NotesUses.of_use (yields_entryValue_notes hp space enum entry value) huse rfl
  · next hr =>
      have huse : p.coding.entryUse? r = none := by
        unfold Coding.entryUse?
        split
        · next space enum entry value hentry => exact absurd hentry (hr space enum entry value)
        · rfl
      refine NotesUses.cons ?_ huse
      rw [NotesUses, yields_bind]
      refine (yields_referenceValue r).mono ?_
      rintro i p' ⟨-, rfl⟩
      cases m with
      | none =>
          rw [yields_pure]
          exact Notes.refl p'
      | some s =>
          simp only [yields_bind, yields_get, yields_pure]
          exact Notes.refl p'

/-- Reading a member of a name of the standard library. -/
theorem stdRead?_eq_entryUse? (p : Program) (space : Text) (o : Nat) (x : Expr) (text : Text)
    (s : SymbolId) : (Expr.member o x text s none).entryUse? p.coding space =
      (p.stdRead? x).map fun e => ⟨e.1, e.2.1, e.2.2.1, e.2.2.2⟩ := by
  cases x with
  | name o text read =>
      cases read with
      | unbound => rfl
      | own s usage => rfl
      | std r record =>
          simp only [stdRead?, Expr.entryUse?, Coding.entryUse?, coding]
          cases (p.reference r).resolution <;> rfl
  | _ => rfl

theorem exists_name_of_stdRead? {x : Expr} {e : Text × Text × Text × Int64}
    (h : p.stdRead? x = some e) : ∃ o text read, x = .name o text read := by
  cases x with
  | name o text read => exact ⟨o, text, read, rfl⟩
  | _ => cases h

mutual

theorem generateExpr_notes (e : Expr) {p : Program} (hp : p.Identified)
    (hn : n < p.namespaces.size) (h : ∀ x ∈ e.nodes, x.Apt c) :
    NotesUses n e.nodes (generateExpr n e) p := by
  cases e with
  | number o v => exact notesUses_pure.cons rfl
  | string o v => exact notesUses_pure.cons rfl
  | bool o v => exact notesUses_pure.cons rfl
  | nil o => exact notesUses_pure.cons rfl
  | name o text read => exact (notesUses_nameValue read).cons rfl
  | imported o r m record => exact generateImported_notes hp o r m record
  | member o x text s entry =>
      cases entry with
      | some e =>
          -- The target is a name, which reads no entry by itself.
          obtain ⟨-, o', text', rfl⟩ := h _ List.mem_cons_self
          refine NotesUses.of_use (u := ⟨(p.spaceAt n).id, e.enum, e.entry, e.value⟩) ?_ rfl rfl
          simp only [generateExpr, yields_bind, yields_modify, yields_pure]
          exact notes_markEntryUsed hp hn e.enum e.entry e.value
      | none =>
          have huse := stdRead?_eq_entryUse? p (p.spaceAt n).id o x text s
          simp only [NotesUses, generateExpr, yields_bind, yields_get]
          cases hread : p.stdRead? x with
          | some found =>
              obtain ⟨space, enum, entry, value⟩ := found
              obtain ⟨o', text', read, rfl⟩ := exists_name_of_stdRead? hread
              rw [hread, Option.map_some] at huse
              exact NotesUses.of_use (yields_entryValue_notes hp space enum entry value) huse rfl
          | none =>
              rw [hread, Option.map_none] at huse
              have hx := generateExpr_notes x hp hn fun y hy => h y (List.mem_cons_of_mem _ hy)
              exact NotesUses.cons (hx.mapGet) huse
  | call o callee args =>
      have hcallee := generateExpr_notes callee hp hn fun x hx =>
        h x (List.mem_cons_of_mem _ (List.mem_append_left _ hx))
      refine NotesUses.cons (.bind hp hn hcallee ?_) rfl
      intro a p' hp' hn'
      have hargs := generateExprs_notes args hp' hn' fun x hx =>
        h x (List.mem_cons_of_mem _ (List.mem_append_right _ hx))
      exact hargs.map
  | syscall o text args =>
      have hargs := generateExprs_notes args hp hn fun x hx => h x (List.mem_cons_of_mem _ hx)
      exact NotesUses.cons (hargs.map) rfl
  | object o keys values =>
      have hvalues := generateExprs_notes values hp hn fun x hx => h x (List.mem_cons_of_mem _ hx)
      exact NotesUses.cons (hvalues.mapGet) rfl
  | binary o op a b =>
      have ha := generateExpr_notes a hp hn fun x hx =>
        h x (List.mem_cons_of_mem _ (List.mem_append_left _ hx))
      refine NotesUses.cons (.bind hp hn ha ?_) rfl
      intro i p' hp' hn'
      have hb := generateExpr_notes b hp' hn' fun x hx =>
        h x (List.mem_cons_of_mem _ (List.mem_append_right _ hx))
      exact hb.map
  | unary o op a =>
      have ha := generateExpr_notes a hp hn fun x hx => h x (List.mem_cons_of_mem _ hx)
      exact NotesUses.cons (ha.map) rfl

theorem generateExprs_notes (es : List Expr) {p : Program} (hp : p.Identified)
    (hn : n < p.namespaces.size) (h : ∀ x ∈ Expr.nodesOfAll es, x.Apt c) :
    NotesUses n (Expr.nodesOfAll es) (generateExprs n es) p := by
  cases es with
  | nil => exact notesUses_pure
  | cons e rest =>
      refine .bind hp hn (generateExpr_notes e hp hn fun x hx =>
        h x (List.mem_append_left _ hx)) ?_
      intro i p' hp' hn'
      have hrest := generateExprs_notes rest hp' hn' fun x hx => h x (List.mem_append_right _ hx)
      exact hrest.map

end

mutual

theorem generateStmt_notes (s : Stmt) {p : Program} (hp : p.Identified)
    (hn : n < p.namespaces.size) (h : ∀ x ∈ s.exprs, x.Apt c) :
    NotesUses n s.exprs (generateStmt n s) p := by
  cases s with
  | import_ o q path => exact notesUses_pure
  | enum o text es => exact notesUses_pure
  | retain o texts => exact notesUses_pure
  | let_ o text s value usage =>
      rw [Stmt.exprs_let] at h ⊢
      exact (generateExpr_notes value hp hn h).mapGet
  | fn o text s params bo body usage => exact (generateStmts_notes body hp hn h).mapGet
  | assign o text s value usage =>
      rw [Stmt.exprs_assign] at h ⊢
      exact (generateExpr_notes value hp hn h).mapGet
  | setMember o target s value =>
      rw [Stmt.exprs_setMember] at h ⊢
      refine .bind hp hn (generateExpr_notes target hp hn fun x hx =>
        h x (List.mem_append_left _ hx)) ?_
      intro i p' hp' hn'
      have hvalue := generateExpr_notes value hp' hn' fun x hx => h x (List.mem_append_right _ hx)
      exact hvalue.mapGet
  | return_ o value =>
      cases value with
      | none => exact notesUses_pure
      | some x =>
          rw [Stmt.exprs_return] at h ⊢
          have hx : NotesUses n x.nodes (generateReturn n (some x)) p :=
            (generateExpr_notes x hp hn h).map
          exact hx.map
  | if_ o condition b then_ else_ =>
      rw [Stmt.exprs_if] at h ⊢
      refine .bind hp hn (generateExpr_notes condition hp hn fun x hx =>
        h x (List.mem_append_left _ hx)) ?_
      intro i p₁ hp₁ hn₁
      refine .bind hp₁ hn₁ (generateStmts_notes then_ hp₁ hn₁ fun x hx =>
        h x (List.mem_append_right _ (List.mem_append_left _ hx))) ?_
      intro is p₂ hp₂ hn₂
      have helse := generateElse_notes else_ hp₂ hn₂ fun x hx =>
        h x (List.mem_append_right _ (List.mem_append_right _ hx))
      exact helse.map
  | block o body => exact (generateStmts_notes body hp hn h).map
  | expr x =>
      rw [Stmt.exprs_expr] at h ⊢
      exact (generateExpr_notes x hp hn h).map

theorem generateStmts_notes (ss : List Stmt) {p : Program} (hp : p.Identified)
    (hn : n < p.namespaces.size) (h : ∀ x ∈ Stmt.exprsOfAll ss, x.Apt c) :
    NotesUses n (Stmt.exprsOfAll ss) (generateStmts n ss) p := by
  cases ss with
  | nil => exact notesUses_pure
  | cons s rest =>
      rw [Stmt.exprsOfAll_cons] at h ⊢
      refine .bind hp hn (generateStmt_notes s hp hn fun x hx =>
        h x (List.mem_append_left _ hx)) ?_
      intro i p' hp' hn'
      have hrest := generateStmts_notes rest hp' hn' fun x hx => h x (List.mem_append_right _ hx)
      exact hrest.map

theorem generateElse_notes (e : Option Stmt) {p : Program} (hp : p.Identified)
    (hn : n < p.namespaces.size) (h : ∀ x ∈ Stmt.exprsOfElse e, x.Apt c) :
    NotesUses n (Stmt.exprsOfElse e) (generateElse n e) p := by
  cases e with
  | none => exact notesUses_pure
  | some s => exact (generateStmt_notes s hp hn h).map

end

end Program

end Splice

import Splice.Proofs.Action
import Splice.Proofs.Program.Files
import Splice.Proofs.Tree.Mention
import Mathlib.Data.List.TakeWhile

/-!
# What the parser reads

The tokens of a source stand at different offsets, and a parser takes the offset of
a name from the token it has just stepped over.  So the names of a tree stand at
different offsets too (`Parser.Reads.consumed`).  The symbols and references that
the parser makes up are those that the program makes when the declarations are
carried out (`Parser.State.program`), which ties every mention to the group or list
that it belongs to.
-/

namespace Splice

theorem lexFrom_nil (skip offset : Nat) :
    lexFrom skip offset [] = .ok [⟨.endOfFile, [], offset⟩] := by
  cases skip <;> rw [lexFrom]

theorem lexFrom_offsets (skip offset : Nat) (gs : List Glyph) (hgs : ∀ g ∈ gs, g.bytes ≠ [])
    {tokens : List Token} (h : lexFrom skip offset gs = .ok tokens) :
    (∀ t ∈ tokens, offset ≤ t.offset) ∧ (tokens.map Token.offset).Pairwise (· < ·) := by
  induction gs generalizing skip offset tokens with
  | nil =>
      cases (lexFrom_nil skip offset).symm.trans h
      simp
  | cons g rest ih =>
      have hrest : ∀ g ∈ rest, g.bytes ≠ [] := fun x hx => hgs x (List.mem_cons_of_mem g hx)
      have hpos : 0 < g.bytes.length := List.length_pos_iff.mpr (hgs g List.mem_cons_self)
      have hweaken : ∀ skip {ts}, lexFrom skip (offset + g.bytes.length) rest = .ok ts →
          (∀ t ∈ ts, offset ≤ t.offset) ∧ (ts.map Token.offset).Pairwise (· < ·) := by
        intro skip ts hts
        obtain ⟨hge, hpairwise⟩ := ih skip _ hrest hts
        refine ⟨fun t ht => ?_, hpairwise⟩
        have := hge t ht
        omega
      cases skip with
      | succ skip => exact hweaken skip h
      | zero =>
          rw [lexFrom] at h
          split at h
          · exact hweaken 0 h
          · split at h
            · exact hweaken _ h
            · split at h
              · cases h
              · next lexeme _ =>
                  cases hlex : lexFrom (lexeme.length - 1) (offset + g.bytes.length) rest with
                  | error e =>
                      rw [hlex] at h
                      cases h
                  | ok ts =>
                      rw [hlex] at h
                      cases h
                      obtain ⟨hge, hpairwise⟩ := ih _ _ hrest hlex
                      refine ⟨?_, ?_⟩
                      · intro t ht
                        rcases List.mem_cons.mp ht with rfl | ht
                        · exact le_rfl
                        · have := hge t ht
                          omega
                      · rw [List.map_cons, List.pairwise_cons]
                        refine ⟨?_, hpairwise⟩
                        intro o ho
                        obtain ⟨t, ht, rfl⟩ := List.mem_map.mp ho
                        have := hge t ht
                        change offset < t.offset
                        omega

/-- No two tokens of a source stand at the same offset. -/
theorem SourceUnit.nodup_tokens {u : SourceUnit} {tokens : List Token}
    (h : u.tokens = .ok tokens) : (tokens.map Token.offset).Nodup := by
  rw [SourceUnit.tokens] at h
  cases hlex : lexFrom 0 0 u.text.glyphs with
  | error e =>
      rw [hlex] at h
      cases h
  | ok ts =>
      rw [hlex] at h
      cases h
      exact (lexFrom_offsets 0 0 _
        (fun g hg => Text.bytes_ne_nil_of_mem_glyphsFrom hg) hlex).2.imp fun h => h.ne

/-- Only words are scanned as identifiers. -/
theorem Lexeme.isWord_of_scan {u : Text} {g : Glyph} {rest : List Glyph} {l : Lexeme}
    (hglyphs : ∀ x ∈ g :: rest, x ∈ u.glyphs) (h : Lexeme.scan g rest = .ok l)
    (hkind : l.kind = .identifier) : Text.IsWord l.text := by
  unfold Lexeme.scan at h
  split at h
  · cases h
    apply Text.isWord_ofGlyphs (t := u)
    · intro x hx
      exact hglyphs x ((List.takeWhile_sublist _).subset hx)
    · intro x hx
      exact List.mem_takeWhile_imp (p := fun y : Glyph => Text.isWord y.point) hx
  · have hsign : ∀ single double : TokenKind, single ≠ .identifier → double ≠ .identifier →
        (Lexeme.scanSign single double rest).kind ≠ .identifier := by
      intro single double hsingle hdouble
      unfold Lexeme.scanSign
      split
      · exact hdouble
      · exact hsingle
    exfalso
    split at h
    · unfold Lexeme.scanNumber at h
      dsimp only at h
      split at h
      · cases h
      · split at h
        · cases h
          cases hkind
        · cases h
    · split at h
      · unfold Lexeme.scanString at h
        split at h
        · cases h
        · split at h
          · cases h
          · cases h
            cases hkind
      · split at h
        · cases h
          exact hsign .assign .equal (by decide) (by decide) hkind
        · split at h
          · cases h
            exact hsign .not .notEqual (by decide) (by decide) hkind
          · split at h
            · next kind hfind =>
                cases h
                have hmem := List.mem_of_find?_eq_some hfind
                rw [show kind = .identifier from hkind] at hmem
                exact absurd hmem (by decide)
            · cases h

theorem lexFrom_words {u : Text} (skip offset : Nat) (gs : List Glyph)
    (hgs : ∀ g ∈ gs, g ∈ u.glyphs) {tokens : List Token} (h : lexFrom skip offset gs = .ok tokens) :
    ∀ t ∈ tokens, t.kind = .identifier → Text.IsWord t.text := by
  induction gs generalizing skip offset tokens with
  | nil =>
      cases (lexFrom_nil skip offset).symm.trans h
      simp
  | cons g rest ih =>
      have hrest : ∀ x ∈ rest, x ∈ u.glyphs := fun x hx => hgs x (List.mem_cons_of_mem g hx)
      cases skip with
      | succ skip => exact ih skip _ hrest h
      | zero =>
          rw [lexFrom] at h
          split at h
          · exact ih 0 _ hrest h
          · split at h
            · exact ih _ _ hrest h
            · split at h
              · cases h
              · next lexeme hscan =>
                  cases hlex : lexFrom (lexeme.length - 1) (offset + g.bytes.length) rest with
                  | error e =>
                      rw [hlex] at h
                      cases h
                  | ok ts =>
                      rw [hlex] at h
                      cases h
                      intro t ht hkind
                      rcases List.mem_cons.mp ht with rfl | ht
                      · exact Lexeme.isWord_of_scan hgs hscan hkind
                      · exact ih _ _ hrest hlex t ht hkind

/-- The identifiers of a source are words. -/
theorem SourceUnit.isWord_of_mem_tokens {u : SourceUnit} {tokens : List Token}
    (h : u.tokens = .ok tokens) : ∀ t ∈ tokens, t.kind = .identifier → Text.IsWord t.text := by
  rw [SourceUnit.tokens] at h
  cases hlex : lexFrom 0 0 u.text.glyphs with
  | error e =>
      rw [hlex] at h
      cases h
  | ok ts =>
      rw [hlex] at h
      cases h
      exact lexFrom_words 0 0 _ (fun _ hg => hg) hlex

/-! ## Mentions of names that exist -/

/-- What a mention refers to belongs to the namespace: a symbol to the group of its
name, and a reference to the references of the namespace. -/
def Mention.Valid (p : Program) (n : NamespaceId) : Mention → Prop
  | name _ text (.own s _) => s ∈ p.symbolsOf n text
  | name _ text (.std r _) =>
      r ∈ (p.spaceAt n).references ∧ r < p.references.size ∧
        (p.reference r).qualifier = [] ∧ (p.reference r).name = text
  | name _ _ .unbound => True
  | imported _ r _ => r ∈ (p.spaceAt n).references ∧ r < p.references.size
  | property s => ∃ text, s ∈ p.properties.members text
  | binding text s => s ∈ p.symbolsOf n text

theorem Mention.Valid.mono {p p' : Program} {n : NamespaceId} {m : Mention}
    (h : m.Valid p n) (hgrows : p.Grows p') : m.Valid p' n := by
  cases m with
  | name o text read =>
      cases read with
      | unbound => trivial
      | own s usage => exact hgrows.symbols n text h
      | std r record =>
          obtain ⟨hmem, hlt, hqualifier, hname⟩ := h
          have hnamed := hgrows.named r hlt
          exact ⟨hgrows.references n hmem, hlt.trans_le hgrows.references_le,
            hnamed.1.trans hqualifier, hnamed.2.trans hname⟩
  | imported o r record => exact ⟨hgrows.references n h.1, h.2.trans_le hgrows.references_le⟩
  | property s =>
      obtain ⟨text, hs⟩ := h
      exact ⟨text, hgrows.properties text hs⟩
  | binding text s => exact hgrows.symbols n text h

/-- A mention as the parser makes it: no name is bound yet. -/
def Mention.Parsed : Mention → Prop
  | name _ _ read => read = .unbound
  | imported _ _ record => record = none
  | _ => True

namespace Parser

/-- The program after the declarations that a parser has made. -/
def State.program (p : Program) (n : NamespaceId) (s : State) : Program :=
  p.enact n s.declared.reverse

/-- The numbers that a parser gives out next are those of the program. -/
structure Synced (p : Program) (n : NamespaceId) (s : State) : Prop where
  symbol : s.nextSymbol = (s.program p n).symbols.size
  reference : s.nextReference = (s.program p n).references.size

/-- The references that were declared lead through aliases that are declared too. -/
def Aliased (s : State) : Prop :=
  ∀ qualifier name member offset,
    .reference qualifier name member offset ∈ s.declared → qualifier ∈ s.aliases

/-- What the parser and the program know of a file agrees, and the file is tidy. -/
structure Tidied (p : Program) (n : NamespaceId) (s : State) : Prop where
  aliased : Aliased s
  aliases : ∀ a, a ∈ s.aliases ↔ a ∈ ((s.program p n).spaceAt n).aliases
  enums : ∀ e, e ∈ s.enums ↔ e ∈ ((s.program p n).spaceAt n).enums.map Enumeration.name
  tidy : ((s.program p n).spaceAt n).Tidy

/-- On the way from one state to another the parser reads some mentions.  They take
their offsets from the tokens in between, and what they refer to is there. -/
structure Reads (p : Program) (n : NamespaceId) (s s' : State) (new : List Mention) : Prop where
  consumed : ∃ used, s.rest = used ++ s'.rest ∧
    (new.filterMap Mention.offset?).Sublist (used.map Token.offset)
  adds : (s.program p n).Adds n (s'.program p n)
  synced : Synced p n s'
  valid : ∀ m ∈ new, m.Valid (s'.program p n) n ∧ m.Parsed
  tidied : (p.spaceAt n).Tidy → Tidied p n s'

section

variable {p : Program} {n : NamespaceId} {s s' s'' : State} {a b : List Mention}

structure Good (p : Program) (n : NamespaceId) (s : State) : Prop where
  pristine : (s.program p n).Pristine
  lt : n < (s.program p n).namespaces.size
  synced : Synced p n s
  words : ∀ t ∈ s.rest, t.kind = .identifier → Text.IsWord t.text
  tidied : (p.spaceAt n).Tidy → Tidied p n s

theorem Reads.good (h : Reads p n s s' a) (hs : Good p n s) : Good p n s' where
  pristine := h.adds.pristine
  lt := hs.lt.trans_le h.adds.grows.spaces_le
  synced := h.synced
  words t ht := by
    obtain ⟨used, hrest, -⟩ := h.consumed
    apply hs.words t
    rw [hrest]
    exact List.mem_append_right _ ht
  tidied := h.tidied

theorem Reads.trans (h : Reads p n s s' a) (h' : Reads p n s' s'' b) :
    Reads p n s s'' (a ++ b) where
  consumed := by
    obtain ⟨used, hrest, hsub⟩ := h.consumed
    obtain ⟨used', hrest', hsub'⟩ := h'.consumed
    refine ⟨used ++ used', ?_, ?_⟩
    · rw [hrest, hrest', List.append_assoc]
    · rw [List.filterMap_append, List.map_append]
      exact hsub.append hsub'
  adds := h.adds.trans h'.adds
  synced := h'.synced
  valid m hm := by
    rcases List.mem_append.mp hm with hm | hm
    · exact ⟨(h.valid m hm).1.mono h'.adds.grows, (h.valid m hm).2⟩
    · exact h'.valid m hm
  tidied := h'.tidied

/-- Some of the mentions may be left out. -/
theorem Reads.subset (h : Reads p n s s' a) (hmem : b ⊆ a)
    (hoffsets : (b.filterMap Mention.offset?).Sublist (a.filterMap Mention.offset?)) :
    Reads p n s s' b where
  consumed := by
    obtain ⟨used, hrest, hsub⟩ := h.consumed
    exact ⟨used, hrest, hoffsets.trans hsub⟩
  adds := h.adds
  synced := h.synced
  valid m hm := h.valid m (hmem hm)
  tidied := h.tidied

/-- Mentions of what is there by the end, without offsets of their own. -/
theorem Reads.append_inert (h : Reads p n s s' a) {inert : List Mention}
    (hinert : ∀ m ∈ inert, m.offset? = none ∧ m.Valid (s'.program p n) n ∧ m.Parsed) :
    Reads p n s s' (a ++ inert) where
  consumed := by
    obtain ⟨used, hrest, hsub⟩ := h.consumed
    have hnil : inert.filterMap Mention.offset? = [] :=
      List.filterMap_eq_nil_iff.mpr fun m hm => (hinert m hm).1
    exact ⟨used, hrest, by simpa [hnil] using hsub⟩
  adds := h.adds
  synced := h.synced
  valid m hm := by
    rcases List.mem_append.mp hm with hm | hm
    · exact h.valid m hm
    · exact (hinert m hm).2
  tidied := h.tidied

theorem Reads.snoc (h : Reads p n s s' a) {m : Mention} (hoffset : m.offset? = none)
    (hvalid : m.Valid (s'.program p n) n) (hparsed : m.Parsed) :
    Reads p n s s' (a ++ [m]) := by
  apply h.append_inert
  intro x hx
  rw [List.mem_singleton.mp hx]
  exact ⟨hoffset, hvalid, hparsed⟩

/-- Stepping over tokens. -/
theorem Good.moved (hs : Good p n s) (used : List Token) {rest : List Token}
    (h : s.rest = used ++ rest) :
    Reads p n s { s with rest } [] where
  consumed := ⟨used, h, by simp⟩
  adds := Program.Adds.refl hs.pristine
  synced := ⟨hs.synced.symbol, hs.synced.reference⟩
  valid := by simp
  tidied hp := by
    have ht := hs.tidied hp
    exact ⟨ht.aliased, ht.aliases, ht.enums, ht.tidy⟩

theorem Good.stay (hs : Good p n s) : Reads p n s s [] := hs.moved [] rfl

/-- A mention that takes its offset from the token in front. -/
theorem Reads.cons_token {t : Token} {rest : List Token} (hrest : s.rest = t :: rest)
    (h : Reads p n { s with rest } s' a) {m : Mention} (hoffset : m.offset? = some t.offset)
    (hvalid : m.Valid (s'.program p n) n) (hparsed : m.Parsed) :
    Reads p n s s' (m :: a) where
  consumed := by
    obtain ⟨used, hused, hsub⟩ := h.consumed
    refine ⟨t :: used, ?_, ?_⟩
    · rw [hrest, List.cons_append]
      exact congrArg _ hused
    · rw [List.filterMap_cons_some hoffset, List.map_cons]
      exact hsub.cons_cons t.offset
  adds := h.adds
  synced := h.synced
  valid x hx := by
    rcases List.mem_cons.mp hx with rfl | hx
    · exact ⟨hvalid, hparsed⟩
    · exact h.valid x hx
  tidied := h.tidied

theorem program_declare {d : Declaration} (h : s'.declared = d :: s.declared) :
    s'.program p n = Program.enactOne n (s.program p n) d := by
  simp only [State.program, h, List.reverse_cons]
  exact Program.enact_append p n _ [d]

@[simp] theorem yields_peekAt (i : Nat) {post : Token → State → Prop} :
    Yields (peekAt i) s post ↔ post (s.peekAt i) s := by
  simp only [peekAt, yields_bind, yields_get, yields_pure]

@[simp] theorem yields_peek {post : Token → State → Prop} :
    Yields peek s post ↔ post (s.peekAt 0) s :=
  yields_peekAt 0

@[simp] theorem yields_skip {post : Unit → State → Prop} :
    Yields skip s post ↔ post () { s with rest := s.rest.tail } := by
  simp [skip]

@[simp] theorem yields_failAt {α : Type} (t : Token) (message : Text)
    {post : α → State → Prop} : Yields (failAt t message : Parser α) s post := by
  simp [failAt]

theorem Good.skip (hs : Good p n s) : Reads p n s { s with rest := s.rest.tail } [] := by
  cases hrest : s.rest with
  | nil => exact hs.moved [] (by simp [hrest])
  | cons t rest => exact hs.moved [t] (by simp [hrest])

theorem yields_accept (hs : Good p n s) (kind : TokenKind) :
    Yields (accept kind) s fun _ s' => Reads p n s s' [] := by
  simp only [accept, yields_bind, yields_peek]
  split
  · simpa only [yields_bind, yields_skip, yields_pure] using hs.skip
  · simpa only [yields_pure] using hs.stay

theorem yields_advance (hs : Good p n s) :
    Yields advance s fun _ s' => Reads p n s s' [] := by
  simpa only [advance, yields_bind, yields_peek, yields_skip, yields_pure] using hs.skip

theorem yields_expect (hs : Good p n s) (kind : TokenKind) :
    Yields (expect kind) s fun _ s' => Reads p n s s' [] := by
  simp only [expect, yields_bind, yields_peek]
  split
  · exact yields_advance hs
  · simp

theorem yields_skipSemicolons (hs : Good p n s) :
    Yields skipSemicolons s fun _ s' => Reads p n s s' [] := by
  simp only [skipSemicolons, yields_modify]
  exact hs.moved (s.rest.takeWhile (·.kind == .semicolon))
    List.takeWhile_append_dropWhile.symm

/-- A declaration, with the numbers moved on as the program moves on. -/
theorem Good.declare (hs : Good p n s) (d : Declaration) {s' : State}
    (hrest : s'.rest = s.rest) (hdeclared : s'.declared = d :: s.declared)
    (hsymbol : s'.nextSymbol = (Program.enactOne n (s.program p n) d).symbols.size)
    (hreference : s'.nextReference = (Program.enactOne n (s.program p n) d).references.size)
    (htidied : (p.spaceAt n).Tidy → Tidied p n s') : Reads p n s s' [] := by
  have hprogram : s'.program p n = Program.enactOne n (s.program p n) d :=
    program_declare hdeclared
  constructor
  · exact ⟨[], by simp [hrest], by simp⟩
  · rw [hprogram]
    exact Program.adds_enactOne hs.pristine d
  · exact ⟨by rw [hprogram]; exact hsymbol, by rw [hprogram]; exact hreference⟩
  · simp
  · exact htidied

theorem Aliased.declare (h : Aliased s) {d : Declaration} (haliases : s.aliases ⊆ s'.aliases)
    (hdeclared : s'.declared = d :: s.declared)
    (hd : ∀ qualifier name member offset, d = .reference qualifier name member offset →
      qualifier ∈ s.aliases) : Aliased s' := by
  intro qualifier name member offset hmem
  apply haliases
  rw [hdeclared] at hmem
  rcases List.mem_cons.mp hmem with hnew | hold
  · exact hd qualifier name member offset hnew.symm
  · exact h qualifier name member offset hold

/-- Declarations of names leave the file as it is. -/
theorem Tidied.declare (h : Tidied p n s) {d : Declaration} (haliases : s'.aliases = s.aliases)
    (henums : s'.enums = s.enums) (hdeclared : s'.declared = d :: s.declared)
    (hd : ∀ qualifier name member offset, d = .reference qualifier name member offset →
      qualifier ∈ s.aliases)
    (hsame : (s.program p n).SameFiles (Program.enactOne n (s.program p n) d)) :
    Tidied p n s' := by
  rw [← program_declare hdeclared] at hsame
  have hspace := hsame.part Namespace.aliases (fun _ => rfl) n
  constructor
  · exact h.aliased.declare (by rw [haliases]; exact List.Subset.refl _) hdeclared hd
  · intro a
    rw [haliases, hspace]
    exact h.aliases a
  · intro e
    rw [henums, hsame.enums]
    exact h.enums e
  · exact h.tidy.of_content (hsame.content n)

theorem yields_newSymbol (hs : Good p n s) (text : Text) :
    Yields (newSymbol text) s fun sym s' =>
      Reads p n s s' [] ∧ sym ∈ (s'.program p n).symbolsOf n text := by
  simp only [newSymbol, yields_bind, yields_get, yields_set, yields_pure]
  refine ⟨hs.declare (.symbol text) rfl rfl ?_ ?_ ?_, ?_⟩
  · rw [hs.synced.symbol]
    simp [Program.enactOne, Program.addSymbol]
  · rw [hs.synced.reference]
    simp [Program.enactOne, Program.addSymbol]
  · exact fun h => (hs.tidied h).declare rfl rfl rfl (by simp)
      (Program.sameFiles_addSymbol _ n text)
  · rw [program_declare (s := s) (d := .symbol text) rfl, hs.synced.symbol]
    exact Program.mem_symbolsOf_addSymbol hs.lt text

theorem yields_newProperty (hs : Good p n s) (text : Text) :
    Yields (newProperty text) s fun sym s' =>
      Reads p n s s' [] ∧ sym ∈ (s'.program p n).properties.members text ∧
        s'.aliases = s.aliases := by
  simp only [newProperty, yields_bind, yields_get, yields_set, yields_pure]
  refine ⟨hs.declare (.property text) rfl rfl ?_ ?_ ?_, ?_, trivial⟩
  · rw [hs.synced.symbol]
    simp [Program.enactOne, Program.addProperty]
  · rw [hs.synced.reference]
    rfl
  · exact fun h => (hs.tidied h).declare rfl rfl rfl (by simp)
      (Program.sameFiles_addProperty _ text)
  · rw [program_declare (s := s) (d := .property text) rfl, hs.synced.symbol]
    exact Program.mem_members_addProperty _ text

theorem yields_newReference (hs : Good p n s) {qualifier : Text}
    (hqualifier : qualifier ∈ s.aliases) (text member : Text) (offset : Nat) :
    Yields (newReference qualifier text member offset) s fun r s' =>
      Reads p n s s' [] ∧ r ∈ ((s'.program p n).spaceAt n).references ∧
        r < (s'.program p n).references.size := by
  simp only [newReference, yields_bind, yields_get, yields_set, yields_pure]
  have hreads : Reads p n s
      { s with
        nextReference := s.nextReference + 1
        declared := .reference qualifier text member offset :: s.declared } [] := by
    refine hs.declare (.reference qualifier text member offset) rfl rfl ?_ ?_ ?_
    · rw [hs.synced.symbol]
      rfl
    · rw [hs.synced.reference]
      simp [Program.enactOne, Program.addReference]
    · exact fun h => (hs.tidied h).declare rfl rfl rfl
        (fun _ _ _ _ hd => by cases hd; exact hqualifier)
        (Program.sameFiles_addReference _ n qualifier text member offset)
  have hmem : s.nextReference ∈ ((State.program p n
      { s with
        nextReference := s.nextReference + 1
        declared := .reference qualifier text member offset :: s.declared }).spaceAt
          n).references := by
    rw [program_declare (s := s) (d := .reference qualifier text member offset) rfl,
      hs.synced.reference]
    exact Program.mem_addReference hs.lt qualifier text member offset
  exact ⟨hreads, hmem, hreads.adds.pristine.reference_lt n _ hmem⟩

/-! ## Expressions -/

theorem yields_importedName (hs : Good p n s) {t : Token} {rest : List Token}
    (hrest : s.rest = t :: rest) (halias : t.text ∈ s.aliases) :
    Yields importedName s fun e s' => Reads p n s s' e.mentions := by
  have hpeek : s.peekAt 0 = t := by simp [State.peekAt, hrest]
  have hfirst : Good p n { s with rest } := (hs.moved [t] hrest).good hs
  have hskip := hfirst.skip
  unfold importedName
  simp only [yields_bind]
  simp only [advance, yields_bind, yields_peek, yields_skip, yields_pure, hpeek]
  have hname := (hskip.good hfirst).skip
  have hthree := hskip.trans hname
  have hgood := hthree.good hfirst
  simp only [hrest, List.tail_cons]
  simp only [yields_peekAt]
  split
  · simp only [yields_bind, yields_skip, yields_peek, yields_pure]
    have hdot := hgood.skip
    have hmember := (hdot.good hgood).skip
    have hfive := (hthree.trans hdot).trans hmember
    refine (yields_newProperty (hfive.good hfirst) _).mono ?_
    rintro property s' ⟨hproperty, hpropertyMem, haliases⟩
    have hsix := hfive.trans hproperty
    have halias' : t.text ∈ s'.aliases := by
      rw [haliases]
      exact halias
    refine (yields_newReference (hsix.good hfirst) halias' _ _ _).mono ?_
    rintro r s'' ⟨hreference, hmem, hlt⟩
    have hall := (hsix.trans hreference).cons_token hrest
      (m := .imported t.offset r none) rfl ⟨hmem, hlt⟩ rfl
    exact hall.snoc (m := .property property) rfl
      ⟨_, hreference.adds.grows.properties _ hpropertyMem⟩ trivial
  · simp only [yields_bind, yields_pure]
    refine (yields_newReference hgood halias _ _ _).mono ?_
    rintro r s' ⟨hreference, hmem, hlt⟩
    exact (hthree.trans hreference).cons_token hrest
      (m := .imported t.offset r none) rfl ⟨hmem, hlt⟩ rfl

/-- What the mutually recursive parsers of expressions read, for some fuel.  A parser
that is handed what was read before it adds to that at the end. -/
structure ExprSpec (p : Program) (n : NamespaceId) (fuel : Nat) : Prop where
  binary : ∀ level s, Good p n s →
    Yields (binary fuel level) s fun e s' => Reads p n s s' e.mentions
  binaryRest : ∀ level left s, Good p n s →
    Yields (binaryRest fuel level left) s fun e s' =>
      ∃ new, e.mentions = left.mentions ++ new ∧ Reads p n s s' new
  unary : ∀ s, Good p n s → Yields (unary fuel) s fun e s' => Reads p n s s' e.mentions
  postfixed : ∀ x s, Good p n s →
    Yields (postfixed fuel x) s fun e s' =>
      ∃ new, e.mentions = x.mentions ++ new ∧ Reads p n s s' new
  args : ∀ seen s, Good p n s →
    Yields (args fuel seen) s fun es s' =>
      ∃ new, Expr.mentionsOfAll es = Expr.mentionsOfAll seen ++ new ∧ Reads p n s s' new
  primary : ∀ s, Good p n s → Yields (primary fuel) s fun e s' => Reads p n s s' e.mentions
  fields : ∀ keys values s, Good p n s →
    (∀ k ∈ keys, ∃ text, k ∈ (s.program p n).properties.members text) →
    Yields (fields fuel keys values) s fun r s' =>
      ∃ new, Expr.mentionsOfAll r.2 = Expr.mentionsOfAll values ++ new ∧ Reads p n s s' new ∧
        ∀ k ∈ r.1, ∃ text, k ∈ (s'.program p n).properties.members text

theorem mentionsOfAll_append (a b : List Expr) :
    Expr.mentionsOfAll (a ++ b) = Expr.mentionsOfAll a ++ Expr.mentionsOfAll b := by
  induction a with
  | nil => rfl
  | cons e rest ih => simp [Expr.mentionsOfAll, ih]

theorem exprSpec_zero : ExprSpec p n 0 := by
  constructor <;> intros <;>
    simp only [Parser.binary, Parser.binaryRest, Parser.unary, Parser.postfixed, Parser.args,
      Parser.primary, Parser.fields, yields_bind, yields_peek, yields_failAt]

variable {fuel : Nat}

theorem ExprSpec.binary_succ (h : ExprSpec p n fuel) (level : Nat) (hs : Good p n s) :
    Yields (Parser.binary (fuel + 1) level) s fun e s' => Reads p n s s' e.mentions := by
  rw [Parser.binary]
  split
  · exact h.unary s hs
  · rw [yields_bind]
    refine (h.binary (level + 1) s hs).mono ?_
    intro left s' hleft
    refine (h.binaryRest level left s' (hleft.good hs)).mono ?_
    rintro e s'' ⟨new, hmentions, hrest⟩
    rw [hmentions]
    exact hleft.trans hrest

theorem ExprSpec.binaryRest_succ (h : ExprSpec p n fuel) (level : Nat) (left : Expr)
    (hs : Good p n s) :
    Yields (Parser.binaryRest (fuel + 1) level left) s fun e s' =>
      ∃ new, e.mentions = left.mentions ++ new ∧ Reads p n s s' new := by
  rw [Parser.binaryRest]
  simp only [nextOperator?, yields_bind, yields_peek]
  have hdone : ∃ new, left.mentions = left.mentions ++ new ∧ Reads p n s s new :=
    ⟨[], by simp, hs.stay⟩
  split
  · next op _ =>
      simp only [yields_pure]
      split
      · simpa only [yields_pure] using hdone
      · simp only [yields_bind]
        refine (yields_advance hs).mono ?_
        intro sign s' hsign
        refine (h.binary (level + 1) s' (hsign.good hs)).mono ?_
        intro right s'' hright
        have hboth := hsign.trans hright
        refine (h.binaryRest level _ s'' (hboth.good hs)).mono ?_
        rintro e s₃ ⟨new, hmentions, hrest⟩
        refine ⟨right.mentions ++ new, ?_, hboth.trans hrest⟩
        rw [hmentions, Expr.mentions, List.append_assoc]
  · simp only [yields_pure]
    exact hdone

theorem ExprSpec.unary_succ (h : ExprSpec p n fuel) (hs : Good p n s) :
    Yields (Parser.unary (fuel + 1)) s fun e s' => Reads p n s s' e.mentions := by
  rw [Parser.unary]
  simp only [yields_bind, yields_peek]
  split
  · simp only [yields_bind, yields_pure]
    refine (yields_advance hs).mono ?_
    intro sign s' hsign
    refine (h.unary s' (hsign.good hs)).mono ?_
    intro x s'' hx
    exact hsign.trans hx
  · simp only [yields_bind]
    refine (h.primary s hs).mono ?_
    intro x s' hx
    refine (h.postfixed x s' (hx.good hs)).mono ?_
    rintro e s'' ⟨new, hmentions, hrest⟩
    rw [hmentions]
    exact hx.trans hrest

theorem ExprSpec.postfixed_succ (h : ExprSpec p n fuel) (x : Expr) (hs : Good p n s) :
    Yields (Parser.postfixed (fuel + 1) x) s fun e s' =>
      ∃ new, e.mentions = x.mentions ++ new ∧ Reads p n s s' new := by
  rw [Parser.postfixed]
  simp only [yields_bind, yields_peek]
  split
  · simp only [yields_bind, yields_skip]
    have hdot := hs.skip
    refine (yields_expect (hdot.good hs) _).mono ?_
    intro name s₁ hname
    have htwo := hdot.trans hname
    refine (yields_newProperty (htwo.good hs) _).mono ?_
    rintro property s₂ ⟨hproperty, hmem, -⟩
    have hthree := htwo.trans hproperty
    have hmember := hthree.snoc (m := .property property) rfl ⟨_, hmem⟩ trivial
    refine (h.postfixed _ s₂ (hthree.good hs)).mono ?_
    rintro e s₃ ⟨new, hmentions, hrest⟩
    refine ⟨[.property property] ++ new, ?_, hmember.trans hrest⟩
    rw [hmentions, Expr.mentions, List.append_assoc]
  · simp only [yields_bind]
    refine (yields_advance hs).mono ?_
    intro paren s₁ hparen
    refine (h.args [] s₁ (hparen.good hs)).mono ?_
    rintro args s₂ ⟨new, hargs, hreads⟩
    have hcall := hparen.trans hreads
    refine (h.postfixed _ s₂ (hcall.good hs)).mono ?_
    rintro e s₃ ⟨more, hmentions, hrest⟩
    refine ⟨new ++ more, ?_, hcall.trans hrest⟩
    rw [hmentions, Expr.mentions, hargs, Expr.mentionsOfAll, List.nil_append, List.append_assoc]
  · simp only [yields_pure]
    exact ⟨[], by simp, hs.stay⟩

theorem ExprSpec.args_succ (h : ExprSpec p n fuel) (seen : List Expr) (hs : Good p n s) :
    Yields (Parser.args (fuel + 1) seen) s fun es s' =>
      ∃ new, Expr.mentionsOfAll es = Expr.mentionsOfAll seen ++ new ∧ Reads p n s s' new := by
  have hnext : ∀ s₁, Reads p n s s₁ [] →
      Yields (do let arg ← Parser.binary fuel 0; Parser.args fuel (seen ++ [arg])) s₁
        fun es s' => ∃ new, Expr.mentionsOfAll es = Expr.mentionsOfAll seen ++ new ∧
          Reads p n s s' new := by
    intro s₁ h₁
    rw [yields_bind]
    refine (h.binary 0 s₁ (h₁.good hs)).mono ?_
    intro arg s₂ harg
    have htwo := h₁.trans harg
    refine (h.args _ s₂ (htwo.good hs)).mono ?_
    rintro es s₃ ⟨new, hmentions, hrest⟩
    refine ⟨arg.mentions ++ new, ?_, htwo.trans hrest⟩
    simp [hmentions, mentionsOfAll_append, Expr.mentionsOfAll]
  rw [Parser.args]
  simp only [yields_bind]
  refine (yields_accept hs _).mono ?_
  intro closed s₁ h₁
  split
  · simp only [yields_pure]
    exact ⟨[], by simp, h₁⟩
  · split
    · simp only [yields_bind]
      refine (yields_expect (h₁.good hs) _).mono ?_
      intro comma s₂ hcomma
      simpa only [yields_bind] using hnext s₂ (h₁.trans hcomma)
    · simpa only [yields_bind] using hnext s₁ h₁

theorem ExprSpec.fields_succ (h : ExprSpec p n fuel) (keys : List SymbolId)
    (values : List Expr) (hs : Good p n s)
    (hkeys : ∀ k ∈ keys, ∃ text, k ∈ (s.program p n).properties.members text) :
    Yields (Parser.fields (fuel + 1) keys values) s fun r s' =>
      ∃ new, Expr.mentionsOfAll r.2 = Expr.mentionsOfAll values ++ new ∧ Reads p n s s' new ∧
        ∀ k ∈ r.1, ∃ text, k ∈ (s'.program p n).properties.members text := by
  have hlater : ∀ {s' : State} {new : List Mention}, Reads p n s s' new →
      ∀ k ∈ keys, ∃ text, k ∈ (s'.program p n).properties.members text := by
    intro s' new hreads k hk
    obtain ⟨text, hmem⟩ := hkeys k hk
    exact ⟨text, hreads.adds.grows.properties text hmem⟩
  rw [Parser.fields]
  simp only [yields_bind]
  refine (yields_accept hs _).mono ?_
  intro closed s₁ h₁
  split
  · simp only [yields_pure]
    exact ⟨[], by simp, h₁, hlater h₁⟩
  · simp only [yields_bind]
    refine (yields_expect (h₁.good hs) _).mono ?_
    intro key s₂ hkey
    have htwo := h₁.trans hkey
    refine (yields_expect (htwo.good hs) _).mono ?_
    intro colon s₃ hcolon
    have hthree := htwo.trans hcolon
    refine (h.binary 0 s₃ (hthree.good hs)).mono ?_
    intro value s₄ hvalue
    have hfour := hthree.trans hvalue
    refine (yields_newProperty (hfour.good hs) _).mono ?_
    rintro property s₅ ⟨hproperty, hmem, -⟩
    have hfive := hfour.trans hproperty
    refine (yields_accept (hfive.good hs) _).mono ?_
    intro comma s₆ hcomma
    have hsix := hfive.trans hcomma
    have hkeys' : ∀ k ∈ keys ++ [property],
        ∃ text, k ∈ (s₆.program p n).properties.members text := by
      intro k hk
      rcases List.mem_append.mp hk with hold | hnew
      · exact hlater hsix k hold
      · rw [List.mem_singleton.mp hnew]
        exact ⟨_, hcomma.adds.grows.properties _ hmem⟩
    refine (h.fields _ _ s₆ (hsix.good hs) hkeys').mono ?_
    rintro r s₇ ⟨new, hmentions, hrest, hvalid⟩
    refine ⟨value.mentions ++ new, ?_, by simpa using hsix.trans hrest, hvalid⟩
    simp [hmentions, mentionsOfAll_append, Expr.mentionsOfAll]

theorem exists_rest_of_kind (h : (s.peekAt 0).kind ≠ .endOfFile) :
    ∃ rest, s.rest = s.peekAt 0 :: rest := by
  cases hrest : s.rest with
  | nil => simp [State.peekAt, hrest] at h
  | cons t rest => exact ⟨rest, by simp [State.peekAt, hrest]⟩

theorem ExprSpec.primary_succ (h : ExprSpec p n fuel) (hs : Good p n s) :
    Yields (Parser.primary (fuel + 1)) s fun e s' => Reads p n s s' e.mentions := by
  have hleaf : ∀ e : Expr, e.mentions = [] →
      Yields (do skip; pure e : Parser Expr) s fun e s' => Reads p n s s' e.mentions := by
    intro e he
    simp only [yields_bind, yields_skip, yields_pure, he]
    exact hs.skip
  rw [Parser.primary]
  simp only [yields_bind, yields_peek]
  split
  · exact hleaf _ rfl
  · exact hleaf _ rfl
  · exact hleaf _ rfl
  · exact hleaf _ rfl
  · exact hleaf _ rfl
  · next hkind =>
      obtain ⟨rest, hrest⟩ := exists_rest_of_kind (s := s) (by simp [hkind])
      simp only [startsImported, yields_bind, yields_get, yields_pure]
      split
      · next himported =>
          simp only [Bool.and_eq_true, List.contains_iff_mem] at himported
          exact yields_importedName hs hrest himported.2
      · simp only [yields_bind, yields_skip, yields_pure]
        have hstay := ((hs.moved [s.peekAt 0] hrest).good hs).stay
        have hread := hstay.cons_token hrest
          (m := .name (s.peekAt 0).offset (s.peekAt 0).text .unbound) rfl trivial rfl
        rw [show s.rest.tail = rest by rw [hrest]; rfl]
        exact hread
  · simp only [yields_bind, yields_skip, yields_pure]
    have hdollar := hs.skip
    refine (yields_expect (hdollar.good hs) _).mono ?_
    intro name s₁ hname
    have htwo := hdollar.trans hname
    refine (yields_expect (htwo.good hs) _).mono ?_
    intro paren s₂ hparen
    have hthree := htwo.trans hparen
    refine (h.args [] s₂ (hthree.good hs)).mono ?_
    rintro args s₃ ⟨new, hmentions, hargs⟩
    rw [Expr.mentions, hmentions]
    exact hthree.trans hargs
  · simp only [yields_bind, yields_skip, yields_pure]
    have hparen := hs.skip
    refine (h.binary 0 _ (hparen.good hs)).mono ?_
    intro x s₁ hx
    have htwo := hparen.trans hx
    refine (yields_expect (htwo.good hs) _).mono ?_
    intro close s₂ hclose
    simpa using htwo.trans hclose
  · simp only [yields_bind, yields_skip, yields_pure]
    have hbrace := hs.skip
    refine (h.fields [] [] _ (hbrace.good hs) (by simp)).mono ?_
    rintro r s₁ ⟨new, hmentions, hfields, hkeys⟩
    rw [Expr.mentions, hmentions]
    apply (hbrace.trans hfields).append_inert
    intro m hm
    obtain ⟨k, hk, rfl⟩ := List.mem_map.mp hm
    exact ⟨rfl, hkeys k hk, trivial⟩
  · simp

/-- Every expression that is parsed mentions what the parser has read. -/
theorem exprSpec (fuel : Nat) : ExprSpec p n fuel := by
  induction fuel with
  | zero => exact exprSpec_zero
  | succ fuel ih =>
      constructor
      · exact fun level s hs => ih.binary_succ level hs
      · exact fun level left s hs => ih.binaryRest_succ level left hs
      · exact fun s hs => ih.unary_succ hs
      · exact fun x s hs => ih.postfixed_succ x hs
      · exact fun seen s hs => ih.args_succ seen hs
      · exact fun s hs => ih.primary_succ hs
      · exact fun keys values s hs hkeys => ih.fields_succ keys values hs hkeys

theorem yields_expression (fuel : Nat) (hs : Good p n s) :
    Yields (expression fuel) s fun e s' => Reads p n s s' e.mentions :=
  (exprSpec fuel).binary 0 s hs

/-! ## Declarations at the top level -/

/-- A declaration without a symbol or a reference. -/
theorem Good.declare_quiet (hs : Good p n s) (d : Declaration) {s' : State}
    (hrest : s'.rest = s.rest) (hdeclared : s'.declared = d :: s.declared)
    (hnextSymbol : s'.nextSymbol = s.nextSymbol)
    (hnextReference : s'.nextReference = s.nextReference)
    (hsymbols : (Program.enactOne n (s.program p n) d).symbols.size =
      (s.program p n).symbols.size)
    (hreferences : (Program.enactOne n (s.program p n) d).references.size =
      (s.program p n).references.size)
    (htidied : (p.spaceAt n).Tidy → Tidied p n s') : Reads p n s s' [] := by
  apply hs.declare d hrest hdeclared
  · rw [hnextSymbol, hsymbols, hs.synced.symbol]
  · rw [hnextReference, hreferences, hs.synced.reference]
  · exact htidied

theorem yields_declare (hs : Good p n s) (d : Declaration)
    (hsymbols : (Program.enactOne n (s.program p n) d).symbols.size =
      (s.program p n).symbols.size)
    (hreferences : (Program.enactOne n (s.program p n) d).references.size =
      (s.program p n).references.size)
    (htidied : (p.spaceAt n).Tidy → Tidied p n { s with declared := d :: s.declared }) :
    Yields (declare d) s fun _ s' =>
      Reads p n s s' [] ∧ s' = { s with declared := d :: s.declared } := by
  simp only [declare, yields_modify]
  exact ⟨hs.declare_quiet d rfl rfl rfl rfl hsymbols hreferences htidied, trivial⟩

theorem Tidied.addImport (h : Tidied p n s) (hn : n < (s.program p n).namespaces.size)
    {qualifier path : Text} {offset : Nat} (hnew : qualifier ∉ s.aliases) :
    Tidied p n { s with
      aliases := qualifier :: s.aliases
      declared := .import_ qualifier path offset :: s.declared } := by
  have hspace := Program.spaceAt_addPending hn qualifier path offset
  have hprogram : State.program p n { s with
      aliases := qualifier :: s.aliases
      declared := .import_ qualifier path offset :: s.declared } =
        (s.program p n).addPending n qualifier path offset :=
    program_declare (s := s) (d := .import_ qualifier path offset) rfl
  constructor
  · exact h.aliased.declare (List.subset_cons_self _ _) rfl nofun
  · intro a
    rw [hprogram, hspace]
    simp only [List.mem_cons, h.aliases a, Namespace.aliases, List.map_append, List.map_cons,
      List.map_nil, List.mem_append, List.not_mem_nil, or_false]
    tauto
  · intro e
    rw [hprogram, hspace]
    exact h.enums e
  · rw [hprogram, hspace]
    exact h.tidy.addPending fun hmem => hnew ((h.aliases qualifier).mpr hmem)

theorem yields_addImport (hs : Good p n s) (qualifier path : Text) (offset : Nat) :
    Yields (addImport qualifier path offset) s fun _ s' => Reads p n s s' [] := by
  simp only [addImport, yields_bind, yields_get]
  split
  · simp
  · next hnew =>
      simp only [yields_set]
      refine hs.declare_quiet (.import_ qualifier path offset) rfl rfl rfl rfl rfl rfl ?_
      exact fun h => (hs.tidied h).addImport hs.lt (by simpa using hnew)

theorem yields_newAlias (hs : Good p n s) :
    Yields newAlias s fun _ s' => Reads p n s s' [] := by
  simp only [newAlias, yields_bind, yields_get, yields_set, yields_pure]
  exact hs.declare_quiet .generatedAlias rfl rfl rfl rfl rfl rfl
    fun h => (hs.tidied h).declare rfl rfl rfl (by simp) ⟨rfl, rfl, fun _ => rfl⟩

theorem yields_importStatement (hs : Good p n s) :
    Yields importStatement s fun st s' => Reads p n s s' st.mentions := by
  simp only [importStatement, yields_bind, yields_peek]
  refine (yields_advance hs).mono ?_
  intro start s₁ h₁
  split
  · simp only [yields_bind, yields_pure]
    refine (yields_advance (h₁.good hs)).mono ?_
    intro path s₂ hpath
    have h₂ := h₁.trans hpath
    refine (yields_newAlias (h₂.good hs)).mono ?_
    intro qualifier s₃ halias
    have h₃ := h₂.trans halias
    refine (yields_addImport (h₃.good hs) _ _ _).mono ?_
    intro _ s₄ himport
    exact h₃.trans himport
  · simp only [yields_bind, yields_pure]
    refine (yields_expect (h₁.good hs) _).mono ?_
    intro qualifier s₂ hqualifier
    have h₂ := h₁.trans hqualifier
    refine (yields_expect (h₂.good hs) _).mono ?_
    intro from_ s₃ hfrom
    have h₃ := h₂.trans hfrom
    refine (yields_expect (h₃.good hs) _).mono ?_
    intro path s₄ hpath
    have h₄ := h₃.trans hpath
    refine (yields_addImport (h₄.good hs) _ _ _).mono ?_
    intro _ s₅ himport
    exact h₄.trans himport

theorem yields_entryValue (hs : Good p n s) :
    Yields entryValue s fun _ s' => Reads p n s s' [] := by
  simp only [entryValue, yields_bind]
  refine (yields_accept hs _).mono ?_
  intro assigned s₁ h₁
  split
  · simp only [yields_bind, yields_pure]
    refine (yields_accept (h₁.good hs) _).mono ?_
    intro negative s₂ hnegative
    have h₂ := h₁.trans hnegative
    refine (yields_expect (h₂.good hs) _).mono ?_
    intro number s₃ hnumber
    exact h₂.trans hnumber
  · simpa only [yields_pure] using h₁

def Silent {α : Type} (action : Parser α) : Prop :=
  ∀ s, Yields action s fun _ s' => s'.declared = s.declared

theorem silent_accept (kind : TokenKind) : Silent (accept kind) := by
  intro s
  simp only [accept, yields_bind, yields_peek]
  split
  · simp only [yields_bind, yields_skip, yields_pure]
  · simp only [yields_pure]

theorem silent_expect (kind : TokenKind) : Silent (expect kind) := by
  intro s
  simp only [expect, yields_bind, yields_peek]
  split
  · simp only [advance, yields_bind, yields_peek, yields_skip, yields_pure]
  · simp

theorem silent_entryValue : Silent entryValue := by
  intro s
  simp only [entryValue, yields_bind]
  refine (silent_accept .assign s).mono ?_
  intro assigned s₁ h₁
  split
  · simp only [yields_bind, yields_pure]
    refine (silent_accept .minus s₁).mono ?_
    intro negative s₂ h₂
    refine (silent_expect .number s₂).mono ?_
    intro number s₃ h₃
    rw [h₃, h₂, h₁]
  · simpa only [yields_pure] using h₁

/-- An identifier is a word. -/
theorem yields_expect_identifier (hs : Good p n s) :
    Yields (expect .identifier) s fun t _ => Text.IsWord t.text := by
  simp only [expect, yields_bind, yields_peek]
  split
  · next hkind =>
      simp only [advance, yields_bind, yields_peek, yields_skip, yields_pure]
      rw [beq_iff_eq] at hkind
      obtain ⟨rest, hrest⟩ := exists_rest_of_kind (s := s) (by rw [hkind]; decide)
      exact hs.words _ (by rw [hrest]; exact List.mem_cons_self) hkind
  · simp

/-- The enums of a name have the entries that were read so far. -/
def HasEntries (p : Program) (n : NamespaceId) (s : State) (enum : Text) (seen : List Text) :
    Prop :=
  (p.spaceAt n).Tidy → ∀ e ∈ ((s.program p n).spaceAt n).enums, e.name = enum →
    e.entries.map EnumEntry.name = seen

theorem HasEntries.silent {enum : Text} {seen : List Text} (h : HasEntries p n s enum seen)
    (hdeclared : s'.declared = s.declared) : HasEntries p n s' enum seen := by
  unfold HasEntries State.program
  rw [hdeclared]
  exact h

theorem HasEntries.addEntry {enum : Text} {seen : List Text} (h : HasEntries p n s enum seen)
    (hn : n < (s.program p n).namespaces.size) (entry : EnumEntry) :
    HasEntries p n { s with declared := .entry enum entry :: s.declared } enum
      (seen ++ [entry.name]) := by
  intro hp e he hname
  rw [program_declare (s := s) (d := .entry enum entry) rfl] at he
  rw [show Program.enactOne n (s.program p n) (.entry enum entry) =
    (s.program p n).addEntry n enum entry from rfl, Program.spaceAt_addEntry hn] at he
  obtain ⟨x, hx, rfl⟩ := List.mem_map.mp he
  by_cases hxname : x.name = enum
  · rw [if_pos (by simpa using hxname), Enumeration.addEntry, List.map_append, h hp x hx hxname]
    rfl
  · rw [if_neg (by simpa using hxname)] at hname
    exact absurd hname hxname

theorem HasEntries.tidied {enum : Text} {seen : List Text} (h : HasEntries p n s enum seen)
    (hs : Good p n s) {entry : EnumEntry} (hnew : entry.name ∉ seen) (hp : (p.spaceAt n).Tidy) :
    Tidied p n { s with declared := .entry enum entry :: s.declared } := by
  have ht := hs.tidied hp
  have hprogram : State.program p n { s with declared := .entry enum entry :: s.declared } =
      (s.program p n).addEntry n enum entry :=
    program_declare (s := s) (d := .entry enum entry) rfl
  have hspace := Program.spaceAt_addEntry hs.lt enum entry
  constructor
  · exact ht.aliased.declare (List.Subset.refl _) rfl nofun
  · intro a
    rw [hprogram, hspace]
    exact ht.aliases a
  · intro e
    rw [hprogram, hspace]
    rw [Namespace.map_name_addEntry]
    exact ht.enums e
  · rw [hprogram, hspace]
    apply ht.tidy.addEntry
    intro e he hname
    rw [h hp e he hname]
    exact hnew

theorem yields_entries (enum : Text) (fuel : Nat) (seen : List Text) (hs : Good p n s)
    (hseen : HasEntries p n s enum seen) :
    Yields (entries enum fuel seen) s fun _ s' => Reads p n s s' [] := by
  induction fuel generalizing s seen with
  | zero => simp only [entries, yields_bind, yields_peek, yields_failAt]
  | succ fuel ih =>
      rw [entries]
      simp only [yields_bind]
      refine ((yields_accept hs _).and (silent_accept _ s)).mono ?_
      rintro closed s₁ ⟨h₁, hsilent₁⟩
      split
      · simpa only [yields_pure] using h₁
      · simp only [yields_bind]
        refine ((yields_expect (h₁.good hs) _).and (silent_expect _ s₁)).mono ?_
        rintro name s₂ ⟨hname, hsilent₂⟩
        have h₂ := h₁.trans hname
        refine ((yields_entryValue (h₂.good hs)).and (silent_entryValue s₂)).mono ?_
        rintro value s₃ ⟨hvalue, hsilent₃⟩
        have h₃ := h₂.trans hvalue
        have hseen₃ := ((hseen.silent hsilent₁).silent hsilent₂).silent hsilent₃
        split
        · simp
        · next hnew =>
            simp only [yields_bind]
            have hnew' : (EnumEntry.ofValue? name.text value name.offset).name ∉ seen := by
              simpa [EnumEntry.ofValue?] using hnew
            refine (yields_declare (h₃.good hs)
              (.entry enum (EnumEntry.ofValue? name.text value name.offset)) rfl rfl
              (hseen₃.tidied (h₃.good hs) hnew')).mono ?_
            rintro _ s₄ ⟨hentry, rfl⟩
            have h₄ := h₃.trans hentry
            have hseen₄ := hseen₃.addEntry (h₃.good hs).lt
              (EnumEntry.ofValue? name.text value name.offset)
            refine ((yields_accept (h₄.good hs) _).and (silent_accept _ _)).mono ?_
            rintro comma s₅ ⟨hcomma, hsilent₅⟩
            have h₅ := h₄.trans hcomma
            refine (ih _ (h₅.good hs) (hseen₄.silent hsilent₅)).mono ?_
            intro names s₆ hrest
            exact h₅.trans hrest

theorem Tidied.addEnum (h : Tidied p n s) (hn : n < (s.program p n).namespaces.size)
    {name : Text} {offset : Nat} (hnew : name ∉ s.enums) (hword : Text.IsWord name) :
    Tidied p n { s with
      enums := name :: s.enums
      declared := .enum name offset :: s.declared } := by
  have hspace := Program.spaceAt_addEnum hn name offset
  have hprogram : State.program p n { s with
      enums := name :: s.enums
      declared := .enum name offset :: s.declared } = (s.program p n).addEnum n name offset :=
    program_declare (s := s) (d := .enum name offset) rfl
  constructor
  · exact h.aliased.declare (List.Subset.refl _) rfl nofun
  · intro a
    rw [hprogram, hspace]
    exact h.aliases a
  · intro e
    rw [hprogram, hspace]
    simp only [List.mem_cons, h.enums e, List.map_append, List.map_cons, List.map_nil,
      List.mem_append, List.not_mem_nil, or_false]
    tauto
  · rw [hprogram, hspace]
    exact h.tidy.addEnum (fun hmem => hnew ((h.enums name).mpr hmem)) hword offset

theorem HasEntries.addEnum (hs : Good p n s) {name : Text} (offset : Nat)
    (hnew : name ∉ s.enums) :
    HasEntries p n { s with
      enums := name :: s.enums
      declared := .enum name offset :: s.declared } name [] := by
  intro hp e he hname
  rw [program_declare (s := s) (d := .enum name offset) rfl] at he
  rw [show Program.enactOne n (s.program p n) (.enum name offset) =
    (s.program p n).addEnum n name offset from rfl, Program.spaceAt_addEnum hs.lt] at he
  rcases List.mem_append.mp he with hold | hlast
  · have hmem : name ∈ s.enums := by
      rw [(hs.tidied hp).enums name, ← hname]
      exact List.mem_map_of_mem hold
    exact absurd hmem hnew
  · rw [List.mem_singleton.mp hlast]
    rfl

theorem yields_enumStatement (hs : Good p n s) :
    Yields enumStatement s fun st s' => Reads p n s s' st.mentions := by
  simp only [enumStatement, yields_bind, yields_get]
  refine (yields_advance hs).mono ?_
  intro start s₁ h₁
  refine ((yields_expect (h₁.good hs) _).and (yields_expect_identifier (h₁.good hs))).mono ?_
  rintro name s₂ ⟨hname, hword⟩
  have h₂ := h₁.trans hname
  split
  · simp
  · next hnew =>
      simp only [yields_bind, yields_modify, yields_get, yields_pure]
      have hnew' : name.text ∉ s₂.enums := by simpa using hnew
      have hgood := h₂.good hs
      have henum : Reads p n s₂
          { s₂ with
            enums := name.text :: s₂.enums
            declared := .enum name.text name.offset :: s₂.declared } [] :=
        hgood.declare_quiet (.enum name.text name.offset) rfl rfl rfl rfl rfl rfl
          fun hp => (hgood.tidied hp).addEnum hgood.lt hnew' hword
      have h₃ := h₂.trans henum
      refine ((yields_expect (h₃.good hs) _).and (silent_expect _ _)).mono ?_
      rintro brace s₄ ⟨hbrace, hsilent⟩
      have h₄ := h₃.trans hbrace
      have hseen := (HasEntries.addEnum hgood name.offset hnew').silent hsilent
      refine (yields_entries _ _ _ (h₄.good hs) hseen).mono ?_
      intro names s₅ hnames
      exact h₄.trans hnames

theorem yields_retainedNames (fuel : Nat) (seen : List Text) (hs : Good p n s) :
    Yields (retainedNames fuel seen) s fun _ s' => Reads p n s s' [] := by
  induction fuel generalizing s seen with
  | zero => simp only [retainedNames, yields_bind, yields_peek, yields_failAt]
  | succ fuel ih =>
      rw [retainedNames]
      simp only [yields_bind]
      refine (yields_expect hs _).mono ?_
      intro name s₁ h₁
      refine (yields_declare (h₁.good hs) (.retain name.text)
        (Program.size_retainProperty _ _)
        (congrArg Array.size (Program.references_retainProperty _ _)) fun hp =>
          (h₁.tidied hp).declare rfl rfl rfl (by simp)
            (Program.sameFiles_retainProperty _ name.text)).mono ?_
      rintro _ s₂ ⟨hretain, -⟩
      have h₂ := h₁.trans hretain
      refine (yields_accept (h₂.good hs) _).mono ?_
      intro comma s₃ hcomma
      have h₃ := h₂.trans hcomma
      split
      · refine (ih _ (h₃.good hs)).mono ?_
        intro names s₄ hrest
        exact h₃.trans hrest
      · rw [yields_pure]
        exact h₃

theorem yields_retainStatement (hs : Good p n s) :
    Yields retainStatement s fun st s' => Reads p n s s' st.mentions := by
  simp only [retainStatement, yields_bind, yields_get, yields_pure]
  refine (yields_advance hs).mono ?_
  intro start s₁ h₁
  refine (yields_retainedNames _ _ (h₁.good hs)).mono ?_
  intro names s₂ hnames
  exact h₁.trans hnames

def paramMentions (ps : List Param) : List Mention := ps.map fun q => .binding q.name q.symbol

theorem yields_params (fuel : Nat) (seen : List Param) (hs : Good p n s) :
    Yields (params fuel seen) s fun ps s' =>
      ∃ new, paramMentions ps = paramMentions seen ++ new ∧ Reads p n s s' new := by
  induction fuel generalizing s seen with
  | zero => simp only [params, yields_bind, yields_peek, yields_failAt]
  | succ fuel ih =>
      have hnext : ∀ s₁, Reads p n s s₁ [] →
          Yields (do
            let name ← expect .identifier
            let symbol ← newSymbol name.text
            params fuel (seen ++ [⟨name.text, symbol⟩])) s₁ fun ps s' =>
              ∃ new, paramMentions ps = paramMentions seen ++ new ∧ Reads p n s s' new := by
        intro s₁ h₁
        simp only [yields_bind]
        refine (yields_expect (h₁.good hs) _).mono ?_
        intro name s₂ hname
        have h₂ := h₁.trans hname
        refine (yields_newSymbol (h₂.good hs) _).mono ?_
        rintro symbol s₃ ⟨hsymbol, hmem⟩
        have h₃ := (h₂.trans hsymbol).snoc (m := .binding name.text symbol) rfl hmem trivial
        refine (ih _ (h₃.good hs)).mono ?_
        rintro ps s₄ ⟨new, hmentions, hrest⟩
        refine ⟨[.binding name.text symbol] ++ new, ?_, h₃.trans hrest⟩
        rw [hmentions]
        simp [paramMentions]
      rw [params]
      simp only [yields_bind]
      refine (yields_accept hs _).mono ?_
      intro closed s₁ h₁
      split
      · simp only [yields_pure]
        exact ⟨[], by simp, h₁⟩
      · split
        · simp only [yields_bind]
          refine (yields_expect (h₁.good hs) _).mono ?_
          intro comma s₂ hcomma
          simpa only [yields_bind] using hnext s₂ (h₁.trans hcomma)
        · simpa only [yields_bind] using hnext s₁ h₁

/-! ## Statements -/

theorem yields_letStatement (fuel : Nat) (hs : Good p n s) :
    Yields (letStatement fuel) s fun st s' => Reads p n s s' st.mentions := by
  simp only [letStatement, yields_bind, yields_pure]
  refine (yields_advance hs).mono ?_
  intro start s₁ h₁
  refine (yields_expect (h₁.good hs) _).mono ?_
  intro name s₂ hname
  have h₂ := h₁.trans hname
  refine (yields_expect (h₂.good hs) _).mono ?_
  intro sign s₃ hsign
  have h₃ := h₂.trans hsign
  refine (yields_expression fuel (h₃.good hs)).mono ?_
  intro value s₄ hvalue
  have h₄ := h₃.trans hvalue
  refine (yields_newSymbol (h₄.good hs) _).mono ?_
  rintro symbol s₅ ⟨hsymbol, hmem⟩
  have h₅ : Reads p n s s₅ value.mentions := by simpa using h₄.trans hsymbol
  exact h₅.snoc (m := .binding name.text symbol) rfl hmem trivial

theorem yields_returnStatement (fuel : Nat) (hs : Good p n s) :
    Yields (returnStatement fuel) s fun st s' => Reads p n s s' st.mentions := by
  simp only [returnStatement, yields_bind, yields_peek]
  refine (yields_advance hs).mono ?_
  intro start s₁ h₁
  split
  · simp only [yields_pure]
    exact h₁
  · simp only [yields_pure]
    exact h₁
  · simp only [yields_pure]
    exact h₁
  · simp only [yields_bind, yields_pure]
    refine (yields_expression fuel (h₁.good hs)).mono ?_
    intro value s₂ hvalue
    simpa [Stmt.mentions] using h₁.trans hvalue

theorem yields_latestReference {post : Text → State → Prop} (h : ∀ t, post t s) :
    Yields latestReference s post := by
  simp only [latestReference, yields_bind, yields_get]
  split
  · simpa only [yields_pure] using h _
  · simpa only [yields_pure] using h _

def simpleRest (fuel : Nat) (x : Expr) (spelling : Text) : Parser Stmt := do
  if (← peek).kind != .assign then return .expr x
  let sign ← advance
  let value ← expression fuel
  match x with
  | .name offset name _ =>
      let symbol ← newSymbol name
      return .assign offset name symbol value none
  | .member offset target _ property _ => return .setMember offset target property value
  | .imported _ _ _ _ => failAt sign ("cannot assign to imported name " ++ spelling)
  | _ => failAt sign "invalid assignment target"

/-- How an import was spelled matters to messages only. -/
theorem yields_simpleStatement_of {fuel : Nat} {s : State} {post : Stmt → State → Prop}
    (h : Yields (expression fuel) s fun x s₁ =>
      ∀ spelling, Yields (simpleRest fuel x spelling) s₁ post) :
    Yields (simpleStatement fuel) s post := by
  simp only [simpleStatement, yields_bind]
  refine h.mono ?_
  intro x s₁ hrest
  refine Yields.ite ?_ ?_
  · rw [yields_bind]
    apply yields_latestReference
    exact hrest
  · rw [yields_bind, yields_pure]
    exact hrest []

theorem yields_simpleStatement (fuel : Nat) (hs : Good p n s) :
    Yields (simpleStatement fuel) s fun st s' => Reads p n s s' st.mentions := by
  refine yields_simpleStatement_of ((yields_expression fuel hs).mono ?_)
  intro x s₁ hx spelling
  simp only [simpleRest, yields_bind, yields_peek]
  split
  · simp only [yields_pure]
    exact hx
  · simp only [yields_bind]
    refine (yields_advance (hx.good hs)).mono ?_
    intro sign s₂ hsign
    have h₂ := hx.trans hsign
    refine (yields_expression fuel (h₂.good hs)).mono ?_
    intro value s₃ hvalue
    have h₃ := h₂.trans hvalue
    split
    · next offset name read =>
        simp only [yields_bind, yields_pure]
        refine (yields_newSymbol (h₃.good hs) _).mono ?_
        rintro symbol s₄ ⟨hsymbol, hmem⟩
        have h₄ := h₃.trans hsymbol
        -- The target was read as an expression; the assignment mentions only its name.
        have h₅ : Reads p n s s₄ value.mentions := by
          apply h₄.subset
          · intro m hm
            simp [hm]
          · simp only [List.append_nil, List.filterMap_append]
            exact List.sublist_append_right _ _
        exact h₅.snoc (m := .binding name symbol) rfl hmem trivial
    · next offset target name property entry =>
        simp only [yields_pure]
        apply h₃.subset
        · intro m hm
          simp only [Stmt.mentions, Expr.mentions, List.mem_append, List.append_nil] at hm ⊢
          tauto
        · simp [Stmt.mentions, Expr.mentions, List.filterMap_append, Mention.offset?,
            List.filterMap_cons]
    · simp
    · simp

theorem stmtMentions_append (a b : List Stmt) :
    Stmt.mentionsOfAll (a ++ b) = Stmt.mentionsOfAll a ++ Stmt.mentionsOfAll b := by
  induction a with
  | nil => rfl
  | cons st rest ih => simp [Stmt.mentionsOfAll, ih]

/-- What the mutually recursive parsers of statements read, for some fuel. -/
structure StmtSpec (p : Program) (n : NamespaceId) (fuel : Nat) : Prop where
  statement : ∀ top s, Good p n s →
    Yields (statement fuel top) s fun st s' => Reads p n s s' st.mentions
  fnStatement : ∀ s, Good p n s →
    Yields (fnStatement fuel) s fun st s' => Reads p n s s' st.mentions
  ifStatement : ∀ s, Good p n s →
    Yields (ifStatement fuel) s fun st s' => Reads p n s s' st.mentions
  block : ∀ s, Good p n s →
    Yields (block fuel) s fun ss s' => Reads p n s s' (Stmt.mentionsOfAll ss)
  blockRest : ∀ start seen s, Good p n s →
    Yields (blockRest fuel start seen) s fun ss s' =>
      ∃ new, Stmt.mentionsOfAll ss = Stmt.mentionsOfAll seen ++ new ∧ Reads p n s s' new

theorem stmtSpec_zero : StmtSpec p n 0 := by
  constructor <;> intros <;>
    simp only [Parser.statement, Parser.fnStatement, Parser.ifStatement, Parser.block,
      Parser.blockRest, yields_bind, yields_peek, yields_failAt]

theorem StmtSpec.statement_succ (h : StmtSpec p n fuel) (top : Bool) (hs : Good p n s) :
    Yields (Parser.statement (fuel + 1) top) s fun st s' => Reads p n s s' st.mentions := by
  rw [Parser.statement]
  simp only [yields_bind, yields_peek]
  split
  · split
    · exact yields_importStatement hs
    · simp
  · split
    · exact yields_enumStatement hs
    · simp
  · exact yields_letStatement fuel hs
  · exact h.fnStatement s hs
  · exact yields_retainStatement hs
  · exact yields_returnStatement fuel hs
  · exact h.ifStatement s hs
  · simp only [yields_bind, yields_pure]
    exact h.block s hs
  · exact yields_simpleStatement fuel hs

theorem StmtSpec.block_succ (h : StmtSpec p n fuel) (hs : Good p n s) :
    Yields (Parser.block (fuel + 1)) s fun ss s' => Reads p n s s' (Stmt.mentionsOfAll ss) := by
  rw [Parser.block]
  simp only [yields_bind]
  refine (yields_expect hs _).mono ?_
  intro start s₁ h₁
  refine (yields_skipSemicolons (h₁.good hs)).mono ?_
  intro _ s₂ hskip
  have h₂ := h₁.trans hskip
  refine (h.blockRest start [] s₂ (h₂.good hs)).mono ?_
  rintro ss s₃ ⟨new, hmentions, hrest⟩
  rw [hmentions]
  exact h₂.trans hrest

theorem StmtSpec.blockRest_succ (h : StmtSpec p n fuel) (start : Token) (seen : List Stmt)
    (hs : Good p n s) :
    Yields (Parser.blockRest (fuel + 1) start seen) s fun ss s' =>
      ∃ new, Stmt.mentionsOfAll ss = Stmt.mentionsOfAll seen ++ new ∧ Reads p n s s' new := by
  rw [Parser.blockRest]
  simp only [yields_bind]
  refine (yields_accept hs _).mono ?_
  intro closed s₁ h₁
  split
  · simp only [yields_pure]
    exact ⟨[], by simp, h₁⟩
  · simp only [yields_bind, yields_peek]
    split
    · simp
    · simp only [yields_bind]
      refine (h.statement false s₁ (h₁.good hs)).mono ?_
      intro st s₂ hst
      have h₂ := h₁.trans hst
      refine (yields_skipSemicolons (h₂.good hs)).mono ?_
      intro _ s₃ hskip
      have h₃ : Reads p n s s₃ st.mentions := by simpa using h₂.trans hskip
      refine (h.blockRest start _ s₃ (h₃.good hs)).mono ?_
      rintro ss s₄ ⟨new, hmentions, hrest⟩
      refine ⟨st.mentions ++ new, ?_, h₃.trans hrest⟩
      rw [hmentions, stmtMentions_append]
      simp [Stmt.mentionsOfAll]

theorem StmtSpec.fnStatement_succ (h : StmtSpec p n fuel) (hs : Good p n s) :
    Yields (Parser.fnStatement (fuel + 1)) s fun st s' => Reads p n s s' st.mentions := by
  rw [Parser.fnStatement]
  simp only [yields_bind, yields_get, yields_peek]
  refine (yields_advance hs).mono ?_
  intro start s₁ h₁
  refine (yields_expect (h₁.good hs) _).mono ?_
  intro name s₂ hname
  have h₂ := h₁.trans hname
  refine (yields_newSymbol (h₂.good hs) _).mono ?_
  rintro symbol s₃ ⟨hsymbol, hmem⟩
  have h₃ := (h₂.trans hsymbol).snoc (m := .binding name.text symbol) rfl hmem trivial
  refine (yields_expect (h₃.good hs) _).mono ?_
  intro paren s₄ hparen
  have h₄ := h₃.trans hparen
  refine (yields_params _ _ (h₄.good hs)).mono ?_
  rintro ps s₅ ⟨new, hparams, hreads⟩
  have h₅ := h₄.trans hreads
  split
  · simp
  · simp only [yields_bind, yields_pure]
    refine (h.block s₅ (h₅.good hs)).mono ?_
    intro body s₆ hbody
    have hnew : new = paramMentions ps := by simpa [paramMentions] using hparams.symm
    simpa [Stmt.mentions, hnew, paramMentions] using h₅.trans hbody

theorem StmtSpec.ifStatement_succ (h : StmtSpec p n fuel) (hs : Good p n s) :
    Yields (Parser.ifStatement (fuel + 1)) s fun st s' => Reads p n s s' st.mentions := by
  rw [Parser.ifStatement]
  simp only [yields_bind, yields_peek]
  refine (yields_advance hs).mono ?_
  intro start s₁ h₁
  refine (yields_expression fuel (h₁.good hs)).mono ?_
  intro condition s₂ hcondition
  have h₂ := h₁.trans hcondition
  split
  · simp
  · simp only [yields_bind]
    refine (h.block s₂ (h₂.good hs)).mono ?_
    intro body s₃ hbody
    have h₃ := h₂.trans hbody
    refine (yields_accept (h₃.good hs) _).mono ?_
    intro other s₄ hother
    have h₄ : Reads p n s s₄ (condition.mentions ++ Stmt.mentionsOfAll body) := by
      simpa using h₃.trans hother
    split
    · simp only [yields_bind, yields_peek]
      split
      · simp only [yields_bind, yields_pure]
        refine (h.ifStatement s₄ (h₄.good hs)).mono ?_
        intro st s₅ hst
        exact h₄.trans hst
      · simp only [yields_bind, yields_pure]
        refine (h.block s₄ (h₄.good hs)).mono ?_
        intro ss s₅ hss
        exact h₄.trans hss
      · simp
    · simp only [yields_pure]
      simpa [Stmt.mentions, Stmt.mentionsOfElse] using h₄

theorem stmtSpec (fuel : Nat) : StmtSpec p n fuel := by
  induction fuel with
  | zero => exact stmtSpec_zero
  | succ fuel ih =>
      constructor
      · exact fun top s hs => ih.statement_succ top hs
      · exact fun s hs => ih.fnStatement_succ hs
      · exact fun s hs => ih.ifStatement_succ hs
      · exact fun s hs => ih.block_succ hs
      · exact fun start seen s hs => ih.blockRest_succ start seen hs

theorem yields_fileRest (fuel : Nat) (seen : List Stmt) (hs : Good p n s) :
    Yields (fileRest fuel seen) s fun ss s' =>
      ∃ new, Stmt.mentionsOfAll ss = Stmt.mentionsOfAll seen ++ new ∧ Reads p n s s' new := by
  induction fuel generalizing s seen with
  | zero => simp only [fileRest, yields_bind, yields_peek, yields_failAt]
  | succ fuel ih =>
      rw [fileRest]
      simp only [yields_bind, yields_peek]
      split
      · simp only [yields_pure]
        exact ⟨[], by simp, hs.stay⟩
      · simp only [yields_bind]
        refine ((stmtSpec fuel).statement true s hs).mono ?_
        intro st s₁ hst
        refine (yields_skipSemicolons (hst.good hs)).mono ?_
        intro _ s₂ hskip
        have h₂ : Reads p n s s₂ st.mentions := by simpa using hst.trans hskip
        refine (ih _ (h₂.good hs)).mono ?_
        rintro ss s₃ ⟨new, hmentions, hrest⟩
        refine ⟨st.mentions ++ new, ?_, h₂.trans hrest⟩
        rw [hmentions, stmtMentions_append]
        simp [Stmt.mentionsOfAll]

/-- A whole file. -/
theorem yields_file (hs : Good p n s) :
    Yields file s fun ss s' => Reads p n s s' (Stmt.mentionsOfAll ss) := by
  simp only [file, yields_bind, yields_get]
  refine (yields_skipSemicolons hs).mono ?_
  intro _ s₁ h₁
  refine (yields_fileRest _ [] (h₁.good hs)).mono ?_
  rintro ss s₂ ⟨new, hmentions, hrest⟩
  rw [hmentions]
  exact h₁.trans hrest

end

end Parser

end Splice

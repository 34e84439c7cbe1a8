import Splice.Proofs.Program.Pool
import Splice.Proofs.Tree.Blocks

/-!
# Parsing undoes printing

A file of statements without imports is printed and read again.  The parser takes down the
enums of a file as it meets them, so they must differ from each other and from those that
the namespace has.  The symbols that the parser makes up are found in the program
afterwards, in the same order and under their names.  The main statement, `parse_print`, is
that the statements that were read say what the printed ones do.
-/

namespace Splice

namespace Program

def symbolNames (p : Program) : List Text := p.symbols.toList.map Symbol.name

theorem symbolNames_modifySymbol (p : Program) (s : SymbolId) {f : Symbol → Symbol}
    (hf : ∀ x, (f x).name = x.name) : (p.modifySymbol s f).symbolNames = p.symbolNames := by
  have hmodify : ∀ symbols : List Symbol,
      (symbols.modify s f).map Symbol.name = symbols.map Symbol.name := by
    intro symbols
    apply List.ext_getElem?
    intro i
    simp only [List.getElem?_map, List.getElem?_modify]
    split <;> cases symbols[i]? <;> simp [hf]
  rw [symbolNames, modifySymbol, Array.toList_modify]
  exact hmodify _

theorem symbolNames_retainProperty (p : Program) (name : Text) :
    (p.retainProperty name).symbolNames = p.symbolNames := by
  have hfold : ∀ (ss : List SymbolId) (p : Program),
      (ss.foldl (fun p s => p.modifySymbol s Symbol.retain) p).symbolNames = p.symbolNames := by
    intro ss
    induction ss with
    | nil => intro p; rfl
    | cons s rest ih =>
        intro p
        rw [List.foldl_cons, ih, symbolNames_modifySymbol]
        intro x
        cases hk : x.kind <;> simp [Symbol.retain, hk]
  exact hfold _ _

theorem symbolNames_enactOne (p : Program) (n : NamespaceId) (d : Declaration) :
    (enactOne n p d).symbolNames = p.symbolNames ++ d.symbolName?.toList := by
  cases d with
  | symbol name =>
      have hname : (Symbol.ofName (p.spaceAt n).id name).name = name := by
        rw [Symbol.ofName]
        split <;> rfl
      simp [enactOne, addSymbol, modifySpace, symbolNames, Declaration.symbolName?, hname]
  | property name => simp [enactOne, addProperty, symbolNames, Symbol.ofProperty,
      Declaration.symbolName?]
  | retain name => simp [enactOne, symbolNames_retainProperty, Declaration.symbolName?]
  | _ => exact (List.append_nil _).symm

/-- Declarations add their symbols in order. -/
theorem symbolNames_enact (p : Program) (n : NamespaceId) (ds : List Declaration) :
    (p.enact n ds).symbolNames = p.symbolNames ++ ds.filterMap Declaration.symbolName? := by
  induction ds generalizing p with
  | nil => exact (List.append_nil _).symm
  | cons d rest ih =>
      have hrest := ih (enactOne n p d)
      rw [symbolNames_enactOne, List.append_assoc] at hrest
      rw [List.filterMap_cons]
      cases hd : d.symbolName? with
      | none => simpa [hd, enact] using hrest
      | some name => simpa [hd, enact] using hrest

theorem name_symbol_of_symbolNames {p : Program} {i : SymbolId} {text : Text}
    (h : p.symbolNames[i]? = some text) : (p.symbol i).name = text := by
  rw [symbolNames, List.getElem?_map] at h
  obtain ⟨s, hs, rfl⟩ := Option.map_eq_some_iff.mp h
  rw [Array.getElem?_toList] at hs
  rw [symbol, Array.getD_eq_getD_getElem?, hs, Option.getD_some]

/-- The symbols that a parser made up have their names in the program that it leaves. -/
theorem names_enact (p : Program) (n : NamespaceId) (s : Parser.State) :
    s.Names p.symbols.size fun i => ((p.enact n s.declared.reverse).symbol i).name := by
  intro i text hi
  apply name_symbol_of_symbolNames
  rw [symbolNames_enact, List.getElem?_append_right (by simp [symbolNames])]
  simpa [symbolNames, Parser.State.made] using hi

end Program

theorem PlainStmt.isRegular_of_mem {ss : List PlainStmt} {top : Bool}
    (h : areRegular ss top = true) {s : PlainStmt} (hs : s ∈ ss) : s.isRegular top = true := by
  induction ss with
  | nil => cases hs
  | cons first rest ih =>
      rw [areRegular, Bool.and_eq_true] at h
      rcases List.mem_cons.mp hs with rfl | hs
      · exact h.1
      · exact ih h.2 hs

namespace Parser

open Word (sign braces)

variable {base : Nat}

/-- A statement is read back at the top level in front of its semicolon, unless it is an
enum whose name is taken; an enum takes its name. -/
def RereadsTop (base : Nat) (s : PlainStmt) : Prop :=
  ∀ fuel st used tail, 10 * s.words.length + 10 ≤ fuel → st.rest = used ++ tail →
    used.map Token.word = s.words → headKind tail = .semicolon → Ready base st →
      (∀ text ∈ s.enumName?, text ∉ st.enums) →
        ∃ x st', statement fuel true st = .ok x st' ∧ st'.rest = tail ∧
          st'.enums = s.enumName?.toList ++ st.enums ∧ st.made <+: st'.made ∧ Ready base st' ∧
            ∀ names, st'.Names base names → StmtSays s names x

/-- Only an enum depends on where it stands. -/
theorem isRegular_top {s : PlainStmt} (h : s.enumName? = none) :
    s.isRegular true = s.isRegular false := by
  match s with
  | .enum _ _ => cases h
  | .return_ none | .return_ (some _) => rfl
  | .if_ _ _ none | .if_ _ _ (some _) => rfl
  | .let_ _ _ | .fn _ _ _ | .retain _ | .block _ | .assign _ _ | .setMember _ _ _ | .expr _ => rfl

theorem RereadsStatement.top {s : PlainStmt} (h : RereadsStatement base s)
    (hname : s.enumName? = none) : RereadsTop base s := by
  intro fuel st used tail hfuel hrest hused htail hready _
  obtain ⟨x, st', hrun, hrest', honward, hready', hsays⟩ :=
    h true fuel hfuel st used tail hrest hused htail hready
  refine ⟨x, st', hrun, hrest', ?_, honward.made, hready', hsays⟩
  rw [hname]
  exact honward.enums

/-- What the parser does behind the name of an enum. -/
theorem takes_enumBody {text : Text} {es : List Text} (hes : es.Nodup) (start : Nat) :
    Takes base (braces (Word.names es)) (fun _ => True)
      (expect .openBrace >>= fun _ => get >>= fun (s : State) =>
        entries text (s.rest.length + 1) [] >>= fun names => pure (Stmt.enum start text names))
      (StmtSays (.enum text es)) := by
  rw [braces]
  refine takes_expect rfl fun _ _ => takes_get fun s hs => ?_
  have hle := length_le_length_names es
  rw [List.length_append] at hs
  refine (takes_entries text _ [] _ (by omega) hes).bind_pure fun xs _ => ⟨_, rfl, ?_⟩
  rintro names rfl
  rfl

theorem rereadsTop_enum {text : Text} {es : List Text} (hes : es.Nodup) :
    RereadsTop base (.enum text es) := by
  intro fuel st used tail hfuel hrest hused _ hready hnew
  obtain ⟨fuel, rfl⟩ : ∃ k, fuel = k + 1 := ⟨fuel - 1, by omega⟩
  rw [PlainStmt.words] at hused
  obtain ⟨start, others, rfl, hstart, hothers⟩ := List.map_eq_cons_iff.mp hused
  obtain ⟨name, body, rfl, hname, hbody⟩ := List.map_eq_cons_iff.mp hothers
  have hidentifier : name.kind = .identifier := congrArg Word.kind hname
  obtain rfl : name.text = text := congrArg Word.text hname
  let st₁ : State :=
    { st with
      rest := body ++ tail
      enums := name.text :: st.enums
      declared := .enum name.text name.offset :: st.declared }
  have hmade : st₁.made = st.made := by
    simp [State.made, st₁, List.filterMap_append, Declaration.symbolName?]
  have hready₁ : Ready base st₁ := ⟨hready.aliases, by rw [hmade]; exact hready.next⟩
  obtain ⟨x, st', hrun, hrest', honward, hready', hsays⟩ :=
    takes_enumBody hes start.offset st₁ body tail rfl hbody trivial hready₁
  refine ⟨x, st', ?_, hrest', honward.enums, hmade ▸ honward.made, hready', hsays⟩
  have hkind : (st.peekAt 0).kind = .enum := by
    rw [st.kind_peekAt, hrest]
    exact congrArg Word.kind hstart
  have hfree : st.enums.contains name.text = false := by
    rw [List.contains_eq_mem, decide_eq_false_iff_not]
    exact hnew name.text rfl
  have hget : ∀ s : State, (get : Parser State) s = .ok s s := fun _ => rfl
  rw [statement, bind_eq_of_eq_ok (peek_eq st), hkind]
  change enumStatement st = _
  rw [enumStatement, bind_eq_of_eq_ok (advance_eq hrest),
    bind_eq_of_eq_ok (expect_eq rfl hidentifier), bind_eq_of_eq_ok (hget _)]
  dsimp only
  rw [hfree, if_neg Bool.false_ne_true]
  exact hrun

/-- Statements that may stand at the top level are read back there. -/
theorem rereadsTop {s : PlainStmt} (h : s.isRegular true = true) : RereadsTop base s := by
  cases hname : s.enumName? with
  | none =>
      rw [isRegular_top hname] at h
      exact (rereads_statement s h).statement.top hname
  | some text =>
      cases s
      case enum text' es =>
        simp only [PlainStmt.isRegular, Bool.and_eq_true, decide_eq_true_eq] at h
        exact rereadsTop_enum h.2
      all_goals cases hname

/-! ## Files -/

/-- The enums of statements can be declared next to those whose names are taken. -/
structure EnumsFree (ss : List PlainStmt) (taken : List Text) : Prop where
  nodup : (ss.filterMap PlainStmt.enumName?).Nodup
  not_taken : ∀ text ∈ ss.filterMap PlainStmt.enumName?, text ∉ taken

theorem EnumsFree.head {s : PlainStmt} {ss : List PlainStmt} {taken : List Text}
    (h : EnumsFree (s :: ss) taken) : ∀ text ∈ s.enumName?, text ∉ taken :=
  fun text htext => h.not_taken text (List.mem_filterMap.mpr ⟨s, List.mem_cons_self, htext⟩)

theorem EnumsFree.tail {s : PlainStmt} {ss : List PlainStmt} {taken : List Text}
    (h : EnumsFree (s :: ss) taken) : EnumsFree ss (s.enumName?.toList ++ taken) := by
  obtain ⟨hnodup, hnew⟩ := h
  cases hname : s.enumName? with
  | none =>
      rw [List.filterMap_cons_none hname] at hnodup hnew
      exact ⟨hnodup, hnew⟩
  | some text =>
      rw [List.filterMap_cons_some hname] at hnodup hnew
      obtain ⟨hfirst, hlast⟩ := List.nodup_cons.mp hnodup
      refine ⟨hlast, fun other hother hmem => ?_⟩
      rcases List.mem_cons.mp hmem with rfl | hmem
      · exact hfirst hother
      · exact hnew other (List.mem_cons_of_mem text hother) hmem

/-- A statement and its semicolon are read, and then the rest of the file. -/
theorem fileRest_statement {fuel : Nat} {seen : List Stmt} {st st₁ : State} {x : Stmt}
    {mark : Token} {others : List Token} (hgo : headKind st.rest ≠ .endOfFile)
    (hrun : statement fuel true st = .ok x st₁) (hrest : st₁.rest = mark :: others)
    (hmark : mark.kind = .semicolon) (hothers : headKind others ≠ .semicolon) :
    fileRest (fuel + 1) seen st = fileRest fuel (seen ++ [x]) { st₁ with rest := others } := by
  have hkind : ((st.peekAt 0).kind == TokenKind.endOfFile) = false := by
    rw [st.kind_peekAt]
    exact beq_false_of_ne hgo
  have hskip : skipSemicolons st₁ = .ok () { st₁ with rest := others } :=
    (skipSemicolons_cons hrest hmark).trans (skipSemicolons_eq hothers)
  rw [fileRest, bind_eq_of_eq_ok (peek_eq st), hkind, if_neg Bool.false_ne_true,
    bind_eq_of_eq_ok hrun, bind_eq_of_eq_ok hskip]

theorem fileRest_eq {ss : List PlainStmt} (hss : ∀ s ∈ ss, RereadsTop base s) (fuel : Nat)
    (seen : List Stmt) (st : State) (hfuel : 10 * (PlainStmt.wordsOfAll ss).length + 10 ≤ fuel)
    (hrest : st.rest.map Token.word = PlainStmt.wordsOfAll ss) (hready : Ready base st)
    (hfree : EnumsFree ss st.enums) :
    ∃ more st', fileRest fuel seen st = .ok (seen ++ more) st' ∧ st.made <+: st'.made ∧
      ∀ names, st'.Names base names → Stmt.plainOfAll? names more = some ss := by
  induction ss generalizing fuel seen st with
  | nil =>
      obtain ⟨fuel, rfl⟩ : ∃ k, fuel = k + 1 := ⟨fuel - 1, by omega⟩
      have hkind : (st.peekAt 0).kind = .endOfFile := by
        rw [st.kind_peekAt, headKind_eq_of_words hrest]
        rfl
      refine ⟨[], st, ?_, List.prefix_rfl, fun _ _ => rfl⟩
      rw [fileRest, bind_eq_of_eq_ok (peek_eq st), hkind, List.append_nil]
      rfl
  | cons s ss ih =>
      have hgo : headKind st.rest ≠ .endOfFile := by
        obtain ⟨w, ws, hw, hend⟩ := head_words s
        rw [headKind_eq_of_words hrest, PlainStmt.wordsOfAll, hw]
        simp_all
      rw [PlainStmt.wordsOfAll] at hfuel hrest
      rw [List.length_append, List.length_cons] at hfuel
      obtain ⟨fuel, rfl⟩ : ∃ k, fuel = k + 1 := ⟨fuel - 1, by omega⟩
      obtain ⟨used, tail, hsplit, hused, htail⟩ := List.map_eq_append_iff.mp hrest
      obtain ⟨mark, others, rfl, hmark, hothers⟩ := List.map_eq_cons_iff.mp htail
      have hkind : mark.kind = .semicolon := congrArg Word.kind hmark
      have hnext : headKind others ≠ .semicolon := by
        rw [headKind_eq_of_words hothers]
        exact headKind_wordsOfAll ss (by decide)
      obtain ⟨x, st₁, hrun, hrest₁, henums, hmade, hready₁, hsays⟩ :=
        hss s List.mem_cons_self fuel st used _ (by omega) hsplit hused hkind hready hfree.head
      obtain ⟨more, st', hrun', hmade', hmore⟩ :=
        ih (fun y hy => hss y (List.mem_cons_of_mem s hy)) fuel (seen ++ [x])
          { st₁ with rest := others } (by omega) hothers ⟨hready₁.aliases, hready₁.next⟩
          (henums ▸ hfree.tail)
      refine ⟨x :: more, st', ?_, hmade.trans hmade', ?_⟩
      · rw [fileRest_statement hgo hrun hrest₁ hkind hnext, hrun', List.append_assoc]
        rfl
      · intro names hnames
        have hx : x.plain? names = some s := hsays names (hnames.of_prefix hmade')
        rw [Stmt.plainOfAll?, hx, hmore names hnames]
        rfl

/-- A file is read back if none of its enums has a name that is taken. -/
theorem file_eq {ss : List PlainStmt} (hss : PlainStmt.isFile ss = true) {st : State}
    (hrest : st.rest.map Token.word = PlainStmt.wordsOfAll ss) (hready : Ready base st)
    (hnew : ∀ text ∈ ss.filterMap PlainStmt.enumName?, text ∉ st.enums) :
    ∃ xs st', file st = .ok xs st' ∧
      ∀ names, st'.Names base names → Stmt.plainOfAll? names xs = some ss := by
  rw [PlainStmt.isFile, Bool.and_eq_true, decide_eq_true_eq] at hss
  have hlength : st.rest.length = (PlainStmt.wordsOfAll ss).length := by
    rw [← hrest, List.length_map]
  have hskip : skipSemicolons st = .ok () st := by
    apply skipSemicolons_eq
    rw [headKind_eq_of_words hrest]
    exact headKind_wordsOfAll ss (by decide)
  have hfuel : 10 * (PlainStmt.wordsOfAll ss).length + 10 ≤ fuelFor st.rest.length := by
    rw [fuelFor, hlength]
    omega
  obtain ⟨xs, st', hrun, -, hxs⟩ :=
    fileRest_eq (fun s hs => rereadsTop (PlainStmt.isRegular_of_mem hss.1 hs)) _ [] st hfuel hrest
      hready ⟨hss.2, hnew⟩
  refine ⟨xs, st', ?_, hxs⟩
  have hget : (get : Parser State) st = .ok st st := rfl
  rw [file, bind_eq_of_eq_ok hget, bind_eq_of_eq_ok hskip]
  exact hrun

end Parser

namespace Program

/-- A source that spells the words of a file is read as this file. -/
theorem parseStatements_spells {p : Program} {n : NamespaceId} {ss : List PlainStmt}
    (hss : PlainStmt.isFile ss = true)
    (htext : Spells (PlainStmt.wordsOfAll ss) (p.spaceAt n).unit.text)
    (haliases : (p.spaceAt n).aliases = [])
    (hnew : ∀ text ∈ ss.filterMap PlainStmt.enumName?, (p.spaceAt n).enum? text = none) :
    ∃ xs p', parseStatements n p = .ok xs p' ∧
      Stmt.plainOfAll? (fun i => (p'.symbol i).name) xs = some ss := by
  obtain ⟨tokens, htokens, hwords⟩ := htext.exists_tokens
  have hrest : tokens.dropLast.map Token.word = PlainStmt.wordsOfAll ss := by
    rw [List.map_dropLast, hwords, List.dropLast_concat]
  have hready : Parser.Ready p.symbols.size (p.parserState n tokens) := ⟨haliases, rfl⟩
  have hfree : ∀ text ∈ ss.filterMap PlainStmt.enumName?,
      text ∉ (p.parserState n tokens).enums := by
    intro text hmem htaken
    obtain ⟨e, he, rfl⟩ := List.mem_map.mp htaken
    have hnone := hnew e.name hmem
    rw [Namespace.enum?, List.find?_eq_none] at hnone
    exact hnone e he (beq_self_eq_true e.name)
  obtain ⟨xs, s, hrun, hxs⟩ := Parser.file_eq hss hrest hready hfree
  refine ⟨xs, p.enact n s.declared.reverse, ?_, hxs _ (names_enact p n s)⟩
  have hget : (get : Linking Program) p = .ok p p := rfl
  rw [parseStatements, bind_eq_of_eq_ok hget]
  simp only [htokens, hrun]
  rfl

/-- Parsing undoes printing: the text of statements is read as the same statements, up to
offsets and symbols, by a namespace that has no imports and none of their enums. -/
theorem parse_print {p : Program} {n : NamespaceId} {names : SymbolId → Text} {xs : List Stmt}
    {ss : List PlainStmt} (hplain : Stmt.plainOfAll? names xs = some ss)
    (hfile : PlainStmt.isFile ss = true)
    (htext : (p.spaceAt n).unit.text = PlainStmt.print ss)
    (haliases : (p.spaceAt n).aliases = [])
    (henums : ∀ text ∈ ss.filterMap PlainStmt.enumName?, (p.spaceAt n).enum? text = none) :
    ∃ xs' p', parseStatements n p = .ok xs' p' ∧
      Stmt.plainOfAll? (fun i => (p'.symbol i).name) xs' = Stmt.plainOfAll? names xs := by
  have hregular : PlainStmt.areRegular ss true = true := (Bool.and_eq_true _ _ ▸ hfile).1
  have hspells := PlainStmt.spells_print hregular
  rw [← htext] at hspells
  rw [hplain]
  exact parseStatements_spells hfile hspells haliases henums

def sampleNames (i : SymbolId) : Text := (["f", "a", "b", "k", "x"] : List Text).getD i []

/-- Statements whose text needs parentheses around operands and around an object. -/
def sampleStatements : List Stmt :=
  [.enum 0 "E" ["A", "B"],
    .fn 0 "f" 0 [⟨"a", 1⟩, ⟨"b", 2⟩] 0
      [.return_ 0 (some (.binary 0 .equal
        (.binary 0 .mul (.binary 0 .add (.name 0 "a" .unbound) (.name 0 "b" .unbound)) (.number 0 2))
        (.binary 0 .sub (.name 0 "a" .unbound)
          (.binary 0 .sub (.name 0 "b" .unbound) (.number 0 1))))),
        .return_ 0 none] none,
    .setMember 0 (.object 0 [3] [.string 0 "\"\n"]) 3 (.unary 0 .neg (.name 0 "x" .unbound)),
    .if_ 0 (.object 0 [] []) 0 []
      (some (.if_ 0 (.bool 0 true) 0 [.let_ 0 "x" 4 (.nil 0) none] none)),
    .retain 0 ["k"]]

def sampleText : Text :=
  "enum E \x7b A , B \x7d ; fn f ( a , b ) \x7b return ( a + b ) * 2 == a - ( b - 1 ) ; " ++
    "return ; \x7d ; ( \x7b k : \"\\\"\\n\" \x7d ) . k = - x ; " ++
    "if \x7b \x7d \x7b \x7d else if true \x7b let x = nil ; \x7d ; retain k ;"

theorem parse_print_sample :
    (Stmt.plainOfAll? sampleNames sampleStatements).map PlainStmt.print = some sampleText ∧
    ∃ xs p, parseStatements 0 (Program.register {} ⟨sampleText, "/m.wv"⟩).2 = .ok xs p ∧
      Stmt.plainOfAll? (fun i => (p.symbol i).name) xs =
        Stmt.plainOfAll? sampleNames sampleStatements := by
  have hsample : (Stmt.plainOfAll? sampleNames sampleStatements).map
      (fun ss => (PlainStmt.isFile ss, PlainStmt.print ss)) = some (true, sampleText) := by
    decide +kernel
  cases hplain : Stmt.plainOfAll? sampleNames sampleStatements with
  | none =>
      rw [hplain] at hsample
      cases hsample
  | some ss =>
      rw [hplain] at hsample
      obtain ⟨hfile, htext⟩ := Prod.mk.inj (Option.some.inj hsample)
      refine ⟨congrArg some htext, ?_⟩
      rw [← hplain]
      exact parse_print hplain hfile htext.symm rfl fun _ _ => rfl

end Program

end Splice

import Splice.Proofs.Build.Emission
import Splice.Proofs.Build.Listing

/-!
# Where symbol reports say that bindings are read

A report shows each binding that is read with the number of its readers and with their rows and
columns.  After linking, the readers of a binding are all places that are left and read it, in
the file of the binding or in any other.  All rows and columns are worked out in the file that
the report is about, so those of the readers of this file are right, and that of a reader of
another file is right if and only if both files have the same row and column at its offset
(`Program.report_positions_exact`).
-/

namespace Splice

namespace SourceUnit

theorem row_le (u : SourceUnit) (offset : Int) : (u.position offset).1 ≤ u.lineStarts.length :=
  (List.takeWhile_sublist _).length_le

end SourceUnit

def reportMargin (depth : Nat) : Text := List.replicate (2 * depth) 32

/-- The line of a report that shows where a binding is read. -/
structure ReadLine where
  depth : Nat
  count : Nat
  positions : List (Nat × Nat)
deriving DecidableEq, Repr

namespace ReadLine

def text (line : ReadLine) : Text :=
  reportMargin line.depth ++ "  read " ++ Text.ofNat line.count ++ "x at " ++
    Text.join ", " (line.positions.map fun place => Text.ofNat place.1 ++ ":" ++ Text.ofNat place.2)

def ofUsage (unit : SourceUnit) (depth : Nat) (u : Usage) : ReadLine where
  depth
  count := u.readers.length
  positions := u.readers.map fun x => unit.position x.offset

end ReadLine

inductive ReportLine where
  | other (text : Text)
  | reads (line : ReadLine)
deriving DecidableEq, Repr

namespace ReportLine

def text : ReportLine → Text
  | other t => t
  | reads line => line.text

def reads? : ReportLine → Option ReadLine
  | other _ => none
  | reads line => some line

def written (lines : List ReportLine) : Text := Text.ended (lines.map text)

theorem written_nil : written [] = [] := rfl

theorem written_cons (line : ReportLine) (rest : List ReportLine) :
    written (line :: rest) = line.text ++ [Text.newline] ++ written rest := rfl

theorem written_append (a b : List ReportLine) : written (a ++ b) = written a ++ written b := by
  simp [written, Text.ended]

theorem written_flatMap {α : Type} (f : α → List ReportLine) (xs : List α) :
    written (xs.flatMap f) = xs.flatMap fun x => written (f x) := by
  induction xs with
  | nil => rfl
  | cons x rest ih => rw [List.flatMap_cons, written_append, ih, List.flatMap_cons]

end ReportLine

namespace Program

open ReportLine

def usageReport (unit : SourceUnit) (depth : Nat) (u : Usage) : List ReportLine :=
  let head : Text := reportMargin depth ++ "- " ++ u.id ++ " defined=" ++
    Text.ofBool u.defined ++ " truthy=" ++ truthText u.truth
  if u.isRead then [other head, reads (.ofUsage unit depth u)]
  else [other (head ++ " (never read)")]

theorem written_usageReport (unit : SourceUnit) (depth : Nat) (u : Usage) :
    written (usageReport unit depth u) = usageLines unit depth u := by
  have hpositions : readerPositions unit u.readers =
      Text.join ", " ((u.readers.map fun x => unit.position x.offset).map fun place =>
        Text.ofNat place.1 ++ ":" ++ Text.ofNat place.2) := by
    rw [List.map_map]
    rfl
  have hnewline : ("\n" : Text) = [Text.newline] := rfl
  have hnever : (" (never read)\n" : Text) = (" (never read)" : Text) ++ [Text.newline] := rfl
  unfold usageReport usageLines
  split
  · rw [written_cons, written_cons, written_nil, hpositions, hnewline]
    simp only [ReportLine.text, ReadLine.text, ReadLine.ofUsage, List.append_assoc, List.append_nil]
    rfl
  · rw [written_cons, written_nil, hnever]
    simp only [ReportLine.text, List.append_assoc, List.append_nil]
    rfl

def foreignReport (l : Ledger) (depth : Nat) (f : ForeignUsage) : ReportLine :=
  other ((foreignLine l depth f).dropLast)

theorem written_foreignReport (l : Ledger) (depth : Nat) (f : ForeignUsage) :
    written [foreignReport l depth f] = foreignLine l depth f := by
  have hend : ∃ t, foreignLine l depth f = t ++ [Text.newline] := ⟨_, rfl⟩
  obtain ⟨t, ht⟩ := hend
  rw [written_cons, written_nil, List.append_nil, foreignReport, ReportLine.text, ht,
    List.dropLast_concat]

def scopeReport (l : Ledger) (unit : SourceUnit) : (fuel depth : Nat) → ScopeId → List ReportLine
  | 0, _, _ => []
  | fuel + 1, depth, s =>
      let usages := sortedUsages l s
      other (reportMargin depth ++ Text.ofNat usages.length ++ " in scope") ::
        (usages.flatMap (usageReport unit depth) ++
          ((l.scope s).foreign.map l.foreignUsage).map (foreignReport l depth) ++
          (l.scope s).children.flatMap fun child =>
            other (reportMargin depth ++ "scope") ::
              scopeReport l unit fuel (depth + 1) child)

theorem written_scopeReport (l : Ledger) (unit : SourceUnit) (fuel depth : Nat) (s : ScopeId) :
    written (scopeReport l unit fuel depth s) = scopeLines l unit fuel depth s := by
  induction fuel generalizing depth s with
  | zero => rfl
  | succ fuel ih =>
      have hforeign : ∀ fs : List ForeignUsage, written (fs.map (foreignReport l depth)) =
          fs.flatMap (foreignLine l depth) := by
        intro fs
        rw [List.map_eq_flatMap, written_flatMap]
        exact List.flatMap_congr fun f _ => written_foreignReport l depth f
      have hchildren : ∀ children : List ScopeId,
          written (children.flatMap fun child =>
            other (reportMargin depth ++ "scope") ::
              scopeReport l unit fuel (depth + 1) child) =
            children.flatMap fun child => reportMargin depth ++ ("scope\n" : Text) ++
              scopeLines l unit fuel (depth + 1) child := by
        intro children
        rw [written_flatMap]
        refine List.flatMap_congr fun child _ => ?_
        rw [written_cons, ih, ReportLine.text, List.append_assoc (reportMargin _)]
        rfl
      have husages : written ((sortedUsages l s).flatMap (usageReport unit depth)) =
          (sortedUsages l s).flatMap (usageLines unit depth) := by
        rw [written_flatMap]
        exact List.flatMap_congr fun u _ => written_usageReport unit depth u
      rw [scopeReport, written_cons, written_append, written_append, husages, hforeign, hchildren,
        scopeLines]
      simp only [ReportLine.text, List.append_assoc]
      rfl

def shownScopes (l : Ledger) : (fuel depth : Nat) → ScopeId → List (Nat × ScopeId)
  | 0, _, _ => []
  | fuel + 1, depth, s =>
      (depth, s) :: (l.scope s).children.flatMap (shownScopes l fuel (depth + 1))

theorem mem_scopeReport {l : Ledger} {unit : SourceUnit} {fuel depth : Nat} {s : ScopeId}
    {line : ReadLine} :
    reads line ∈ scopeReport l unit fuel depth s ↔
      ∃ shown ∈ shownScopes l fuel depth s, ∃ u ∈ (l.scope shown.2).usages,
        (l.usage u).isRead = true ∧ line = .ofUsage unit shown.1 (l.usage u) := by
  induction fuel generalizing depth s with
  | zero => simp [scopeReport, shownScopes]
  | succ fuel ih =>
      have husages : reads line ∈ (sortedUsages l s).flatMap (usageReport unit depth) ↔
          ∃ u ∈ (l.scope s).usages, (l.usage u).isRead = true ∧
            line = .ofUsage unit depth (l.usage u) := by
        have husage : ∀ u : Usage, reads line ∈ usageReport unit depth u ↔
            u.isRead = true ∧ line = .ofUsage unit depth u := by
          intro u
          unfold usageReport
          split <;> simp_all
        simp only [List.mem_flatMap, sortedUsages, List.mem_mergeSort, husage, List.mem_map,
          exists_exists_and_eq_and]
      simp only [scopeReport, shownScopes, List.mem_cons, List.mem_append, List.mem_flatMap,
        List.mem_map, husages, ih, foreignReport, reduceCtorEq, false_or, and_false, exists_false,
        or_false, exists_eq_or_imp]
      refine or_congr Iff.rfl ⟨?_, ?_⟩
      · rintro ⟨child, hchild, shown, hshown, hrest⟩
        exact ⟨shown, ⟨child, hchild, hshown⟩, hrest⟩
      · rintro ⟨shown, ⟨child, hchild, hshown⟩, hrest⟩
        exact ⟨child, hchild, shown, hshown, hrest⟩

def reportedScopes (p : Program) (t : Tree) : List (Nat × ScopeId) :=
  match t.root with
  | none => []
  | some root => shownScopes p.ledger (p.ledger.scopes.size + 1) 1 root

def reportLines (p : Program) (t : Tree) : List ReportLine :=
  let ns := p.spaceAt t.owner
  other ("symbols of " ++ ns.id) ::
    match t.root with
    | none => [other "  (not analyzed)"]
    | some root => scopeReport p.ledger ns.unit (p.ledger.scopes.size + 1) 1 root

theorem written_reportLines (p : Program) (t : Tree) :
    written (p.reportLines t) = p.symbolReport t := by
  unfold reportLines symbolReport
  rw [written_cons]
  cases t.root with
  | none => rfl
  | some root =>
      dsimp only
      rw [written_scopeReport]
      rfl

theorem mem_reportLines {p : Program} {t : Tree} {line : ReadLine} :
    reads line ∈ p.reportLines t ↔
      ∃ shown ∈ p.reportedScopes t, ∃ u ∈ (p.ledger.scope shown.2).usages,
        (p.ledger.usage u).isRead = true ∧
          line = .ofUsage (p.spaceAt t.owner).unit shown.1 (p.ledger.usage u) := by
  unfold reportLines reportedScopes
  cases t.root with
  | none => simp
  | some root => simp [mem_scopeReport]

/-! ## The reports of a build -/

theorem yields_emitPhases_reports {p : Program} {trees : List Tree} (o : BuildOptions)
    (symbols : List MangleEntry) :
    Yields (emitPhases o symbols trees) p fun r _ =>
      ∃ enumLines, r.reports = (pruned o trees p).2.reports o (pruned o trees p).1.1 ++ enumLines := by
  simp only [emitPhases, yields_bind]
  refine (yields_pruneIfAsked o trees).mono ?_
  intro x p₁ hx
  rw [← hx]
  simp only [yields_get]
  refine (yields_mapFailure (yields_self _)).mono ?_
  intro codes p₂ _
  simp only [yields_pure]
  exact ⟨_, rfl⟩

/-- The row and the column of a reader in the file that contains it. -/
def placeOf (p : Program) (x : Reader) : Nat × Nat := (p.spaceAt x.file).unit.position x.offset

/-- A line of the report on a tree shows the reads of a binding: those that are left in the
program, each once, at places that are worked out in the file of the tree. -/
structure ShowsReads (p : Program) (trees : List Tree) (t : Tree) (line : ReadLine)
    (u : UsageId) : Prop where
  scope : ∃ shown ∈ p.reportedScopes t, shown.1 = line.depth ∧
    u ∈ (p.ledger.scope shown.2).usages
  once : (p.ledger.usage u).readers.Nodup
  readers : ∀ x, x ∈ (p.ledger.usage u).readers ↔ p.ReadAt trees u x
  count : line.count = (p.ledger.usage u).readers.length
  positions : line.positions =
    (p.ledger.usage u).readers.map fun x => (p.spaceAt t.owner).unit.position x.offset

namespace ShowsReads

variable {p : Program} {trees : List Tree} {t : Tree} {line : ReadLine} {u : UsageId}

/-- A line is right if and only if both files have each reader from another file at the same
row and column. -/
theorem right_iff (h : p.ShowsReads trees t line u) :
    line.positions = (p.ledger.usage u).readers.map p.placeOf ↔
      ∀ x, p.ReadAt trees u x → x.file ≠ t.owner →
        (p.spaceAt t.owner).unit.position x.offset = p.placeOf x := by
  rw [h.positions, List.map_inj_left]
  constructor
  · intro hall x hx _
    exact hall x ((h.readers x).mpr hx)
  · intro hall x hx
    by_cases hfile : x.file = t.owner
    · rw [placeOf, hfile]
    · exact hall x ((h.readers x).mp hx) hfile

/-- A reader below the last row of the reported file is never shown where it stands. -/
theorem not_right_of_below (h : p.ShowsReads trees t line u) {x : Reader}
    (hx : p.ReadAt trees u x)
    (hbelow : (p.spaceAt t.owner).unit.lineStarts.length < (p.placeOf x).1) :
    line.positions ≠ (p.ledger.usage u).readers.map p.placeOf := by
  intro hright
  rw [h.positions, List.map_inj_left] at hright
  have hsame := congrArg Prod.fst (hright x ((h.readers x).mpr hx))
  have hrow := SourceUnit.row_le (p.spaceAt t.owner).unit x.offset
  exact absurd hbelow (Nat.not_lt.mpr (hsame ▸ hrow))

end ShowsReads

theorem exists_showsReads {p : Program} {trees : List Tree} {t : Tree} {line : ReadLine}
    (haccounted : p.Accounted trees) (hline : reads line ∈ p.reportLines t) :
    ∃ u, p.ShowsReads trees t line u := by
  obtain ⟨shown, hshown, u, hu, -, rfl⟩ := mem_reportLines.mp hline
  exact ⟨u, ⟨shown, hshown, rfl, hu⟩, haccounted.usage_nodup u, haccounted.usage u, rfl, rfl⟩

/-- The reports of a build on its symbols.  Every line on reads is about a binding of the
reported file and shows as many places as it counts, one for each read that is left.  They are
right if and only if both files have each reader from another file at the same row and column,
and wrong if one of them stands below the last row.  Every binding that is read has a line. -/
theorem report_positions_exact {loader : Loader} {workingDir : Text} {cancelled : Bool}
    {o : BuildOptions} {entry : Text} {readPattern : PatternReader} {r : BuildResult}
    (h : build loader workingDir cancelled o entry readPattern = .ok r)
    (hsymbols : o.analyseSymbols = true) :
    ∃ p₀ symbols found p₁ trees p enumLines, create workingDir o.retain readPattern = .ok p₀ ∧
      linkPhases loader cancelled o entry p₀ = .ok (symbols, found) p₁ ∧
      trees = (pruned o found p₁).1.1 ∧ p = (pruned o found p₁).2 ∧
      r.reports = (trees.flatMap fun t =>
        (if o.analyseAst then [p.outline t] else []) ++ [written (p.reportLines t)]) ++ enumLines ∧
      ∀ t ∈ trees,
        (∀ line, reads line ∈ p.reportLines t →
          line.positions.length = line.count ∧ ∃ u, p.ShowsReads trees t line u ∧
            (line.positions = (p.ledger.usage u).readers.map p.placeOf ↔
              ∀ x, p.ReadAt trees u x → x.file ≠ t.owner →
                (p.spaceAt t.owner).unit.position x.offset = p.placeOf x) ∧
            ∀ x, p.ReadAt trees u x →
              (p.spaceAt t.owner).unit.lineStarts.length < (p.placeOf x).1 →
              line.positions ≠ (p.ledger.usage u).readers.map p.placeOf) ∧
        ∀ shown ∈ p.reportedScopes t, ∀ u ∈ (p.ledger.scope shown.2).usages,
          (∃ x, p.ReadAt trees u x) →
            ∃ line, reads line ∈ p.reportLines t ∧ p.ShowsReads trees t line u := by
  obtain ⟨p₀, symbols, found, p₁, p', hcreate, hlink, hemit⟩ := exists_run_of_build h
  obtain ⟨enumLines, hreports⟩ := yields_emitPhases_reports o symbols r p' hemit
  have haccounted : (pruned o found p₁).2.Accounted (pruned o found p₁).1.1 := by
    obtain ⟨passes, hpasses⟩ := exists_passes o found p₁
    have hafter := accounted_after_passes loader workingDir cancelled o entry hcreate hlink passes
    rw [← hpasses] at hafter
    exact hafter
  refine ⟨p₀, symbols, found, p₁, _, _, enumLines, hcreate, hlink, rfl, rfl, ?_, ?_⟩
  · rw [hreports, reports]
    congr 1
    refine List.flatMap_congr fun t _ => ?_
    rw [hsymbols, written_reportLines]
    rfl
  · intro t _
    constructor
    · intro line hline
      obtain ⟨u, hshows⟩ := exists_showsReads haccounted hline
      have hcount : line.positions.length = line.count := by
        rw [hshows.positions, List.length_map, hshows.count]
      exact ⟨hcount, u, hshows, hshows.right_iff, fun x hx => hshows.not_right_of_below hx⟩
    · intro shown hshown u hu hread
      have hisRead := (haccounted.isRead u).mpr hread
      exact ⟨_, mem_reportLines.mpr ⟨shown, hshown, u, hu, hisRead, rfl⟩,
        ⟨shown, hshown, rfl, hu⟩, haccounted.usage_nodup u, haccounted.usage u, rfl, rfl⟩

/-- A library that reads its own name, and a program that reads it further down. -/
def strayedSources : List (Text × Text) :=
  [("/s.wv", "let a = 1\n$p(a)\n"), ("/m.wv", "\n\n$p(a)\n")]

def strayedOptions : BuildOptions := { analyseSymbols := true, stdPath := "/s.wv" }

set_option maxRecDepth 100000 in
theorem report_positions_sample :
    ∃ r p₀ symbols found p₁ trees p enumLines,
      build (.ofSources strayedSources) "/" false strayedOptions "/m.wv" = .ok r ∧
      create "/" [] = .ok p₀ ∧
      linkPhases (.ofSources strayedSources) false strayedOptions "/m.wv" p₀ =
        .ok (symbols, found) p₁ ∧
      trees = (pruned strayedOptions found p₁).1.1 ∧ p = (pruned strayedOptions found p₁).2 ∧
      r.reports = (trees.flatMap fun t => [written (p.reportLines t)]) ++ enumLines ∧
      ∀ t ∈ trees, ∀ line, reads line ∈ p.reportLines t →
        line.positions.length = line.count ∧ ∃ u, p.ShowsReads trees t line u := by
  have hruns : (build (.ofSources strayedSources) "/" false strayedOptions "/m.wv").isOk =
      true := by
    decide +kernel
  obtain ⟨r, hbuild⟩ := exists_of_isOk hruns
  obtain ⟨p₀, symbols, found, p₁, trees, p, enumLines, hcreate, hlink, htrees, hp, hreports,
    hall⟩ := report_positions_exact hbuild rfl
  refine ⟨r, p₀, symbols, found, p₁, trees, p, enumLines, hbuild, hcreate, hlink, htrees, hp,
    hreports, ?_⟩
  intro t ht line hline
  obtain ⟨hcount, u, hshows, -⟩ := (hall t ht).1 line hline
  exact ⟨hcount, u, hshows⟩

set_option maxRecDepth 100000 in
/-- The second read of `a` stands in the third row of the program, at the fourth column.  The
report has it at the sixth column of the first row. -/
theorem merged_reader_misplaced :
    ∃ r p₀ symbols trees p, build (.ofSources strayedSources) "/" false strayedOptions "/m.wv" =
        .ok r ∧
      r.reports.head? = some (Text.ofString
        "symbols of s\n  1 in scope\n  - s:a defined=true truthy=true\n    read 2x at 2:4, 1:6\n") ∧
      create "/" [] = .ok p₀ ∧
      linkPhases (.ofSources strayedSources) false strayedOptions "/m.wv" p₀ =
        .ok (symbols, trees) p ∧
      (trees.map fun t => (p.reportLines t).filterMap reads?) = [[⟨1, 2, [(2, 4), (1, 6)]⟩], []] ∧
      (p.ledger.usage 0).id = Text.ofString "s:a" ∧ (p.ledger.usage 0).readers = [⟨0, 13⟩, ⟨1, 5⟩] ∧
      (p.ledger.usage 0).readers.map p.placeOf = [(2, 4), (3, 4)] := by
  have hreports : (build (.ofSources strayedSources) "/" false strayedOptions "/m.wv").toOption.map
      (fun r => r.reports.head?) = some (some (Text.ofString
        "symbols of s\n  1 in scope\n  - s:a defined=true truthy=true\n    read 2x at 2:4, 1:6\n")) := by
    decide +kernel
  have hlinks : (answer? (linkPhases (.ofSources strayedSources) false strayedOptions "/m.wv"
      { workingDir := "/" })).map (fun x => decide (
        (x.1.2.map fun t => (x.2.reportLines t).filterMap reads?) =
          [[⟨1, 2, [(2, 4), (1, 6)]⟩], []] ∧
        (x.2.ledger.usage 0).id = Text.ofString "s:a" ∧
        (x.2.ledger.usage 0).readers = [⟨0, 13⟩, ⟨1, 5⟩] ∧
        (x.2.ledger.usage 0).readers.map x.2.placeOf = [(2, 4), (3, 4)])) = some true := by
    decide +kernel
  obtain ⟨r, hr, hhead⟩ := Option.map_eq_some_iff.mp hreports
  obtain ⟨result, p, hlink, hfound⟩ := exists_of_answer? hlinks
  exact ⟨r, _, result.1, result.2, p, toOption_eq_some_iff.mp hr, hhead, rfl, hlink,
    of_decide_eq_true hfound⟩

end Program

end Splice

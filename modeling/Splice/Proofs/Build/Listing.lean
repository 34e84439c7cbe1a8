import Splice.Build.Listing
import Splice.Proofs.Build.EnumTable
import Splice.Proofs.Build.Lifecycle

/-!
# The listing of a build

A listing is put together from parts: each registration of an enum entry is encoded and
read back on its own, and so is the code of each namespace, while the program is one run of
bytes.  The parts are written for well-shaped instructions, so each is read back as the
instructions that it has in the program, and an instruction is shown on one line that is
not empty.  So the lines of a listing, without those that name a part, are the lines of the
whole program (`Program.listing_shows_program`).
-/

namespace Splice

namespace Text

variable {ts : List Text}

/-- The lines of a text.  An empty text has none. -/
def lines (t : Text) : List Text := if t.isEmpty then [] else splitAt newline t

theorem join_ne_nil {separator : Text} (hts : ∀ t ∈ ts, t ≠ []) (hne : ts ≠ []) :
    join separator ts ≠ [] := by
  cases ts with
  | nil => exact absurd rfl hne
  | cons t rest =>
      have ht := hts t List.mem_cons_self
      cases rest with
      | nil => exact ht
      | cons u rest => simp [join, ht]

theorem lines_join (hlines : ∀ t ∈ ts, IsLine t) (hts : ∀ t ∈ ts, t ≠ []) :
    lines (join [newline] ts) = ts := by
  by_cases hne : ts = []
  · rw [hne]
    rfl
  · rw [lines, if_neg (by simpa using join_ne_nil hts hne)]
    exact splitAt_join hlines hne

def ended (ts : List Text) : Text := ts.flatMap fun t => t ++ [newline]

theorem join_append_newline (hne : ts ≠ []) : join [newline] ts ++ [newline] = ended ts := by
  induction ts with
  | nil => exact absurd rfl hne
  | cons t rest ih =>
      cases rest with
      | nil => simp [join, ended]
      | cons u rest =>
          have hrest := ih (List.cons_ne_nil u rest)
          calc
            join [newline] (t :: u :: rest) ++ [newline] =
                t ++ [newline] ++ (join [newline] (u :: rest) ++ [newline]) := by simp [join]
            _ = ended (t :: u :: rest) := by rw [hrest]; rfl

theorem ended_join (hts : ∀ t ∈ ts, t ≠ []) :
    (if (join [newline] ts).isEmpty then [] else join [newline] ts ++ [newline]) = ended ts := by
  by_cases hne : ts = []
  · rw [hne]
    rfl
  · rw [if_neg (by simpa using join_ne_nil hts hne), join_append_newline hne]

end Text

namespace Instr

theorem render_ne_nil (i : Instr) : i.render ≠ [] := by
  have hparen : ∀ head parts, parenthesised head parts ≠ [] := by
    intro head parts h
    rw [parenthesised, List.append_assoc] at h
    exact absurd (List.append_eq_nil_iff.mp h).1 (by decide)
  cases i with
  | number n =>
      rw [render, Text.ofInt64, Text.ofInt]
      split
      · exact List.cons_ne_nil _ _
      · simp [Text.ofNat_eq_map, Nat.toDigits_ne_nil]
  | string t => exact List.cons_ne_nil _ _
  | enum name value => exact hparen _ _
  | syscall name args => exact hparen _ _
  | node op operands =>
      simp only [render]
      split
      · exact hparen _ _
      · split
        · cases op <;> decide
        · exact hparen _ _

/-- The texts of instructions, none of which spans lines, are the lines of their listing. -/
theorem lines_renderAll {is : List Instr} (h : ∀ t ∈ renderAll is, Text.IsLine t) :
    Text.lines (Text.join [Text.newline] (renderAll is)) = renderAll is := by
  refine Text.lines_join h fun t ht => ?_
  rw [renderAll_eq_map] at ht
  obtain ⟨i, -, rfl⟩ := List.mem_map.mp ht
  exact i.render_ne_nil

end Instr

inductive ListingLine where
  | header (text : Text)
  | instruction (text : Text)
deriving DecidableEq, Repr

namespace ListingLine

def text : ListingLine → Text
  | header t => t
  | instruction t => t

def instruction? : ListingLine → Option Text
  | header _ => none
  | instruction t => some t

def written (lines : List ListingLine) : Text := Text.ended (lines.map text)

theorem written_append (a b : List ListingLine) : written (a ++ b) = written a ++ written b := by
  simp [written, Text.ended]

theorem written_flatten (parts : List (List ListingLine)) :
    written parts.flatten = (parts.map written).flatten := by
  induction parts with
  | nil => rfl
  | cons part rest ih => rw [List.flatten_cons, written_append, ih, List.map_cons, List.flatten_cons]

theorem written_map {α : Type} (f : α → ListingLine) (xs : List α) :
    written (xs.map f) = (xs.map fun x => written [f x]).flatten := by
  simp [written, Text.ended, List.flatMap_def, Function.comp_def]

theorem map_text_instruction (ts : List Text) : (ts.map instruction).map text = ts := by
  rw [List.map_map]
  exact List.map_id _

theorem filterMap_instruction (ts : List Text) :
    (ts.map instruction).filterMap instruction? = ts := by
  rw [List.filterMap_map]
  exact List.filterMap_some

end ListingLine

open ListingLine in
/-- What a listing has of a namespace whose instructions are shown by some texts. -/
def NamespaceCode.shownAs (n : NamespaceCode) (ts : List Text) : List ListingLine :=
  header ("; namespace " ++ n.id ++ " (" ++ n.location ++ ")") :: ts.map instruction

namespace BuildResult

open ListingLine

def shownTable (r : BuildResult) : List ListingLine :=
  if r.enumTable.isEmpty then []
  else header "; enum table" :: r.enumTable.map fun row =>
    instruction (Instr.enum row.1 row.2).render

/-- The lines of a listing: the enum table, and each namespace with the texts of its
instructions. -/
def shownAs (r : BuildResult) (spaces : List (List Text)) : List ListingLine :=
  r.shownTable ++ (List.zipWith NamespaceCode.shownAs r.namespaces spaces).flatten

theorem written_shownTable (r : BuildResult) :
    written r.shownTable =
      (if r.enumTable.isEmpty then [] else ("; enum table\n" : Text)) ++
        (r.enumTable.map fun row =>
          written [instruction (Instr.enum row.1 row.2).render]).flatten := by
  unfold shownTable
  split
  · next h =>
      rw [List.isEmpty_iff.mp h]
      rfl
  · rw [← written_map]
    rfl

theorem filterMap_instruction_shownTable (r : BuildResult) :
    r.shownTable.filterMap instruction? =
      Instr.renderAll (r.enumTable.map fun row => .enum row.1 row.2) := by
  unfold shownTable
  split
  · next h =>
      rw [List.isEmpty_iff.mp h]
      rfl
  · rw [List.filterMap_cons_none rfl, List.filterMap_map, Instr.renderAll_eq_map, List.map_map]
    exact congrFun List.filterMap_eq_map r.enumTable

theorem filterMap_instruction_zipWith {namespaces : List NamespaceCode} {spaces : List (List Text)}
    (h : namespaces.length = spaces.length) :
    (List.zipWith NamespaceCode.shownAs namespaces spaces).flatten.filterMap instruction? =
      spaces.flatten := by
  induction namespaces generalizing spaces with
  | nil =>
      rw [List.length_nil, eq_comm, List.length_eq_zero_iff] at h
      rw [h]
      rfl
  | cons n rest ih =>
      cases spaces with
      | nil => cases h
      | cons ts others =>
          rw [List.zipWith_cons_cons, List.flatten_cons, List.filterMap_append,
            ih (Nat.succ.inj h), NamespaceCode.shownAs, List.filterMap_cons_none rfl,
            filterMap_instruction, List.flatten_cons]

/-! ## What the parts are written as -/

theorem mapM_eq_ok {α β ε : Type} {f : α → Except ε β} {xs : List α} {ys : List β}
    (h : List.Forall₂ (fun x y => f x = .ok y) xs ys) : xs.mapM f = .ok ys := by
  induction h with
  | nil => rfl
  | cons hfirst _ ih =>
      rw [List.mapM_cons, hfirst, ih]
      rfl

theorem enumLine_eq {row : Text × Int64}
    (h : (Code.enum row.1 row.2).length ≤ Instr.maxCount) :
    enumLine row = .ok (written [instruction (Instr.enum row.1 row.2).render]) := by
  have hcode : Code.enum row.1 row.2 = Instr.encodeAll [.enum row.1 row.2] :=
    (List.append_nil _).symm
  have hread : (Code.enum row.1 row.2).instrs = .ok [.enum row.1 row.2] := by
    rw [hcode] at h ⊢
    exact Code.instrs_encodeAll rfl h
  rw [enumLine, Code.disassemble, hread]
  simp [Except.map, Instr.renderAll, Text.join, written, Text.ended, text]

theorem namespaceLines_eq {n : NamespaceCode} {is : List Instr} (h : n.code.instrs = .ok is) :
    namespaceLines n = .ok (written (n.shownAs (Instr.renderAll is))) := by
  have hne : ∀ t ∈ Instr.renderAll is, t ≠ [] := by
    intro t ht
    rw [Instr.renderAll_eq_map] at ht
    obtain ⟨i, -, rfl⟩ := List.mem_map.mp ht
    exact i.render_ne_nil
  rw [namespaceLines, listingLines, Code.disassemble, h]
  simp only [Except.map, Except.mapError, bind, Except.bind, Text.ended_join hne]
  rw [written, NamespaceCode.shownAs, List.map_cons, map_text_instruction]
  simp [Text.ended, text]
  rfl

theorem isLine_of_mem_table {table : List (Text × Int64)} {t : Text}
    (h : t ∈ Instr.renderAll (table.map fun row => .enum row.1 row.2)) : Text.IsLine t := by
  rw [Instr.renderAll_eq_map, List.map_map] at h
  obtain ⟨row, -, rfl⟩ := List.mem_map.mp h
  exact Instr.isLine_parenthesised (by decide)
    (by simp [Text.isLine_quote, Text.isLine_ofInt64])

theorem forall₂_namespaceLines {namespaces : List NamespaceCode} {spaces : List (List Instr)}
    (h : namespaces.map (fun n => n.code.instrs) = spaces.map .ok) :
    List.Forall₂ (fun n t => namespaceLines n = .ok t) namespaces
      ((List.zipWith NamespaceCode.shownAs namespaces (spaces.map Instr.renderAll)).map
        written) := by
  induction namespaces generalizing spaces with
  | nil => exact .nil
  | cons n rest ih =>
      cases spaces with
      | nil => cases h
      | cons is others =>
          rw [List.map_cons, List.map_cons, List.cons.injEq] at h
          exact .cons (namespaceLines_eq h.1) (ih h.2)

theorem length_enum_le {r : BuildResult} {spaces : List (List Instr)} (h : r.Emits spaces)
    {row : Text × Int64} (hrow : row ∈ r.enumTable) :
    (Code.enum row.1 row.2).length ≤ r.code.length := by
  rw [h.code, Instr.encodeAll_append, Program.encodeAll_enums, List.length_append]
  refine Nat.le_trans ?_ (Nat.le_add_right ..)
  rw [List.flatMap_def]
  have hmem : Code.enum row.1 row.2 ∈ r.enumTable.map fun e => Code.enum e.1 e.2 :=
    List.mem_map_of_mem (f := fun e : Text × Int64 => Code.enum e.1 e.2) hrow
  exact (List.sublist_flatten_of_mem hmem).length_le

/-- A build that emits some instructions, each of which is shown on one line, is listed with
these lines, and so is its whole code. -/
theorem Emits.shown {r : BuildResult} {spaces : List (List Instr)} (h : r.Emits spaces)
    (hlength : r.code.length ≤ Instr.maxCount)
    (hlines : ∀ is ∈ spaces, ∀ t ∈ Instr.renderAll is, Text.IsLine t) :
    let texts := spaces.map Instr.renderAll
    r.namespaces.map (fun n => n.code.disassemble.map Text.lines) = texts.map .ok ∧
      r.listing = .ok (written (r.shownAs texts)) ∧
      r.code.disassemble.map Text.lines = .ok ((r.shownAs texts).filterMap instruction?) := by
  intro texts
  obtain ⟨hwhole, hparts⟩ := h.decoded hlength
  have hcount : r.namespaces.length = spaces.length := by
    simpa using congrArg List.length hparts
  refine ⟨?_, ?_, ?_⟩
  · have hread : r.namespaces.map (fun n => n.code.disassemble.map Text.lines) =
        (r.namespaces.map fun n => n.code.instrs).map fun x =>
          (x.map fun is => Text.join [Text.newline] (Instr.renderAll is)).map Text.lines := by
      rw [List.map_map]
      rfl
    rw [hread, hparts, List.map_map, List.map_map]
    refine List.map_congr_left fun is his => ?_
    exact congrArg Except.ok (Instr.lines_renderAll (hlines is his))
  · have htable : r.enumTable.mapM enumLine = .ok (r.enumTable.map fun row =>
        written [instruction (Instr.enum row.1 row.2).render]) := by
      refine mapM_eq_ok (List.forall₂_map_right_iff.mpr (List.forall₂_same.mpr fun row hrow => ?_))
      exact enumLine_eq ((length_enum_le h hrow).trans hlength)
    rw [listing, htable, mapM_eq_ok (forall₂_namespaceLines hparts)]
    rw [shownAs, written_append, written_flatten, written_shownTable]
    rfl
  · rw [Code.disassemble, hwhole, shownAs, List.filterMap_append,
      filterMap_instruction_shownTable, filterMap_instruction_zipWith (by simpa [texts] using hcount)]
    have hflat : texts.flatten = Instr.renderAll spaces.flatten := by
      have hmap : Instr.renderAll = List.map Instr.render := funext Instr.renderAll_eq_map
      rw [hmap, List.map_flatten, ← hmap]
    have hall : ∀ t ∈ Instr.renderAll
        (r.enumTable.map (fun e => .enum e.1 e.2) ++ spaces.flatten), Text.IsLine t := by
      rw [Instr.renderAll_append, ← hflat]
      intro t ht
      rcases List.mem_append.mp ht with htable | hspace
      · exact isLine_of_mem_table htable
      · obtain ⟨ts, hts, ht⟩ := List.mem_flatten.mp hspace
        obtain ⟨is, his, rfl⟩ := List.mem_map.mp hts
        exact hlines is his t ht
    rw [hflat, ← Instr.renderAll_append]
    exact congrArg Except.ok (Instr.lines_renderAll hall)

end BuildResult

namespace Program

variable {p q : Program} {trees : List Tree} {loader : Loader} {workingDir : Text}
  {cancelled : Bool} {o : BuildOptions} {entry : Text} {r : BuildResult}
  {readPattern : PatternReader}

theorem lasting_made : Lasting fun _ d => ∀ t ∈ d.trees, t.Made where
  opens _ _ h := h
  read _ _ hparse h t ht := by
    rcases List.mem_append.mp ht with hold | hnew
    · exact h t hold
    · rw [List.mem_singleton.mp hnew]
      exact .parsed hparse
  place _ _ h := h

theorem yields_checkAll_made (h : ∀ t ∈ trees, t.Made) :
    Yields (checkAll trees) p fun trees' _ => ∀ t ∈ trees', t.Made := by
  refine (yields_checkAll_of (motive := fun done rest _ => ∀ t ∈ done ++ rest, t.Made) ?_ [] trees
    h).mono ?_
  · intro done t rest p t' p' hall hcheck u hu
    have hchecked : t' = (check t p).1.1 := by rw [hcheck]
    rw [List.append_assoc, List.singleton_append, List.mem_append, List.mem_cons] at hu
    rcases hu with hdone | rfl | hrest
    · exact hall u (List.mem_append_left _ hdone)
    · rw [hchecked]
      exact .checked (hall t (List.mem_append_right _ List.mem_cons_self)) p
    · exact hall u (List.mem_append_right _ (List.mem_cons_of_mem _ hrest))
  · intro trees' q hall
    simpa using hall

theorem made_pruneAll (p : Program) (h : ∀ t ∈ trees, t.Made) :
    ∀ t ∈ (pruneAll trees p).1.1, t.Made := by
  induction trees generalizing p with
  | nil => exact h
  | cons t rest ih =>
      rw [List.forall_mem_cons] at h
      rw [pruneAll_cons]
      exact List.forall_mem_cons.mpr ⟨.pruned h.1 p, ih _ h.2⟩

theorem made_pruned (o : BuildOptions) (p : Program) (h : ∀ t ∈ trees, t.Made) :
    ∀ t ∈ (pruned o trees p).1.1, t.Made := by
  have hpasses : ∀ k trees p, (∀ t ∈ trees, t.Made) →
      ∀ t ∈ (afterPasses k (trees, p)).1, t.Made := by
    intro k
    induction k with
    | zero => exact fun _ _ h => h
    | succ k ih => exact fun trees p h => ih _ _ (made_pruneAll p h)
  obtain ⟨passes, heq⟩ := exists_passes o trees p
  rw [show (pruned o trees p).1.1 = (afterPasses passes (trees, p)).1 from congrArg Prod.fst heq]
  exact hpasses passes trees p h

/-- The trees that are linked were read from sources and analysed. -/
theorem made_of_linkPhases {p₀ : Program} {symbols : List MangleEntry}
    (hcreate : create workingDir o.retain readPattern = .ok p₀)
    (hlink : linkPhases loader cancelled o entry p₀ = .ok (symbols, trees) q) :
    ∀ t ∈ trees, t.Made := by
  obtain ⟨-, d, p₁, p₂, p₃, p₄, hrun⟩ := exists_linkRun hlink
  obtain ⟨hpristine, huntargeted⟩ := pristine_create hcreate
  have hfound := lasting_made.discover _ false o.stdPath entry hpristine huntargeted
    (content_create hcreate) (List.forall_mem_nil _) d p₁ hrun.discover
  refine yields_checkAll_made (fun t ht => ?_) trees p₄ hrun.check
  obtain ⟨n, -, hn⟩ := List.mem_filterMap.mp ht
  exact hfound t (List.mem_of_find?_eq_some hn)

/-- The listing of a build shows its program.  The listing has a part for the enum table and
one for each namespace, which are shown with their instructions, and the lines of all
instructions, one after another, are the lines of the whole code. -/
theorem listing_shows_program (h : build loader workingDir cancelled o entry readPattern = .ok r)
    (hlength : r.code.length ≤ Instr.maxCount) :
    ∃ spaces : List (List Text),
      r.namespaces.map (fun n => n.code.disassemble.map Text.lines) = spaces.map .ok ∧
      r.listing = .ok (ListingLine.written (r.shownAs spaces)) ∧
      r.code.disassemble.map Text.lines =
        .ok ((r.shownAs spaces).filterMap ListingLine.instruction?) := by
  obtain ⟨p₀, symbols, trees, p, p', hcreate, hlink, hemit⟩ := exists_run_of_build h
  obtain ⟨hemits, -⟩ := yields_emitPhases o symbols trees r p' hemit
  refine ⟨_, hemits.shown hlength ?_⟩
  intro is his
  obtain ⟨t, ht, rfl⟩ := List.mem_map.mp his
  rw [codeOf, Stmt.renderAll_instrs]
  exact Stmt.isLine_listedAll t.statements
    (made_pruned o p (made_of_linkPhases hcreate hlink) t ht).callInLine

def entryListing : Text :=
  "; enum table\n(enum \"s:S.Q\" 2)\n(enum \"l:F.B\" 8)\n(enum \"m:E.Z\" 5)\n" ++
    "; namespace s (/s.wv)\n; namespace l (/l.wv)\n; namespace m (/m.wv)\n" ++
    "(pop (syscall print 2 8 5))\n"

set_option maxRecDepth 100000 in
theorem listing_shows_program_sample :
    ∃ r spaces, build (.ofSources entrySources) "/" false entryOptions "/m.wv" = .ok r ∧
      r.code.length = 39 ∧
      r.namespaces.map (fun n => n.code.disassemble.map Text.lines) = spaces.map .ok ∧
      r.listing = .ok (ListingLine.written (r.shownAs spaces)) ∧
      r.listing.toOption = some entryListing ∧
      r.code.disassemble.map Text.lines =
        .ok ((r.shownAs spaces).filterMap ListingLine.instruction?) := by
  have hruns : (build (.ofSources entrySources) "/" false entryOptions "/m.wv").toOption.map
      (fun r => (r.code.length, r.listing.toOption)) = some (39, some entryListing) := by
    decide +kernel
  obtain ⟨r, hr, hshown⟩ := Option.map_eq_some_iff.mp hruns
  obtain ⟨hcount, hlisting⟩ := Prod.mk.inj hshown
  have hbuild := toOption_eq_some_iff.mp hr
  have hlength : r.code.length ≤ Instr.maxCount := hcount.trans_le (by decide)
  obtain ⟨spaces, hspaces, hwritten, hwhole⟩ := listing_shows_program hbuild hlength
  exact ⟨r, spaces, hbuild, hcount, hspaces, hwritten, hlisting, hwhole⟩

end Program

end Splice

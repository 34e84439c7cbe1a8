import Splice.Proofs.Build.Twins
import Splice.Proofs.Program.Renaming
import Splice.Proofs.Tree.Renaming

/-!
# Mangling renames

A build with numbers for names and one without find the same files.  From then on
their runs are twins: they end in the same failure, or both succeed with the same
trees.  Every symbol that is written for such a tree belongs to a namespace of the
build or is a property, so the table of numbers tells its text, and reading the table
backwards turns the code with numbers into the code without.
-/

namespace Splice

/-- The code of a build with numbers for names, and with some properties retained, is
the code of the build without, renamed. -/
structure BuildResult.Renames (plain mangled : BuildResult) (retained : Text → Bool) : Prop where
  /-- No two names share a number. -/
  codes : (mangled.symbols.map MangleEntry.code).Nodup
  /-- Retained properties are given no number. -/
  literal : ∀ e ∈ mangled.symbols, e.kind = .property → retained e.name = false
  /-- With the texts of the table for its numbers the code is the code without, and
  what it has texts for is retained. -/
  code : ∃ spaces spaces', plain.Emits spaces ∧ mangled.Emits spaces' ∧
    spaces'.map (Instr.relabelAll (MangleEntry.restore mangled.symbols)) = spaces ∧
    ∀ space ∈ spaces', ∀ text, .string text ∈ Instr.symbolsOfAll space → retained text = true

namespace Program

variable {p q : Program} {d : Discovery} {trees : List Tree} {readPattern : PatternReader}

def finish (o : BuildOptions) (d : Discovery) (entries : List MangleEntry) :
    Linking BuildResult := do
  let trees ← analysePhases d
  emitPhases o entries trees

def outcome : EStateM.Result Failure Program BuildResult → Except Failure BuildResult
  | .ok r _ => .ok r
  | .error e _ => .error e

section

variable {loader : Loader} {workingDir : Text} {cancelled : Bool} {o : BuildOptions}
  {entry : Text} {p₀ : Program}

theorem build_eq_outcome (hcreate : create workingDir o.retain readPattern = .ok p₀) (b : Bool) :
    build loader workingDir cancelled { o with mangle := b } entry readPattern =
      outcome ((findPhases loader cancelled o entry >>= fun d => do
        let entries ← mangleIfAsked { o with mangle := b } d.order
        finish o d entries) p₀) := by
  have hphases : buildPhases loader cancelled { o with mangle := b } entry =
      (findPhases loader cancelled o entry >>= fun d => do
        let entries ← mangleIfAsked { o with mangle := b } d.order
        finish o d entries) := by
    rw [buildPhases_eq]
    simp only [linkPhases, finish, bind_assoc, pure_bind]
    rfl
  unfold build
  simp only [bind, Except.bind, hcreate, hphases]
  rfl

theorem build_eq_error (hcreate : create workingDir o.retain readPattern = .ok p₀) {e : Failure}
    {q : Program} (hfind : findPhases loader cancelled o entry p₀ = .error e q) (b : Bool) :
    build loader workingDir cancelled { o with mangle := b } entry readPattern = .error e := by
  rw [build_eq_outcome hcreate]
  simp only [bind, EStateM.bind, hfind]
  rfl

theorem build_plain_eq (hcreate : create workingDir o.retain readPattern = .ok p₀)
    (hfind : findPhases loader cancelled o entry p₀ = .ok d q) :
    build loader workingDir cancelled { o with mangle := false } entry readPattern =
      outcome (finish o d [] q) := by
  rw [build_eq_outcome hcreate]
  simp only [bind, EStateM.bind, hfind]
  rfl

theorem mangle_eq_withSymbols (q : Program) (order : List NamespaceId) :
    (q.mangle order).2 = q.withSymbols (q.mangle order).2.symbols := by
  obtain ⟨symbols, hsymbols⟩ := exists_mangleGroups_eq q (q.manglePool order).zipIdx
  rw [mangle_snd, hsymbols]
  rfl

theorem build_mangled_eq (hcreate : create workingDir o.retain readPattern = .ok p₀)
    (hfind : findPhases loader cancelled o entry p₀ = .ok d q) :
    build loader workingDir cancelled { o with mangle := true } entry readPattern =
      outcome (finish o d (q.mangle d.order).1
        (q.withSymbols (q.mangle d.order).2.symbols)) := by
  rw [build_eq_outcome hcreate, ← mangle_eq_withSymbols]
  simp only [bind, EStateM.bind, hfind]
  rfl

/-- There are at most as many entries as names. -/
theorem length_mangle_le (q : Program) (order : List NamespaceId) :
    (q.mangle order).1.length ≤ (q.nameGroups order).length := by
  have hpool : (q.manglePool order).length ≤ (q.nameGroups order).length := by
    rw [manglePool]
    apply (List.length_filter_le ..).trans
    rw [List.length_mergeSort]
  simpa [mangle] using hpool

theorem symbols_of_build_mangled (hcreate : create workingDir o.retain readPattern = .ok p₀)
    (hfind : findPhases loader cancelled o entry p₀ = .ok d q) {r : BuildResult}
    (hbuild : build loader workingDir cancelled { o with mangle := true } entry readPattern =
      .ok r) :
    r.symbols = (q.mangle d.order).1 := by
  rw [build_mangled_eq hcreate hfind] at hbuild
  cases hfinish : finish o d (q.mangle d.order).1
      (q.withSymbols (q.mangle d.order).2.symbols) with
  | error e q' =>
      rw [hfinish] at hbuild
      cases hbuild
  | ok r' q' =>
      rw [hfinish] at hbuild
      cases hbuild
      obtain ⟨trees, p, -, hemit⟩ := exists_of_bind_eq_ok hfinish
      obtain ⟨-, -, hsymbols⟩ := yields_emitPhases o (q.mangle d.order).1 trees r q' hemit
      exact hsymbols

end

theorem twin_finish (symbols : Array Symbol) (o : BuildOptions) (d : Discovery)
    (entries : List MangleEntry) :
    Twin symbols SameButCode (finish o d []) (finish o d entries) :=
  Blind.bind (blind_analysePhases d) fun trees => twin_emitPhases o [] entries trees

def numbered (p q : Program) (order : List NamespaceId) : Program :=
  p.withSymbols (q.mangle order).2.symbols

/-- Every symbol that is written for a tree is in the table, or retained. -/
theorem InOrder.matches (h : InOrder p p.IsRead trees) (hq : Discovers q d) (hkeeps : q.Keeps p)
    (howners : ∀ t ∈ trees, t.owner ∈ d.order) {t : Tree} (ht : t ∈ trees) :
    p.coding.Matches (p.numbered q d.order).coding
      (MangleEntry.Renamed (q.mangle d.order).1 q.isRetainedName)
      (Stmt.mentionsOfAll t.statements) := by
  have hspaces : ∀ n ∈ d.order, n < q.namespaces.size := fun n hn => hq.lt (hq.seen n hn)
  have hplain : ∀ s, p.coding.operand s = q.operand s := by
    intro s
    change p.operand s = q.operand s
    rw [operand, operand, symbol, symbol, hkeeps.symbols]
  -- The symbols of the namespaces of the build, and the properties.
  have hnamed : ∀ n ∈ d.order, ∀ name, ∀ s ∈ p.symbolsOf n name,
      MangleEntry.Renamed (q.mangle d.order).1 q.isRetainedName (p.coding.operand s)
        ((p.numbered q d.order).coding.operand s) := by
    intro n hn name s hs
    rw [hkeeps.symbolsOf] at hs
    rw [hplain]
    exact hq.pristine.renamed_of_mem_symbolsOf hspaces hq.order hn hs
  have hproperty : ∀ name, ∀ s ∈ p.properties.members name,
      MangleEntry.Renamed (q.mangle d.order).1 q.isRetainedName (p.coding.operand s)
        ((p.numbered q d.order).coding.operand s) := by
    intro name s hs
    rw [hkeeps.properties] at hs
    rw [hplain]
    exact hq.pristine.renamed_of_mem_properties hspaces hq.order hs
  have hloaded : ∀ r ∈ (p.spaceAt t.owner).references, ∀ s ∈ p.coding.loaded r,
      MangleEntry.Renamed (q.mangle d.order).1 q.isRetainedName (p.coding.operand s)
        ((p.numbered q d.order).coding.operand s) := by
    intro r hr s hs
    obtain ⟨m, root, hleads, hdenoted⟩ := h.denotes t ht r hr
    obtain ⟨t', ht', hm⟩ := h.rooted m root hleads.rooted
    simp only [Coding.loaded, coding] at hs
    cases hvalue : (p.reference r).resolution with
    | unresolved =>
        rw [hvalue] at hs
        cases hs
    | entry space enum name value =>
        rw [hvalue] at hs
        cases hs
    | value s' =>
        rw [hvalue] at hs hdenoted
        rw [List.mem_singleton.mp hs]
        exact hnamed m (hm ▸ howners t' ht') _ s' hdenoted.2
  obtain ⟨root, hsound⟩ := h.sound t ht
  refine ⟨rfl, ?_⟩
  intro m hm s hs
  have hvalid := hsound.valid m hm
  cases m with
  | name o n read =>
      cases read with
      | own symbol usage =>
          rw [List.mem_singleton.mp hs]
          exact hnamed _ (howners t ht) n symbol hvalid
      | std r record => exact hloaded r hvalid.1 s hs
      | unbound => cases hs
  | imported o r record => exact hloaded r hvalid.1 s hs
  | property symbol =>
      obtain ⟨name, hmem⟩ := hvalid
      rw [List.mem_singleton.mp hs]
      exact hproperty name symbol hmem
  | binding n symbol =>
      rw [List.mem_singleton.mp hs]
      exact hnamed _ (howners t ht) n symbol hvalid

/-! ## Two builds -/

theorem relabelAll_codeOf (h : InOrder p p.IsRead trees) (hq : Discovers q d)
    (hkeeps : q.Keeps p) (howners : ∀ t ∈ trees, t.owner ∈ d.order)
    (hbound : (q.mangle d.order).1.length ≤ 2 ^ 64) :
    (trees.map (p.numbered q d.order).codeOf).map
        (Instr.relabelAll (MangleEntry.restore (q.mangle d.order).1)) =
      trees.map p.codeOf := by
  rw [List.map_map]
  apply List.map_congr_left
  intro t ht
  have hcorrespond := Stmt.correspondAll_instrs t.statements (h.matches hq hkeeps howners ht)
  apply hcorrespond.relabel_eq
  intro x y hxy
  exact hxy.restore_eq (nodup_codes hbound)

theorem isRetainedName_of_mem_symbols (h : InOrder p p.IsRead trees) (hq : Discovers q d)
    (hkeeps : q.Keeps p) (howners : ∀ t ∈ trees, t.owner ∈ d.order) :
    ∀ space ∈ trees.map (p.numbered q d.order).codeOf, ∀ text,
      .string text ∈ Instr.symbolsOfAll space → q.isRetainedName text = true := by
  intro space hspace text htext
  obtain ⟨t, ht, rfl⟩ := List.mem_map.mp hspace
  have hcorrespond := Stmt.correspondAll_instrs t.statements (h.matches hq hkeeps howners ht)
  obtain ⟨x, hrenamed⟩ := hcorrespond.exists_of_mem_symbols htext
  rcases hrenamed with ⟨e, -, -, hnumber⟩ | ⟨name, hretained, -, hname⟩
  · cases hnumber
  · cases hname
    exact hretained

/-- What the phases after the numbering make of one program, with and without numbers. -/
theorem finish_renames (hq : Discovers q d) {o : BuildOptions} {plain mangled : BuildResult}
    {q₁ q₂ : Program} (hplain : finish o d [] q = .ok plain q₁)
    (hmangled : finish o d (q.mangle d.order).1
      (q.withSymbols (q.mangle d.order).2.symbols) = .ok mangled q₂)
    (hbound : mangled.symbols.length ≤ 2 ^ 64) :
    plain.Renames mangled q.isRetainedName := by
  -- Both runs come to the same trees, and to programs that differ in the symbols.
  obtain ⟨trees, p, hanalyse, hemit⟩ := exists_of_bind_eq_ok hplain
  obtain ⟨trees', p', hanalyse', hemit'⟩ := exists_of_bind_eq_ok hmangled
  obtain ⟨htrees, hp'⟩ := Twin.of_ok (blind_analysePhases d) hanalyse hanalyse'
  subst htrees hp'
  obtain ⟨horder, hkeeps, howners⟩ := yields_analysePhases hq q.symbols trees p hanalyse
  obtain ⟨hemits, -⟩ := yields_emitPhases o [] trees plain q₁ hemit
  obtain ⟨hemits', -, hsymbols⟩ :=
    yields_emitPhases o (q.mangle d.order).1 trees mangled q₂ hemit'
  rw [pruned_withSymbols] at hemits'
  have hsettles := settles_pruned horder.wellFormed o trees
  have hpruned := horder.pruned o
  have hkept : q.Keeps (pruned o trees p).2 := Keeps.trans hkeeps hsettles.toKeeps
  have hmember : ∀ t ∈ (pruned o trees p).1.1, t.owner ∈ d.order := by
    intro t ht
    obtain ⟨root, hsound⟩ := hpruned.sound t ht
    have hroot := hsound.rooted
    rw [hsettles.roots] at hroot
    obtain ⟨t', ht', howner⟩ := horder.rooted _ _ hroot
    rw [← howners, ← howner]
    exact List.mem_map_of_mem ht'
  have hspaces : ∀ n ∈ d.order, n < q.namespaces.size := fun n hn => hq.lt (hq.seen n hn)
  rw [hsymbols] at hbound
  constructor
  · rw [hsymbols]
    exact nodup_codes hbound
  · rw [hsymbols]
    intro e he hkind
    exact hq.pristine.isRetainedName_of_mem hspaces he hkind
  · rw [hsymbols]
    refine ⟨_, _, hemits, hemits', ?_, ?_⟩
    · exact relabelAll_codeOf hpruned hq hkept hmember hbound
    · exact isRetainedName_of_mem_symbols hpruned hq hkept hmember

/-- Whether a build keeps a property name: a pattern of its options matches the name, or
one of its files retains it. -/
def retainedIn (loader : Loader) (workingDir : Text) (cancelled : Bool) (o : BuildOptions)
    (entry : Text) (readPattern : PatternReader) (name : Text) : Bool :=
  match create workingDir o.retain readPattern with
  | .error _ => false
  | .ok p₀ =>
      match findPhases loader cancelled o entry p₀ with
      | .error _ _ => false
      | .ok _ p => p.isRetainedName name

/-- The outcomes of builds without and with numbers for names: the same failure, or two
successes that have everything but the code in common.  The code is renamed, if there
are no more names than numbers. -/
inductive SameUpToNames (retained : Text → Bool) :
    Except Failure BuildResult → Except Failure BuildResult → Prop where
  | ok {plain mangled : BuildResult} (same : SameButCode plain mangled)
      (renames : mangled.symbols.length ≤ 2 ^ 64 → plain.Renames mangled retained) :
      SameUpToNames retained (.ok plain) (.ok mangled)
  | error (e : Failure) : SameUpToNames retained (.error e) (.error e)

/-- Two builds that differ in mangling only are the same up to names. -/
theorem mangling_renames (loader : Loader) (workingDir : Text) (cancelled : Bool)
    (o : BuildOptions) (entry : Text) (readPattern : PatternReader) :
    SameUpToNames (retainedIn loader workingDir cancelled o entry readPattern)
      (build loader workingDir cancelled { o with mangle := false } entry readPattern)
      (build loader workingDir cancelled { o with mangle := true } entry readPattern) := by
  cases hcreate : create workingDir o.retain readPattern with
  | error e =>
      simp only [build, hcreate, bind, Except.bind]
      exact .error e
  | ok p₀ =>
      obtain ⟨hpristine, huntargeted⟩ := pristine_create hcreate
      cases hfind : findPhases loader cancelled o entry p₀ with
      | error e q =>
          rw [build_eq_error hcreate hfind, build_eq_error hcreate hfind]
          exact .error e
      | ok d q =>
          have hdiscovers :=
            yields_findPhases loader cancelled o entry hpristine huntargeted d q hfind
          have hretained : retainedIn loader workingDir cancelled o entry readPattern =
              q.isRetainedName := by
            funext name
            simp only [retainedIn, hcreate, hfind]
          have htwin := twin_finish (q.mangle d.order).2.symbols o d (q.mangle d.order).1 q
          rw [build_plain_eq hcreate hfind, build_mangled_eq hcreate hfind, hretained]
          cases hplain : finish o d [] q with
          | ok plain q₁ =>
              cases hmangled : finish o d (q.mangle d.order).1
                  (q.withSymbols (q.mangle d.order).2.symbols) with
              | ok mangled q₂ =>
                  rw [hplain, hmangled] at htwin
                  exact .ok htwin.1 (finish_renames hdiscovers hplain hmangled)
              | error e q₂ =>
                  rw [hplain, hmangled] at htwin
                  cases htwin
          | error e q₁ =>
              cases hmangled : finish o d (q.mangle d.order).1
                  (q.withSymbols (q.mangle d.order).2.symbols) with
              | ok mangled q₂ =>
                  rw [hplain, hmangled] at htwin
                  cases htwin
              | error e' q₂ =>
                  rw [hplain, hmangled] at htwin
                  rw [htwin.1]
                  exact .error e

def propertySources : List (Text × Text) :=
  [("/s.wv", "let a = 1\n"),
    ("/m.wv", "retain k\nfn f(q) \x7b\n  return q.k + q.l + a\n\x7d\n$print(f(4))\n")]

theorem SameUpToNames.exists_of_ok {retained : Text → Bool} {plain : BuildResult}
    {x y : Except Failure BuildResult} (h : SameUpToNames retained x y) (hx : x = .ok plain) :
    ∃ mangled, y = .ok mangled ∧
      (mangled.symbols.length ≤ 2 ^ 64 → plain.Renames mangled retained) := by
  cases h with
  | ok same renames =>
      cases hx
      exact ⟨_, rfl, renames⟩
  | error e => cases hx

def findsNames (bound : Nat) : EStateM.Result Failure Program Discovery → Bool
  | .ok d q => (q.nameGroups d.order).length ≤ bound
  | .error _ _ => false

theorem exists_of_findsNames {bound : Nat} {x : EStateM.Result Failure Program Discovery}
    (h : findsNames bound x = true) :
    ∃ d q, x = .ok d q ∧ (q.nameGroups d.order).length ≤ bound := by
  cases x with
  | error e q => cases h
  | ok d q => exact ⟨d, q, rfl, of_decide_eq_true h⟩

set_option maxRecDepth 100000 in
theorem mangling_renames_sample :
    ∃ plain mangled,
      build (.ofSources propertySources) "/" false
        { mangle := false, stdPath := "/s.wv" } "/m.wv" = .ok plain ∧
      build (.ofSources propertySources) "/" false
        { mangle := true, stdPath := "/s.wv" } "/m.wv" = .ok mangled ∧
      plain.Renames mangled
        (retainedIn (.ofSources propertySources) "/" false { stdPath := "/s.wv" } "/m.wv"
          Glob.reader) := by
  have hruns : (build (.ofSources propertySources) "/" false
      { mangle := false, stdPath := "/s.wv" } "/m.wv").isOk = true := by decide +kernel
  obtain ⟨plain, hplain⟩ := exists_of_isOk hruns
  obtain ⟨mangled, hmangled, hrenames⟩ := (mangling_renames (.ofSources propertySources) "/"
    false { stdPath := "/s.wv" } "/m.wv" Glob.reader).exists_of_ok hplain
  have hfinds : findsNames 100 (findPhases (.ofSources propertySources) false
      { stdPath := "/s.wv" } "/m.wv" { workingDir := "/" }) = true := by decide +kernel
  obtain ⟨d, q, hfind, hnames⟩ := exists_of_findsNames hfinds
  have hcreate := create_nil "/" Glob.reader
  have hsymbols := symbols_of_build_mangled hcreate hfind hmangled
  have hlength := length_mangle_le q d.order
  rw [← hsymbols] at hlength
  exact ⟨plain, mangled, hplain, hmangled, hrenames (by omega)⟩

end Program

end Splice

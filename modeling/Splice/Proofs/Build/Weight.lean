import Splice.Proofs.Build.Identities
import Splice.Proofs.Build.Renaming
import Splice.Proofs.Tree.Operands

/-!
# How often names are written

Names are given numbers by how often they are used: the weight of a name is the number of
its symbols.  Every symbol is that of one mention in the trees of the build, and is written
at one place of the code, so the weight of a name is how often its number is written.  An
access to an entry of an enum is the exception.  It is read as an access to a property, for
which a symbol is made, long before it is known to be one of an enum, and then nothing is
written for that symbol.  So the weight of a property is too large by the number of entries
that are read by its name, and a name that only entries have is given a number in vain.
-/

namespace Splice

def Instr.isNumber (k : Int64) : Instr → Bool
  | number n => n == k
  | _ => false

/-- How often a number stands where some code takes symbols. -/
def Instr.occurrences (k : Int64) (is : List Instr) : Nat :=
  (symbolsOfAll is).countP (isNumber k)

/-- The member that an expression accesses is mentioned. -/
theorem Expr.mem_mentions_of_property? {x : Expr} {s : SymbolId} (h : x.property? = some s) :
    .property s ∈ x.mentions := by
  cases x with
  | imported o r m record =>
      rw [show m = some s from h]
      exact List.mem_cons_of_mem _ List.mem_cons_self
  | member o y text q entry =>
      cases h
      exact List.mem_append_right _ List.mem_cons_self
  | _ => cases h

namespace Program

variable {p p' q : Program} {n m : NamespaceId} {d : Discovery} {s : SymbolId}
  {spaces : List NamespaceId} {trees : List Tree} {readPattern : PatternReader}

/-- No symbol is met twice in a group, and none has a number yet. -/
structure Unnumbered (p : Program) : Prop where
  names : ∀ n name, (p.symbolsOf n name).Nodup
  properties : ∀ name, (p.properties.members name).Nodup
  number : ∀ s, (p.symbol s).number = none

theorem Unnumbered.of_same (h : p.Unnumbered) (hsymbols : p'.symbols = p.symbols)
    (hproperties : p'.properties = p.properties)
    (hgroups : ∀ n, (p'.spaceAt n).groups = (p.spaceAt n).groups) : p'.Unnumbered where
  names n name := by
    rw [symbolsOf, hgroups]
    exact h.names n name
  properties name := by
    rw [hproperties]
    exact h.properties name
  number s := by
    rw [symbol, hsymbols]
    exact h.number s

theorem Unnumbered.modifySpace (h : p.Unnumbered) (n : NamespaceId) {f : Namespace → Namespace}
    (hf : ∀ ns, (f ns).groups = ns.groups) : (p.modifySpace n f).Unnumbered :=
  h.of_same rfl rfl fun m => spaceAt_modifySpace_same p n m f Namespace.groups hf

theorem Unnumbered.addSymbol (h : p.Unnumbered) (hp : p.Pristine) (n : NamespaceId)
    (name : Text) : (p.addSymbol n name).2.Unnumbered where
  names m other := by
    rw [symbolsOf_addSymbol]
    split
    · refine (h.names m other).append (List.nodup_singleton _) ?_
      rw [List.disjoint_singleton]
      exact fun hmem => lt_irrefl _ (hp.symbol_lt m other _ hmem)
    · rw [List.append_nil]
      exact h.names m other
  properties := h.properties
  number s := by
    rw [symbol_addSymbol]
    split
    · unfold Symbol.ofName
      split <;> rfl
    · exact h.number s

theorem Unnumbered.addProperty (h : p.Unnumbered) (hp : p.Pristine) (name : Text) :
    (p.addProperty name).2.Unnumbered where
  names := h.names
  properties other := by
    rw [members_addProperty]
    split
    · refine (h.properties other).append (List.nodup_singleton _) ?_
      rw [List.disjoint_singleton]
      exact fun hmem => lt_irrefl _ (hp.property_lt other _ hmem)
    · rw [List.append_nil]
      exact h.properties other
  number s := by
    rw [symbol_addProperty]
    split
    · rfl
    · exact h.number s

theorem Unnumbered.retainProperty (h : p.Unnumbered) (name : Text) :
    (p.retainProperty name).Unnumbered where
  names := by
    rw [retainProperty_eq]
    exact h.names
  properties := by
    rw [retainProperty_eq]
    exact h.properties
  number s := by
    rw [symbol_retainProperty]
    split
    · simp [Symbol.retain, h.number]
    · exact h.number s

/-- Discovery gives no numbers. -/
theorem durable_unnumbered : Durable Unnumbered where
  opens hopens h := by
    have hproperties : ∀ {p p' : Program}, Opens p p' → p'.properties = p.properties := by
      intro p p' hopens
      cases hopens <;> rfl
    exact h.of_same hopens.same.1 (hproperties hopens)
      (hopens.part Namespace.groups (fun _ _ _ => rfl) fun _ _ _ _ => rfl)
  enactOne n declaration hp h := by
    cases declaration with
    | symbol name => exact h.addSymbol hp n name
    | property name => exact h.addProperty hp name
    | reference qualifier name member offset =>
        exact Unnumbered.modifySpace (by exact h.of_same rfl rfl fun _ => rfl) n fun _ => rfl
    | import_ qualifier path offset => exact h.modifySpace n fun _ => rfl
    | generatedAlias => exact h.of_same rfl rfl fun _ => rfl
    | enum name offset => exact h.modifySpace n fun _ => rfl
    | entry enum entry => exact h.modifySpace n fun _ => rfl
    | retain name => exact h.retainProperty name
  retarget _ _ h := h.of_same rfl rfl fun _ => rfl

theorem Unnumbered.nodup_members (h : p.Unnumbered) {g : NameGroup} (hg : p.IsGroup g) :
    g.members.Nodup := by
  rcases hg with ⟨n, -, -, hmembers⟩ | ⟨-, hmembers⟩
  · rw [hmembers]
    exact h.names n g.name
  · rw [hmembers]
    exact h.properties g.name

theorem unnumbered_create {workingDir : Text} {patterns : List Text}
    (h : create workingDir patterns readPattern = .ok p) : p.Unnumbered := by
  obtain ⟨globs, rfl⟩ := exists_create_eq h
  exact ⟨fun _ _ => List.nodup_nil, fun _ => List.nodup_nil, fun _ => rfl⟩

/-- A program whose names are about to be given numbers, of which there are enough. -/
structure Numberable (p : Program) (spaces : List NamespaceId) : Prop where
  pristine : p.Pristine
  unnumbered : p.Unnumbered
  lt : ∀ n ∈ spaces, n < p.namespaces.size
  nodup : spaces.Nodup
  enough : (p.mangle spaces).1.length ≤ 2 ^ 64

namespace Numberable

variable {g : NameGroup} {code : Nat} {e : MangleEntry}

theorem isGroup (h : p.Numberable spaces) (hg : (g, code) ∈ (p.manglePool spaces).zipIdx) :
    p.IsGroup g ∧ p.isMangled g = true := by
  have hmem : g ∈ p.manglePool spaces := List.fst_mem_of_mem_zipIdx hg
  obtain ⟨hgroup, hmangled⟩ := mem_manglePool.mp hmem
  exact ⟨h.pristine.isGroup h.lt hgroup, hmangled⟩

/-- The symbols of a name in the pool are written as its number. -/
theorem operand_eq (h : p.Numberable spaces) (hg : (g, code) ∈ (p.manglePool spaces).zipIdx)
    (hs : s ∈ g.members) : (p.mangle spaces).2.operand s = .number (Int64.ofNat code) := by
  obtain ⟨hgroup, hmangled⟩ := h.isGroup hg
  obtain ⟨x, hsymbol, -, hkind⟩ := h.pristine.exists_symbol_eq hgroup
  rw [isMangled_eq hsymbol hs, Bool.not_eq_true'] at hmangled
  have htakes : x.takesNumber = true := by
    rcases hkind with ⟨hkind, -, -⟩ | ⟨hkind, -, -⟩
    · simp [Symbol.takesNumber, hmangled, hkind]
    · simp [Symbol.takesNumber, hmangled, hkind]
  rw [operand, h.pristine.symbol_mangle h.lt h.nodup hg hs, hsymbol s hs, operand_mangle htakes]

/-- A symbol is written as the number of a name exactly if it belongs to the name. -/
theorem isNumber_operand_iff (h : p.Numberable spaces)
    (hg : (g, code) ∈ (p.manglePool spaces).zipIdx) :
    ((p.mangle spaces).2.operand s).isNumber (Int64.ofNat code) = true ↔ s ∈ g.members := by
  constructor
  · intro hnumber
    by_cases hpool : ∃ h ∈ (p.manglePool spaces).zipIdx, s ∈ h.1.members
    · obtain ⟨⟨g', code'⟩, hg', hs⟩ := hpool
      rw [h.operand_eq hg' hs, Instr.isNumber, beq_iff_eq] at hnumber
      -- Names that share a number are one name.
      have hcodes := nodup_codes h.enough
      rw [mangle, List.map_map] at hcodes
      cases List.inj_on_of_nodup_map hcodes hg' hg hnumber
      exact hs
    · have hsame : (p.mangle spaces).2.symbol s = p.symbol s := by
        rw [mangle_snd]
        exact symbol_mangleGroups_of_not_mem fun h hh hs => hpool ⟨h, hh, hs⟩
      rw [operand, hsame, operand_of_number_eq_none (h.unnumbered.number s)] at hnumber
      cases hnumber
  · intro hs
    rw [h.operand_eq hg hs, Instr.isNumber, beq_self_eq_true]

/-- If every symbol is written once, a name is written as often as its entry says. -/
theorem countP_operand (h : p.Numberable spaces) (he : e ∈ (p.mangle spaces).1) :
    ((List.range p.symbols.size).map (p.mangle spaces).2.operand).countP
      (Instr.isNumber e.code) = e.uses := by
  obtain ⟨g, code, hg, rfl⟩ := mem_mangle_fst.mp he
  obtain ⟨hgroup, -⟩ := h.isGroup hg
  rw [List.countP_map, List.countP_eq_length_filter]
  refine List.Perm.length_eq ?_
  refine (List.perm_ext_iff_of_nodup (List.nodup_range.filter _)
    (h.unnumbered.nodup_members hgroup)).mpr fun s => ?_
  rw [List.mem_filter, List.mem_range, Function.comp_apply]
  have hiff := h.isNumber_operand_iff (s := s) hg
  exact ⟨fun hs => hiff.mp hs.2, fun hs => ⟨h.pristine.member_lt hgroup hs, hiff.mpr hs⟩⟩

/-- A property is not written as the number of a name of a namespace. -/
theorem isNumber_property (h : p.Numberable spaces) (he : e ∈ (p.mangle spaces).1)
    (hkind : e.kind = .namespaced) {name : Text} (hs : s ∈ p.properties.members name) :
    ((p.mangle spaces).2.operand s).isNumber e.code = false := by
  obtain ⟨g, code, hg, rfl⟩ := mem_mangle_fst.mp he
  rw [Bool.eq_false_iff]
  intro hnumber
  have hmember := (h.isNumber_operand_iff hg).mp hnumber
  obtain ⟨x, hsymbol, -, -⟩ := h.pristine.exists_symbol_eq (h.isGroup hg).1
  rw [kind_mangleEntry hsymbol hmember, ← hsymbol s hmember,
    h.pristine.property_eq name s hs] at hkind
  cases hkind

end Numberable

/-- A name without symbols is given no number. -/
theorem uses_pos {e : MangleEntry} (he : e ∈ (p.mangle spaces).1) : 0 < e.uses := by
  obtain ⟨g, code, hg, rfl⟩ := mem_mangle_fst.mp he
  have hmem : g ∈ p.manglePool spaces := List.fst_mem_of_mem_zipIdx hg
  have hmangled := (mem_manglePool.mp hmem).2
  refine List.length_pos_iff.mpr fun hnil => ?_
  rw [isMangled, hnil] at hmangled
  cases hmangled

/-! ## Linked trees -/

/-- The symbol that was made for an access that turned out to name an entry of an enum. -/
def idle? (p : Program) (n : NamespaceId) (x : Expr) : Option SymbolId :=
  (p.namedEntry? n x).bind fun _ => x.property?

def idleSymbols (p : Program) (trees : List Tree) : List SymbolId :=
  trees.flatMap fun t => t.exprs.filterMap (p.idle? t.owner)

/-- Every symbol that the trees mention is written in their code or is idle. -/
theorem writes_codeOf (trees : List Tree)
    (hapt : ∀ t ∈ trees, ∀ x ∈ t.exprs, x.Apt (p.checkContext t.owner))
    (hnamed : ∀ t ∈ trees, ∀ x ∈ t.exprs,
      p.namedEntry? t.owner x = x.entryUse? p.coding (p.spaceAt t.owner).id) :
    p.coding.Writes (mentionsOf trees) (Instr.symbolsOfAll (trees.flatMap p.codeOf))
      (p.idleSymbols trees) := by
  induction trees with
  | nil => exact .nil
  | cons t rest ih =>
      have hfirst := Stmt.writes_instrs p.coding (p.spaceAt t.owner).id t.statements
        (hapt t List.mem_cons_self)
      have hidle : Expr.idle p.coding (p.spaceAt t.owner).id t.exprs =
          t.exprs.filterMap (p.idle? t.owner) := by
        refine List.filterMap_congr fun x hx => ?_
        rw [idle?, hnamed t List.mem_cons_self x hx]
        rfl
      have hrest := ih (fun u hu => hapt u (List.mem_cons_of_mem _ hu))
        fun u hu => hnamed u (List.mem_cons_of_mem _ hu)
      rw [List.flatMap_cons, Instr.symbolsOfAll_append, idleSymbols, List.flatMap_cons, ← hidle]
      exact hfirst.append hrest

section

variable {loader : Loader} {workingDir : Text} {o : BuildOptions} {entry : Text}
  {p₀ p₁ p₂ p₃ p₄ : Program} {symbols : List MangleEntry}

theorem LinkRun.mangled (h : LinkRun loader o entry p₀ d p₁ p₂ p₃ p₄ symbols trees q)
    (hmangle : o.mangle = true) :
    symbols = (p₂.mangle d.order).1 ∧ p₃ = (p₂.mangle d.order).2 := by
  have hrun := h.mangle
  simp only [mangleIfAsked, hmangle, if_true] at hrun
  cases hrun
  exact ⟨rfl, rfl⟩

theorem LinkRun.unnumbered (h : LinkRun loader o entry p₀ d p₁ p₂ p₃ p₄ symbols trees q)
    (hcreate : create workingDir o.retain readPattern = .ok p₀) : p₂.Unnumbered := by
  obtain ⟨hpristine, huntargeted⟩ := pristine_create hcreate
  have hdiscovered := durable_unnumbered.lasting.discover _ false o.stdPath entry hpristine
    huntargeted (content_create hcreate) (unnumbered_create hcreate) d p₁ h.discover
  have hsame := yields_assignEnumValues () p₂ h.assign
  exact hdiscovered.of_same hsame.symbols hsame.properties hsame.groups

theorem LinkRun.numberable (h : LinkRun loader o entry p₀ d p₁ p₂ p₃ p₄ symbols trees q)
    (hcreate : create workingDir o.retain readPattern = .ok p₀) (hmangle : o.mangle = true)
    (hbound : symbols.length ≤ 2 ^ 64) : p₂.Numberable d.order where
  pristine := (h.discovers hcreate).pristine
  unnumbered := h.unnumbered hcreate
  lt n hn := (h.discovers hcreate).lt ((h.discovers hcreate).seen n hn)
  nodup := (h.discovers hcreate).order
  enough := (h.mangled hmangle).1 ▸ hbound

/-- Linking leaves the numbers that symbols were given. -/
theorem LinkRun.operand_eq (h : LinkRun loader o entry p₀ d p₁ p₂ p₃ p₄ symbols trees q)
    (hcreate : create workingDir o.retain readPattern = .ok p₀) (hmangle : o.mangle = true) :
    q.operand = (p₂.mangle d.order).2.operand := by
  obtain ⟨table, -, hproceeds, -⟩ := h.checks hcreate
  have hready := linkReady_of_checkAll hcreate h.discover h.assign h.mangle h.check
  have hsymbols : q.symbols = p₃.symbols :=
    (hready.proceeds h.link).symbols.trans hproceeds.symbols
  funext s
  rw [← (h.mangled hmangle).2, operand, operand, symbol, symbol, hsymbols]

/-- What nothing is written for are properties. -/
theorem LinkRun.exists_mem_properties
    (h : LinkRun loader o entry p₀ d p₁ p₂ p₃ p₄ symbols trees q)
    (hcreate : create workingDir o.retain readPattern = .ok p₀) (hs : s ∈ q.idleSymbols trees) :
    ∃ name, s ∈ p₂.properties.members name := by
  have hdiscovers := h.discovers hcreate
  obtain ⟨table, -, -, -, hbare⟩ := h.checks hcreate
  obtain ⟨t, ht, hs⟩ := List.mem_flatMap.mp hs
  obtain ⟨x, hx, hidle⟩ := List.mem_filterMap.mp hs
  obtain ⟨u, -, hproperty⟩ := Option.bind_eq_some_iff.mp hidle
  have hmention : Mention.property s ∈ mentionsOf trees :=
    List.mem_flatMap.mpr ⟨t, ht,
      Tree.mentions_of_mem_exprs hx (Expr.mem_mentions_of_property? hproperty)⟩
  -- The trees mentioned it when they were read.
  have hread : (Mention.property s).bare ∈ (mentionsOf d.orderedTrees).map Mention.bare := by
    rw [← hbare]
    exact List.mem_map_of_mem hmention
  obtain ⟨m, hm, heq⟩ := List.mem_map.mp hread
  obtain ⟨t', ht', hm⟩ := List.mem_flatMap.mp hm
  exact ((hdiscovers.found_orderedTrees ht').valid m hm).1.of_bare heq

/-- The numbers of the table are written as often as the table says, but for idle
symbols. -/
theorem LinkRun.uses_eq (h : LinkRun loader o entry p₀ d p₁ p₂ p₃ p₄ symbols trees q)
    (hcreate : create workingDir o.retain readPattern = .ok p₀) (hmangle : o.mangle = true)
    (hknows : KnowsEntries q trees) (hbound : symbols.length ≤ 2 ^ 64) {e : MangleEntry}
    (he : e ∈ symbols) :
    e.uses = Instr.occurrences e.code (trees.flatMap q.codeOf) +
      (q.idleSymbols trees).countP fun s => (q.operand s).isNumber e.code := by
  have hsame := yields_assignEnumValues () p₂ h.assign
  have hnumberable := h.numberable hcreate hmangle hbound
  rw [(h.mangled hmangle).1] at he
  have htable := hnumberable.countP_operand he
  rw [hsame.symbols, ← h.operand_eq hcreate hmangle] at htable
  have hmentions := ((h.perm_symbols hcreate).map q.operand).countP_eq (Instr.isNumber e.code)
  have hwritten := List.Perm.countP_eq (Instr.isNumber e.code)
    (writes_codeOf trees hknows.apt hknows.named)
  calc e.uses
      = ((List.range p₁.symbols.size).map q.operand).countP (Instr.isNumber e.code) :=
        htable.symm
    _ = (((mentionsOf trees).flatMap (Mention.symbols q.coding)).map q.operand).countP
          (Instr.isNumber e.code) := hmentions.symm
    _ = (Instr.symbolsOfAll (trees.flatMap q.codeOf) ++
          (q.idleSymbols trees).map q.operand).countP (Instr.isNumber e.code) := hwritten
    _ = Instr.occurrences e.code (trees.flatMap q.codeOf) +
          (q.idleSymbols trees).countP fun s => (q.operand s).isNumber e.code := by
        rw [List.countP_append, List.countP_map]
        rfl

/-- No idle symbol has the number of a name of a namespace. -/
theorem LinkRun.countP_idleSymbols
    (h : LinkRun loader o entry p₀ d p₁ p₂ p₃ p₄ symbols trees q)
    (hcreate : create workingDir o.retain readPattern = .ok p₀) (hmangle : o.mangle = true)
    (hbound : symbols.length ≤ 2 ^ 64) {e : MangleEntry} (he : e ∈ symbols)
    (hkind : e.kind = .namespaced) :
    ((q.idleSymbols trees).countP fun s => (q.operand s).isNumber e.code) = 0 := by
  have hnumberable := h.numberable hcreate hmangle hbound
  rw [(h.mangled hmangle).1] at he
  rw [List.countP_eq_zero]
  intro s hs
  obtain ⟨name, hproperty⟩ := h.exists_mem_properties hcreate hs
  rw [h.operand_eq hcreate hmangle, hnumberable.isNumber_property he hkind hproperty]
  exact Bool.false_ne_true

end

/-- How the table of numbers weighs the names that are written in the code for the trees of
a build. -/
structure Weighs (trees : List Tree) (p : Program) (r : BuildResult) : Prop where
  code : r.Emits (trees.map p.codeOf)
  /-- A name weighs as much as it is written, and as accesses to entries bear it. -/
  uses : ∀ e ∈ r.symbols, e.uses = Instr.occurrences e.code (trees.flatMap p.codeOf) +
    (p.idleSymbols trees).countP fun s => (p.operand s).isNumber e.code
  /-- Names of namespaces are written each time. -/
  names : ∀ e ∈ r.symbols, e.kind = .namespaced →
    e.uses = Instr.occurrences e.code (trees.flatMap p.codeOf)
  /-- A name that is not used is given no number. -/
  used : ∀ e ∈ r.symbols, 0 < e.uses

/-- Without dead code removal the weight of a name of a namespace is how often its number is
written in the code.  For a property the accesses by its name to entries of enums are
counted as well, for which nothing is written. -/
theorem uses_eq_occurrences {loader : Loader} {workingDir : Text} {cancelled : Bool}
    {o : BuildOptions} {entry : Text} {r : BuildResult}
    (h : build loader workingDir cancelled o entry readPattern = .ok r) (hmangle : o.mangle = true)
    (hkeep : o.removeDeadCode = false) (hbound : r.symbols.length ≤ 2 ^ 64) :
    ∃ p₀ symbols trees p, create workingDir o.retain readPattern = .ok p₀ ∧
      linkPhases loader cancelled o entry p₀ = .ok (symbols, trees) p ∧ Weighs trees p r := by
  obtain ⟨p₀, symbols, trees, p, p', hcreate, hlink, hemit⟩ := exists_run_of_build h
  obtain ⟨hemits, -, hsymbols⟩ := yields_emitPhases o symbols trees r p' hemit
  have hpruned : pruned o trees p = ((trees, 0), p) := by
    simp only [pruned, hkeep, Bool.false_eq_true, if_false]
  rw [hpruned] at hemits
  rw [hsymbols] at hbound
  have hknows := knowsEntries_of_linkPhases hcreate hlink
  obtain ⟨rfl, d, p₁, p₂, p₃, p₄, hrun⟩ := exists_linkRun hlink
  refine ⟨p₀, symbols, trees, p, hcreate, hlink, hemits, ?_, ?_, ?_⟩
  · rw [hsymbols]
    exact fun e he => hrun.uses_eq hcreate hmangle hknows hbound he
  · rw [hsymbols]
    intro e he hkind
    rw [hrun.uses_eq hcreate hmangle hknows hbound he,
      hrun.countP_idleSymbols hcreate hmangle hbound he hkind, Nat.add_zero]
  · rw [hsymbols, (hrun.mangled hmangle).1]
    exact fun e he => uses_pos he

/-- The build of a program whose names stand in the order of their weights. -/
def weighedBuild? (loader : Loader) (o : BuildOptions) (entry : Text) (p₀ : Program) :
    Option BuildResult :=
  match findPhases loader false o entry p₀ with
  | .error _ _ => none
  | .ok d q =>
      let pool := ((q.nameGroups d.order).filter q.isMangled).zipIdx
      if (q.nameGroups d.order).Pairwise fun a b => b.members.length ≤ a.members.length then
        (outcome (finish o d (pool.map fun g => q.mangleEntry g.1 g.2)
          (q.withSymbols (q.mangleGroups pool).symbols))).toOption
      else none

theorem build_of_weighedBuild? {loader : Loader} (workingDir : Text) {o : BuildOptions}
    {entry : Text} {p₀ : Program} {r : BuildResult}
    (hcreate : create workingDir o.retain readPattern = .ok p₀)
    (h : weighedBuild? loader o entry p₀ = some r) :
    build loader workingDir false { o with mangle := true } entry readPattern = .ok r := by
  unfold weighedBuild? at h
  split at h
  · cases h
  · next d q hfind =>
      dsimp only at h
      split at h
      · next hordered =>
          rw [build_mangled_eq hcreate hfind, mangle, manglePool_eq hordered]
          exact toOption_eq_some_iff.mp h
      · cases h

def weightSources : List (Text × Text) :=
  [("/s.wv", "let a = 1\n"), ("/l.wv", "let v = 3\n"),
    ("/m.wv", "import l from \"l.wv\"\nenum E \x7b K \x7d\nlet o = \x7b K: l.v + a \x7d\n" ++
      "$print(o.K, E.K, l.v, a, a, o)\n")]

/-- The property has one use more than there are places where it is written. -/
def weightTable : List MangleEntry :=
  [⟨"s", "a", .namespaced, 0, 4⟩, ⟨"l", "v", .namespaced, 1, 3⟩, ⟨"m", "o", .namespaced, 2, 3⟩,
    ⟨[], "K", .property, 3, 3⟩]

set_option maxRecDepth 100000 in
theorem uses_eq_occurrences_sample :
    ∃ r p₀ symbols trees p,
      build (.ofSources weightSources) "/" false { mangle := true, stdPath := "/s.wv" } "/m.wv" =
        .ok r ∧
      r.symbols = weightTable ∧ create "/" [] = .ok p₀ ∧
      linkPhases (.ofSources weightSources) false { mangle := true, stdPath := "/s.wv" } "/m.wv"
        p₀ = .ok (symbols, trees) p ∧ Weighs trees p r := by
  have hruns : (weighedBuild? (.ofSources weightSources) { stdPath := "/s.wv" } "/m.wv"
      { workingDir := "/" }).map BuildResult.symbols = some weightTable := by
    decide +kernel
  obtain ⟨r, hrun, htable⟩ := Option.map_eq_some_iff.mp hruns
  have hbuild := build_of_weighedBuild? "/" (create_nil "/" Glob.reader) hrun
  have hbound : r.symbols.length ≤ 2 ^ 64 := by
    have hlength : weightTable.length = 4 := rfl
    rw [htable]
    omega
  obtain ⟨p₀, symbols, trees, p, hcreate, hlink, hweighs⟩ :=
    uses_eq_occurrences hbuild rfl rfl hbound
  exact ⟨r, p₀, symbols, trees, p, hbuild, htable, hcreate, hlink, hweighs⟩

/-- The registrations of enum entries have no symbols. -/
theorem occurrences_append_enums (k : Int64) (table : List (Text × Int64)) (is : List Instr) :
    Instr.occurrences k (table.map (fun e => .enum e.1 e.2) ++ is) = Instr.occurrences k is := by
  induction table with
  | nil => rfl
  | cons e rest ih => exact ih

def occurrences? (k : Int64) (code : Code) : Option Nat :=
  if code.length ≤ Instr.maxCount then code.instrs.toOption.map (Instr.occurrences k) else none

theorem occurrences_eq_of_emits {r : BuildResult} {k : Int64} {count : Nat}
    (h : occurrences? k r.code = some count) {spaces : List (List Instr)}
    (hemits : r.Emits spaces) : Instr.occurrences k spaces.flatten = count := by
  unfold occurrences? at h
  split at h
  · next hlength =>
      rw [(hemits.decoded hlength).1] at h
      cases h
      rw [occurrences_append_enums]
  · cases h

def enumSources : List (Text × Text) :=
  [("/s.wv", ""), ("/m.wv", "enum E \x7b A \x7d\n$p(E.A)\n")]

def enumCode : Code := [18, 12, 1, 112, 1, 1, 2]

set_option maxRecDepth 100000 in
/-- The name of an entry is given a number that is written nowhere. -/
theorem number_never_written :
    ∃ r, build (.ofSources enumSources) "/" false { mangle := true, stdPath := "/s.wv" } "/m.wv" =
        .ok r ∧
      r.symbols = [⟨[], "A", .property, 0, 1⟩] ∧
      ∀ spaces, r.Emits spaces → Instr.occurrences 0 spaces.flatten = 0 := by
  have hruns : (weighedBuild? (.ofSources enumSources) { stdPath := "/s.wv" } "/m.wv"
      { workingDir := "/" }).map (fun r => (r.symbols, r.code)) =
        some ([⟨[], "A", .property, 0, 1⟩], enumCode) := by
    decide +kernel
  obtain ⟨r, hrun, hvalues⟩ := Option.map_eq_some_iff.mp hruns
  have hbuild := build_of_weighedBuild? "/" (create_nil "/" Glob.reader) hrun
  obtain ⟨hsymbols, hcode⟩ := Prod.mk.inj hvalues
  have hoccurrences : occurrences? 0 r.code = some 0 := by
    rw [hcode]
    decide +kernel
  exact ⟨r, hbuild, hsymbols, fun spaces hemits => occurrences_eq_of_emits hoccurrences hemits⟩

end Program

end Splice

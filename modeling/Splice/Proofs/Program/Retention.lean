import Splice.Proofs.Program.Filing
import Splice.Proofs.Program.Renaming

/-!
# Retained properties

Whether a property keeps its name is a matter of the whole program.  A name is noted when it
is retained, which marks the symbols that it has already, and a new symbol asks for what was
noted.  So all symbols of a name agree at any time, on what the calls up to then and the
patterns of the program say in whatever order, and numbers reach either all of them or none.
-/

namespace Splice.Program

variable {p p' q p₀ : Program} {s t : SymbolId} {name : Text} {calls calls' : List PropertyCall}
  {spaces : List NamespaceId} {workingDir : Text} {patterns : List Text}
  {readPattern : PatternReader}

/-- A pattern of a program matches a name, or one of the calls on it retains the name. -/
def RetainedBy (p : Program) (calls : List PropertyCall) (name : Text) : Prop :=
  .retain name ∈ calls ∨ ∃ g ∈ p.retainGlobs, g.matchesName name = true

theorem mem_retainGlobs_create (h : create workingDir patterns readPattern = .ok p)
    {g : NamePattern} : g ∈ p.retainGlobs ↔ ∃ pattern ∈ patterns, readPattern pattern = .ok g := by
  simp only [create, bind, Except.bind] at h
  split at h
  · cases h
  · next hglobs =>
      cases h
      simp only [mem_iff_of_mapM_eq_ok hglobs, mapError_eq_ok_iff]

/-- Whether a name is retained is up to the calls and to what the reader of patterns makes of
those that the program was created with. -/
theorem retainedBy_create_iff (h : create workingDir patterns readPattern = .ok p) :
    p.RetainedBy calls name ↔ .retain name ∈ calls ∨
      ∃ pattern ∈ patterns, ∃ g, readPattern pattern = .ok g ∧ g.matchesName name = true := by
  simp only [RetainedBy, mem_retainGlobs_create h]
  refine or_congr_right ⟨?_, ?_⟩
  · rintro ⟨g, ⟨pattern, hmem, hread⟩, hmatches⟩
    exact ⟨pattern, hmem, g, hread, hmatches⟩
  · rintro ⟨pattern, hmem, g, hread, hmatches⟩
    exact ⟨g, ⟨pattern, hmem, hread⟩, hmatches⟩

theorem RetainedBy.perm_iff (h : calls.Perm calls') :
    p.RetainedBy calls name ↔ p.RetainedBy calls' name := by
  unfold RetainedBy
  rw [h.mem_iff]

theorem retainedBy_append_singleton {c : PropertyCall} :
    p.RetainedBy (calls ++ [c]) name ↔ p.RetainedBy calls name ∨ c = .retain name := by
  simp only [RetainedBy, List.mem_append, List.mem_singleton, eq_comm (a := c)]
  exact or_right_comm

theorem Develops.isRetainedName_iff (h : Develops p₀ calls p) (hnone : p₀.retainedNames = []) :
    p.isRetainedName name = true ↔ p₀.RetainedBy calls name := by
  induction h with
  | refl => simp [isRetainedName, RetainedBy, hnone]
  | call c _ ih =>
      rw [retainedBy_append_singleton, ← ih]
      cases c with
      | mention other => simp [PropertyCall.perform, isRetainedName_addProperty]
      | retain other => simp [PropertyCall.perform, isRetainedName_retainProperty]
  | register => assumption
  | name => assumption
  | mangle spaces _ ih => rwa [← isRetainedName_bare, bare_mangle]
  | work _ hsame ih => rwa [← isRetainedName_bare, hsame.bare]

/-- A property has one symbol for each place that mentions it. -/
theorem Develops.length_identities (h : Develops p₀ calls p) (hp : p₀.bare.Filed)
    (hnone : p₀.symbols.size = 0) (name : Text) :
    (p.identities [] name).length = calls.count (.mention name) := by
  induction h with
  | refl => simp [identities, hnone]
  | call c _ ih =>
      rw [List.count_append, ← ih]
      cases c with
      | mention other =>
          rw [PropertyCall.perform, identities_addProperty, List.length_append]
          by_cases hname : other = name
          · simp [hname]
          · simp [hname]
      | retain other => simp [PropertyCall.perform, identities_retainProperty]
  | register => assumption
  | name name h hn ih =>
      rw [identities_addSymbol (h.id_ne hp hn), if_neg fun hc => h.id_ne hp hn hc.1]
      simpa using ih
  | mangle spaces _ ih => rwa [← identities_bare, bare_mangle, identities_bare]
  | work _ hsame ih => rwa [← identities_bare, hsame.bare, identities_bare]

theorem Filed.plain_eq (h : p.bare.Filed) (hs : s ∈ p.identities [] name) :
    (p.symbol s).plain = Symbol.ofProperty name (p.isRetainedName name) := by
  rw [← identities_bare, ← h.properties] at hs
  have hsymbol := h.pristine.property_eq name s hs
  rwa [symbol_bare] at hsymbol

def Literal (p : Program) : Prop := ∀ s, (p.symbol s).retained = true → (p.symbol s).number = none

theorem Literal.retainProperty (h : p.Literal) (hp : p.bare.Filed) (name : Text) :
    (p.retainProperty name).Literal := by
  intro s hs
  rw [symbol_retainProperty] at hs ⊢
  split
  · next hmem =>
      have hs' : s ∈ p.identities [] name := by
        rw [← identities_bare, ← hp.properties]
        exact hmem.1
      have hplain := hp.plain_eq hs'
      have hkind : (p.symbol s).kind = .property := congrArg Symbol.kind hplain
      simp [Symbol.retain, hkind]
  · next hmem =>
      rw [if_neg hmem] at hs
      exact h s hs

theorem Literal.mangle (h : p.Literal) (spaces : List NamespaceId) :
    (p.mangle spaces).2.Literal := by
  have hsymbol : ∀ (x : Symbol) (k : Int64), (x.retained = true → x.number = none) →
      (x.mangle k).retained = true → (x.mangle k).number = none := by
    intro x k hx
    unfold Symbol.mangle
    split
    · next htakes =>
        intro hretained
        simp [Symbol.takesNumber, show x.retained = true from hretained] at htakes
    · exact hx
  rw [mangle_snd]
  induction (p.manglePool spaces).zipIdx generalizing p with
  | nil => exact h
  | cons g rest ih =>
      refine ih (p := p.mangleGroup g.1 g.2) fun s => ?_
      rw [symbol_mangleGroup]
      split
      · exact hsymbol _ _ (h s)
      · exact h s

/-- A number that a symbol was given before it was retained is gone. -/
theorem Develops.literal (h : Develops p₀ calls p) (hp : p₀.bare.Filed) (hnone : p₀.Literal) :
    p.Literal := by
  induction h with
  | refl => exact hnone
  | call c h ih =>
      cases c with
      | mention name =>
          intro s
          rw [PropertyCall.perform, symbol_addProperty]
          split
          · exact fun _ => rfl
          · exact ih s
      | retain name => exact ih.retainProperty (h.filed hp) name
  | register => assumption
  | name name _ _ ih =>
      intro s
      rw [symbol_addSymbol]
      split
      · unfold Symbol.ofName
        split <;> exact fun _ => rfl
      · exact ih s
  | mangle spaces _ ih => exact ih.mangle spaces
  | work _ hsame ih =>
      intro s
      rw [symbol, hsame.symbols]
      exact ih s

/-- The symbols of a retained property are written as its name. -/
theorem Literal.code_eq (h : p.Literal) (hp : p.bare.Filed) (hname : p.isRetainedName name = true)
    (hs : s ∈ p.identities [] name) : (p.symbol s).code = Code.string name := by
  have hplain := hp.plain_eq hs
  rw [hname] at hplain
  have hnumber := h s (congrArg Symbol.retained hplain)
  have hsymbol : p.symbol s = Symbol.ofProperty name true := by
    rw [← hplain, Symbol.plain, ← hnumber]
  rw [hsymbol]
  rfl

theorem code_mangle {x : Symbol} (h : x.takesNumber = true) (k : Int64) :
    (x.mangle k).code = Code.number k := by
  have hkind : x.kind ≠ .intrinsic := by
    simpa using (Bool.and_eq_true_iff.mp h).2
  have hoperand := operand_mangle h k
  unfold Symbol.mangle at hoperand ⊢
  rw [if_pos h] at hoperand ⊢
  unfold Symbol.code
  split
  · next hintrinsic => exact absurd hintrinsic hkind
  · rw [hoperand]
    rfl

/-- A symbol that stands in one group only is written as the number of the group. -/
theorem code_mangle_of_mem {g : NameGroup} {code : Nat}
    (hone : (p.nameGroups spaces).Pairwise fun g h => s ∈ g.members → s ∉ h.members)
    (hg : (g, code) ∈ (p.manglePool spaces).zipIdx) (hs : s ∈ g.members)
    (hlt : s < p.symbols.size) (htakes : (p.symbol s).takesNumber = true) :
    ((p.mangle spaces).2.symbol s).code = Code.number (Int64.ofNat code) := by
  have hsymbol : (p.mangle spaces).2.symbol s = (p.symbol s).mangle (Int64.ofNat code) := by
    rw [mangle_snd]
    refine symbol_mangleGroups_of_mem (pairwise_zipIdx_manglePool ?_ hone) hg hs hlt
    exact fun h hmem hmem' => h hmem' hmem
  rw [hsymbol, code_mangle htakes]

/-- Numbers reach all symbols of a property that is not retained, whatever namespaces are
given along with it. -/
theorem Filed.exists_code_eq (hp : p.bare.Filed) (hname : p.isRetainedName name = false)
    (spaces : List NamespaceId) :
    ∃ k, ∀ s ∈ p.identities [] name, ((p.mangle spaces).2.symbol s).code = Code.number k := by
  have hmembers : p.properties.members name = p.identities [] name := by
    rw [← identities_bare, ← hp.properties]
    rfl
  have hplain : ∀ s ∈ p.identities [] name, (p.symbol s).plain = Symbol.ofProperty name false :=
    fun s hs => hname ▸ hp.plain_eq hs
  cases hids : p.identities [] name with
  | nil => exact ⟨0, fun _ hs => absurd hs List.not_mem_nil⟩
  | cons leading rest =>
      have hleading : leading ∈ p.identities [] name := by
        rw [hids]
        exact List.mem_cons_self
      have hgroup : (⟨[], name, p.identities [] name⟩ : NameGroup) ∈ p.nameGroups spaces := by
        have hfiled := Groups.mem_of_members hp.pristine.properties_nodup (hmembers ▸ hleading)
        exact mem_nameGroups.mpr (Or.inr ⟨rfl, hmembers ▸ hfiled⟩)
      have hmangled : p.isMangled ⟨[], name, p.identities [] name⟩ = true := by
        simp only [isMangled, hids, Bool.not_eq_true']
        exact congrArg Symbol.retained (hplain leading hleading)
      obtain ⟨code, hcode⟩ := exists_mem_zipIdx (mem_manglePool.mpr ⟨hgroup, hmangled⟩)
      rw [← hids]
      refine ⟨Int64.ofNat code, fun s hs => code_mangle_of_mem ?_ hcode hs (mem_identities.mp hs).1 ?_⟩
      · have hs' : s ∈ p.bare.properties.members name := by
          rw [hp.properties, identities_bare]
          exact hs
        rw [← nameGroups_bare]
        exact hp.pristine.pairwise_of_property hs' spaces
      · have hkind : (p.symbol s).kind = .property := congrArg Symbol.kind (hplain s hs)
        have hfree : (p.symbol s).retained = false := congrArg Symbol.retained (hplain s hs)
        simp [Symbol.takesNumber, hkind, hfree]

/-! ## Retention -/

/-- What some calls make of a property: it has a symbol for each mention, all symbols are
marked as the calls and the patterns say, and when numbers are given all of them are written
as the name or all of them as one number. -/
structure Retention (p₀ : Program) (calls : List PropertyCall) (p : Program) (name : Text) :
    Prop where
  mentions : (p.identities [] name).length = calls.count (.mention name)
  kind : ∀ s ∈ p.identities [] name, (p.symbol s).kind = .property
  retained_iff : ∀ s ∈ p.identities [] name,
    (p.symbol s).retained = true ↔ p₀.RetainedBy calls name
  literal : p₀.RetainedBy calls name → ∀ spaces, ∀ s ∈ p.identities [] name,
    ((p.mangle spaces).2.symbol s).code = Code.string name
  number : ¬p₀.RetainedBy calls name → ∀ spaces, ∃ k, ∀ s ∈ p.identities [] name,
    ((p.mangle spaces).2.symbol s).code = Code.number k

theorem Develops.retention (h : Develops p₀ calls p) (hcreate : create workingDir patterns readPattern = .ok p₀)
    (name : Text) :
    Retention p₀ calls p name := by
  have hp := Filed.create hcreate
  have hfiled := h.filed hp
  obtain ⟨globs, rfl⟩ := exists_create_eq hcreate
  have hiff : p.isRetainedName name = true ↔
      RetainedBy { workingDir, retainGlobs := globs } calls name := h.isRetainedName_iff rfl
  refine ⟨h.length_identities hp rfl name, ?_, ?_, ?_, ?_⟩
  · exact fun s hs => congrArg Symbol.kind (hfiled.plain_eq hs)
  · intro s hs
    have hflag : (p.symbol s).retained = p.isRetainedName name :=
      congrArg Symbol.retained (hfiled.plain_eq hs)
    rw [hflag, hiff]
  · intro hretained spaces s hs
    have hmangled := h.mangle spaces
    refine (hmangled.literal hp fun _ _ => rfl).code_eq (hmangled.filed hp) ?_ ?_
    · exact (hmangled.isRetainedName_iff rfl).mpr hretained
    · rwa [← identities_bare, bare_mangle, identities_bare]
  · intro hretained spaces
    exact hfiled.exists_code_eq (Bool.eq_false_iff.mpr (mt hiff.mp hretained)) spaces

/-- Retention is global and does not depend on the order of the calls, whatever the patterns
mean.  A name is retained exactly if one of the calls asks for it or one of the patterns, as it
was read, matches it. -/
theorem retention_global (hcreate : create workingDir patterns readPattern = .ok p₀)
    (h : Develops p₀ calls p) :
    (∀ name, p₀.RetainedBy calls name ↔ .retain name ∈ calls ∨
      ∃ pattern ∈ patterns, ∃ g, readPattern pattern = .ok g ∧ g.matchesName name = true) ∧
    (∀ name, Retention p₀ calls p name) ∧
    ∀ calls' p', calls.Perm calls' → Develops p₀ calls' p' →
      ∀ name, ∀ s ∈ p.identities [] name, ∀ t ∈ p'.identities [] name,
        (p.symbol s).retained = (p'.symbol t).retained := by
  refine ⟨fun _ => retainedBy_create_iff hcreate, h.retention hcreate, ?_⟩
  intro calls' p' hperm h' name s hs t ht
  rw [Bool.eq_iff_iff, (h.retention hcreate name).retained_iff s hs,
    (h'.retention hcreate name).retained_iff t ht]
  exact RetainedBy.perm_iff hperm

def performAll (p : Program) (calls : List PropertyCall) : Program :=
  calls.foldl (fun p c => c.perform p) p

theorem Develops.performAll (h : Develops p₀ calls p) (more : List PropertyCall) :
    Develops p₀ (calls ++ more) (p.performAll more) := by
  induction more generalizing calls p with
  | nil => simpa [Program.performAll] using h
  | cons c rest ih =>
      rw [List.append_cons]
      exact ih (h.call c)

/-- A name that is retained between its mentions, one that a pattern matches, and one that
is neither. -/
def mixedCalls : List PropertyCall :=
  [.mention "x", .mention "y", .retain "x", .mention "ab", .mention "x"]

def marksOf (p : Program) (name : Text) : List Bool :=
  (p.identities [] name).map fun s => (p.symbol s).retained

theorem retention_global_mixed :
    ∃ p₀, create "/" ["a*"] = .ok p₀ ∧
      Develops p₀ mixedCalls (p₀.performAll mixedCalls) ∧
      (∀ name, p₀.RetainedBy mixedCalls name ↔ .retain name ∈ mixedCalls ∨
        ∃ pattern ∈ (["a*"] : List Text), ∃ g,
          Glob.reader pattern = .ok g ∧ g.matchesName name = true) ∧
      (∀ name, Retention p₀ mixedCalls (p₀.performAll mixedCalls) name) ∧
      (∀ calls' p', mixedCalls.Perm calls' → Develops p₀ calls' p' →
        ∀ name, ∀ s ∈ (p₀.performAll mixedCalls).identities [] name,
          ∀ t ∈ p'.identities [] name,
            ((p₀.performAll mixedCalls).symbol s).retained = (p'.symbol t).retained) ∧
      (["x", "y", "ab"] : List Text).map (p₀.performAll mixedCalls).marksOf =
        [[true, true], [false], [true]] := by
  have hmarks : (create "/" ["a*"]).toOption.map (fun p₀ =>
      (["x", "y", "ab"] : List Text).map (p₀.performAll mixedCalls).marksOf) =
        some [[true, true], [false], [true]] := by
    decide +kernel
  cases hcreate : create "/" ["a*"] with
  | error e =>
      rw [hcreate] at hmarks
      cases hmarks
  | ok p₀ =>
      rw [hcreate] at hmarks
      have hdevelops : Develops p₀ mixedCalls (p₀.performAll mixedCalls) :=
        Develops.refl.performAll mixedCalls
      obtain ⟨hretained, hall, hperm⟩ := retention_global hcreate hdevelops
      exact ⟨p₀, rfl, hdevelops, hretained, hall, hperm, Option.some.inj hmarks⟩

end Splice.Program

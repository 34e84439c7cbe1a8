import Splice.Proofs.Build.Reading

/-!
# What names mean inside and outside their file

A name of a file is read there as it stands, and in other files behind an alias.  Inside,
what the statements around it declare goes first: the name is a binding if they declare
it, and can be an enum only if they do not (`LinkReady.meaning?_of_mem_sites`).  Outside,
linking looks at the enums first, and then at the bindings of the top level
(`LinkReady.meaning?_eq`).  So a name means the same on both sides unless its file declares
it in both ways.
-/

namespace Splice

/-- What reading a name comes to: an entry of an enum, or a binding with its record and the
name that code loads, of which a member may be accessed. -/
inductive Meaning where
  | entry (use : EntryUse)
  | binding (usage : UsageId) (name member : Text)
deriving DecidableEq, Repr

/-- What a site of a namespace means. -/
def Site.meaning? (p : Program) (n : NamespaceId) : Site → Option Meaning
  | read _ _ access (.own s (some u)) =>
      some (.binding u (p.symbol s).id (access.elim [] Access.member))
  | read _ _ (some ⟨_, _, some e⟩) .unbound =>
      some (.entry ⟨(p.spaceAt n).id, e.enum, e.entry, e.value⟩)
  | _ => none

namespace Program

variable {p q : Program} {n m : NamespaceId} {t : Tree} {trees : List Tree} {root : ScopeId}
  {name : Text} {x : ForeignRead} {f : ForeignId}

def meaning? (p : Program) (x : ForeignRead) : Option Meaning :=
  match (p.reference x.reference).resolution with
  | .unresolved => none
  | .entry space enum entry value => some (.entry ⟨space, enum, entry, value⟩)
  | .value s => (x.record.bind fun f => (p.ledger.foreignUsage f).resolved).map fun u =>
      .binding u (p.symbol s).id (p.reference x.reference).member

/-- A name with a member as an entry of an enum of a namespace. -/
def asEnum? (p : Program) (n : NamespaceId) (name member : Text) : Option Meaning :=
  (p.entryOf? n name member).map .entry

/-- A name with a member as a binding of the top level of a namespace. -/
def asBinding? (p : Program) (n : NamespaceId) (name member : Text) : Option Meaning :=
  ((p.spaceAt n).root.bind fun root => p.definedUsage? n root name).map fun u =>
    .binding u (Symbol.idOf (p.spaceAt n).id name) member

theorem SameTargets.asEnum? (h : p.SameTargets q) (n : NamespaceId) (name member : Text) :
    q.asEnum? n name member = p.asEnum? n name member := by
  unfold Program.asEnum?
  rw [h.proceeds.entryOf?]

theorem SameTargets.asBinding? (h : p.SameTargets q) (n : NamespaceId) (name member : Text) :
    q.asBinding? n name member = p.asBinding? n name member := by
  unfold Program.asBinding?
  simp only [h.root, h.definedUsage?, h.id]

theorem SameTargets.siteMeaning? (h : p.SameTargets q) (n : NamespaceId) (site : Site) :
    site.meaning? q n = site.meaning? p n := by
  unfold Site.meaning?
  simp only [symbol, h.symbols, h.id]

theorem asEnum?_eq_none (h : (p.spaceAt n).enum? name = none) (member : Text) :
    p.asEnum? n name member = none := by
  rw [asEnum?, entryOf?, h]
  rfl

/-- The bindings of the top level are the records of the outermost scope. -/
theorem LinkReady.definedUsage?_eq (h : LinkReady p trees)
    (hroot : (p.spaceAt n).root = some root) (name : Text) :
    p.definedUsage? n root name = p.ledger.own? root (Symbol.idOf (p.spaceAt n).id name) := by
  obtain ⟨t, -, -, hsound⟩ := h.linkable.sound_root hroot
  have hfind := h.linkable.wellFormed.find?_eq_own? hsound.outermost
    (Symbol.idOf (p.spaceAt n).id name)
  rw [definedUsage?]
  split
  · next u hu =>
      rw [if_pos (h.unlinked.defined u (h.linkable.wellFormed.lt_of_find? hu)), ← hfind, hu]
  · next hnone => rw [← hfind, hnone]

theorem LinkReady.asBinding?_isSome_iff (h : LinkReady p trees) (ht : t ∈ trees)
    (name member : Text) :
    (p.asBinding? t.owner name member).isSome = true ↔
      name ∈ Stmt.declaredNames t.statements := by
  obtain ⟨root, hprepared⟩ := h.prepared t ht
  rw [asBinding?, hprepared.rooted, Option.bind_some, Option.isSome_map,
    h.definedUsage?_isSome_iff ht hprepared.rooted]

/-- The order matters for what is both. -/
theorem asBinding?_or_eq_iff (p : Program) (n : NamespaceId) (name member : Text) :
    (p.asBinding? n name member).or (p.asEnum? n name member) =
        (p.asEnum? n name member).or (p.asBinding? n name member) ↔
      ¬((p.asEnum? n name member).isSome = true ∧ (p.asBinding? n name member).isSome = true) := by
  unfold asBinding? asEnum?
  cases (p.spaceAt n).root.bind fun root => p.definedUsage? n root name with
  | none => simp
  | some u => cases p.entryOf? n name member <;> simp

/-- Inside a file bindings go before enums: this is what a name means where no inner list
of statements declares it. -/
theorem LinkReady.meaning?_of_mem_sites (h : LinkReady p trees) (ht : t ∈ trees)
    (hreads : p.ReadsFound t) (hroot : (p.spaceAt t.owner).root = some root)
    {around : List Block} {o : Nat} {access : Option Access} {given : NameRead}
    (hsite : (around, Site.read o name access given) ∈ t.sites root)
    (houter : ∀ b ∈ around, name ∈ b.names → b.scope = root) :
    (Site.read o name access given).meaning? p t.owner =
      (p.asBinding? t.owner name (access.elim [] Access.member)).or
        (p.asEnum? t.owner name (access.elim [] Access.member)) := by
  have hfree : Block.isVisible around name = false →
      p.asBinding? t.owner name (access.elim [] Access.member) = none := by
    intro hhidden
    rw [← Option.not_isSome_iff_eq_none, h.asBinding?_isSome_iff ht]
    intro hmem
    have hvisible : Block.isVisible around name = true :=
      List.any_eq_true.mpr ⟨_, Tree.outermost_mem hsite, List.contains_iff_mem.mpr hmem⟩
    rw [hhidden] at hvisible
    cases hvisible
  have hread := hreads root hroot _ hsite
  generalize hsite' : Site.read o name access given = site at hread
  cases hread with
  | store => cases hsite'
  | @own o name access symbol u hrecord =>
      cases hsite'
      obtain ⟨s, hs, hown⟩ := Option.bind_eq_some_iff.mp hrecord
      obtain ⟨b, hb, rfl⟩ := Option.map_eq_some_iff.mp hs
      have hscope : b.scope = root :=
        houter b (List.mem_of_find?_eq_some hb)
          (List.contains_iff_mem.mp (by simpa using List.find?_some hb))
      rw [hscope] at hown
      have hdefined : p.definedUsage? t.owner root name = some u := by
        rw [h.definedUsage?_eq hroot]
        exact hown
      have hid : (p.symbol symbol).id = Symbol.idOf (p.spaceAt t.owner).id name := by
        obtain ⟨root', hsound⟩ := h.linkable.sound t ht
        exact h.ids t.owner name symbol (hsound.valid _ (Tree.mention_of_mem_sites hsite))
      rw [asBinding?, hroot, Option.bind_some, hdefined, ← hid]
      rfl
  | @entry o name at_ member enum entry hhidden henum hentry =>
      cases hsite'
      have henum' : (p.spaceAt t.owner).enum? name = some enum := henum
      rw [hfree hhidden, Option.none_or, asEnum?, entryOf?, henum', Option.bind_some]
      change _ = Option.map _ (Option.map _ (enum.entry? member))
      rw [hentry]
      rfl
  | @std o name access reference record hhidden hnone =>
      cases hsite'
      rw [hfree hhidden, asEnum?_eq_none hnone]
      rfl

/-- Outside a file enums go before bindings. -/
theorem LinkReady.meaning?_eq (h : LinkReady p trees) (hrun : linkAll trees p = .ok () q)
    (ht : t ∈ trees) (hattaches : Attaches p t x f)
    (hm : q.importTarget? t.owner (q.reference x.reference).qualifier = some m) :
    q.meaning? x =
        (q.asEnum? m (q.reference x.reference).name (q.reference x.reference).member).or
          (q.asBinding? m (q.reference x.reference).name (q.reference x.reference).member) ∧
      (q.meaning? x).isSome = true ∧
      (q.asEnum? m (q.reference x.reference).name (q.reference x.reference).member).isSome =
        ((q.spaceAt m).enum? (q.reference x.reference).name).isSome := by
  have hanswer := h.resolution_eq hrun ht hattaches.reference
  rw [← (h.ends.yields () q hrun).1.toSameTargets.resolution?] at hanswer
  obtain ⟨m', root, htarget, hcases⟩ := resolution?_eq_some_iff.mp hanswer
  obtain ⟨himport, hroot⟩ := of_linkTarget? htarget
  obtain rfl : m' = m := Option.some.inj (himport.symm.trans hm)
  rcases hcases with ⟨enum, entry, henum, -, hentry, hresolution⟩ |
      ⟨henum, u, s, hu, hs, hresolution⟩
  · have hmeaning : q.meaning? x =
        some (.entry ⟨(q.spaceAt m').id, enum.name, entry.name, entry.value⟩) := by
      rw [meaning?, hresolution]
    rw [hmeaning, asEnum?, entryOf?, henum, Option.bind_some, hentry]
    exact ⟨rfl, rfl, rfl⟩
  · have hresolved : (q.ledger.foreignUsage f).resolved = some u := by
      have hagreement := (h.agreement hrun ht hattaches).1
      rw [hresolution] at hagreement
      generalize (q.ledger.foreignUsage f).resolved = target at hagreement
      cases hagreement with
      | binding htarget' hroot' hu' =>
          rw [hm] at htarget'
          cases htarget'
          rw [hroot] at hroot'
          cases hroot'
          exact hu'.symm.trans hu
    have hreference : x.reference ∈ (q.spaceAt t.owner).references := by
      rw [(h.ends.yields () q hrun).1.spaceReferences]
      exact hattaches.reference
    have hmeaning : q.meaning? x = some (.binding u
        (Symbol.idOf (q.spaceAt m').id (q.reference x.reference).name)
        (q.reference x.reference).member) := by
      rw [meaning?, hresolution, ← h.id_symbol hrun ht hreference hm hs]
      dsimp only
      rw [hattaches.record, Option.bind_some, hresolved]
      rfl
    rw [hmeaning, asEnum?_eq_none henum, Option.none_or, asBinding?, hroot, Option.bind_some, hu,
      henum]
    exact ⟨rfl, rfl, rfl⟩

end Program

/-! ## Both sides -/

/-- A read of another file, and a site of a file with the lists of statements around it. -/
structure ReadPair where
  reader : Tree
  read : ForeignRead
  home : Tree
  root : ScopeId
  around : List Block
  site : Site

def Site.words? : Site → Option (Text × Text)
  | read _ name access _ => some (name, access.elim [] Access.member)
  | store _ _ _ => none

/-- The first read is of a name of the file that the site stands in, and the site reads the
same name with the same member where no inner list of statements declares it. -/
def ReadPair.SameName (p : Program) (a : ReadPair) : Prop :=
  let r := p.reference a.read.reference
  p.importTarget? a.reader.owner r.qualifier = some a.home.owner ∧
    a.site.words? = some (r.name, r.member) ∧ ∀ b ∈ a.around, r.name ∈ b.names → b.scope = a.root

instance (p : Program) (a : ReadPair) : Decidable (a.SameName p) :=
  inferInstanceAs (Decidable (_ ∧ _ ∧ ∀ b ∈ a.around, _))

namespace Program

variable {p q : Program} {trees : List Tree} {readPattern : PatternReader}

def readPairs (p : Program) (trees : List Tree) : List ReadPair :=
  trees.flatMap fun reader => (reader.nodes.filterMap Node.foreignRead?).flatMap fun read =>
    trees.flatMap fun home => (p.spaceAt home.owner).root.toList.flatMap fun root =>
      (home.sites root).map fun e => ⟨reader, read, home, root, e.1, e.2⟩

theorem mem_readPairs {a : ReadPair} :
    a ∈ p.readPairs trees ↔
      a.reader ∈ trees ∧ (∃ node ∈ a.reader.nodes, node.foreignRead? = some a.read) ∧
        a.home ∈ trees ∧ (p.spaceAt a.home.owner).root = some a.root ∧
          (a.around, a.site) ∈ a.home.sites a.root := by
  simp only [readPairs, List.mem_flatMap, List.mem_filterMap, List.mem_map, Option.mem_toList]
  constructor
  · rintro ⟨reader, hreader, read, hread, home, hhome, root, hroot, e, he, rfl⟩
    exact ⟨hreader, hread, hhome, hroot, he⟩
  · rintro ⟨hreader, hread, hhome, hroot, he⟩
    exact ⟨a.reader, hreader, a.read, hread, a.home, hhome, a.root, hroot, _, he, rfl⟩

/-- Linking does not change what the sites of a tree mean. -/
theorem LinkReady.meaning?_of_words? (h : LinkReady p trees) (hrun : linkAll trees p = .ok () q)
    {t : Tree} (ht : t ∈ trees) (hreads : p.ReadsFound t) {root : ScopeId}
    (hroot : (q.spaceAt t.owner).root = some root) {around : List Block} {site : Site}
    (hsite : (around, site) ∈ t.sites root) {name member : Text}
    (hwords : site.words? = some (name, member))
    (houter : ∀ b ∈ around, name ∈ b.names → b.scope = root) :
    site.meaning? q t.owner =
      (q.asBinding? t.owner name member).or (q.asEnum? t.owner name member) := by
  have htargets := (h.ends.yields () q hrun).1.toSameTargets
  cases site with
  | store offset text usage => cases hwords
  | read offset text access given =>
      cases hwords
      rw [htargets.root] at hroot
      rw [htargets.siteMeaning?, htargets.asBinding?, htargets.asEnum?]
      exact h.meaning?_of_mem_sites ht hreads hroot hsite houter

/-- Inside its file a name is a binding if it can be one, and outside it is an entry of an
enum if it can be one.  In linked trees it always is one of them, so both reads mean the same
unless the file declares the name both as an enum and at its top level. -/
theorem means_same_iff (loader : Loader) (workingDir : Text) (cancelled : Bool)
    (o : BuildOptions) (entry : Text) {p₀ : Program} {symbols : List MangleEntry}
    (hcreate : create workingDir o.retain readPattern = .ok p₀)
    (hrun : linkPhases loader cancelled o entry p₀ = .ok (symbols, trees) q)
    {a : ReadPair} (ha : a ∈ q.readPairs trees) (hsame : a.SameName q) :
    let r := q.reference a.read.reference
    let asEnum := q.asEnum? a.home.owner r.name r.member
    let asBinding := q.asBinding? a.home.owner r.name r.member
    let inside := a.site.meaning? q a.home.owner
    let outside := q.meaning? a.read
    inside = asBinding.or asEnum ∧ outside = asEnum.or asBinding ∧
      inside.isSome = true ∧ outside.isSome = true ∧
      (inside = outside ↔
        ¬(((q.spaceAt a.home.owner).enum? r.name).isSome = true ∧
          r.name ∈ Stmt.declaredNames a.home.statements)) := by
  intro r asEnum asBinding inside outside
  obtain ⟨rfl, d, p₁, p₂, p₃, p, hlinkRun⟩ := exists_linkRun hrun
  have hready := linkReady_of_checkAll hcreate hlinkRun.discover hlinkRun.assign hlinkRun.mangle
    hlinkRun.check
  obtain ⟨hreader, ⟨node, hnode, hread⟩, hhome, hroot, hsite⟩ := mem_readPairs.mp ha
  obtain ⟨hleads, hwords, houter⟩ := hsame
  obtain ⟨mention, hmention, hforeign⟩ := exists_mention_of_foreignRead? hnode hread
  obtain ⟨f, hattaches⟩ := hready.attaches hreader hmention hforeign
  obtain ⟨houtside, hmeans, hentry⟩ := hready.meaning?_eq hlinkRun.link hreader hattaches hleads
  have hinside : inside = asBinding.or asEnum :=
    hready.meaning?_of_words? hlinkRun.link hhome (hlinkRun.readsFound hcreate a.home hhome) hroot
      hsite hwords houter
  have hbinding : asBinding.isSome = true ↔ r.name ∈ Stmt.declaredNames a.home.statements := by
    have htargets := (hready.ends.yields () q hlinkRun.link).1.toSameTargets
    change (q.asBinding? a.home.owner r.name r.member).isSome = true ↔ _
    rw [htargets.asBinding?]
    exact hready.asBinding?_isSome_iff hhome r.name r.member
  refine ⟨hinside, houtside, ?_, hmeans, ?_⟩
  · rw [houtside, Option.isSome_or, Bool.or_comm] at hmeans
    rw [hinside, Option.isSome_or]
    exact hmeans
  · calc inside = outside ↔ asBinding.or asEnum = asEnum.or asBinding := by
          rw [hinside]
          exact Eq.congr_right houtside
      _ ↔ ¬(asEnum.isSome = true ∧ asBinding.isSome = true) := asBinding?_or_eq_iff q _ _ _
      _ ↔ _ := by rw [hentry, hbinding]

/-- What the two reads of each pair of reads of one name mean, inside and outside. -/
def meanings (p : Program) (trees : List Tree) : List (Option Meaning × Option Meaning) :=
  ((p.readPairs trees).filter fun a => a.SameName p).map fun a =>
    (a.site.meaning? p a.home.owner, p.meaning? a.read)

theorem exists_of_mem_meanings {inside outside : Option Meaning}
    (h : (inside, outside) ∈ p.meanings trees) :
    ∃ a ∈ p.readPairs trees, a.SameName p ∧ a.site.meaning? p a.home.owner = inside ∧
      p.meaning? a.read = outside := by
  obtain ⟨a, ha, hvalues⟩ := List.mem_map.mp h
  obtain ⟨ha, hsame⟩ := List.mem_filter.mp ha
  obtain ⟨hinside, houtside⟩ := Prod.mk.inj hvalues
  exact ⟨a, ha, of_decide_eq_true hsame, hinside, houtside⟩

def linkedMeanings? (sources : List (Text × Text)) :
    Option (List (Option Meaning × Option Meaning)) :=
  match linkPhases (.ofSources sources) false { stdPath := "/s.wv" } "/m.wv"
      { workingDir := "/" } with
  | .ok (_, trees) q => some (q.meanings trees)
  | .error _ _ => none

theorem exists_of_linkedMeanings? {sources : List (Text × Text)}
    {pairs : List (Option Meaning × Option Meaning)} (h : linkedMeanings? sources = some pairs) :
    ∃ symbols trees q,
      linkPhases (.ofSources sources) false { stdPath := "/s.wv" } "/m.wv" { workingDir := "/" } =
        .ok (symbols, trees) q ∧ q.meanings trees = pairs := by
  unfold linkedMeanings? at h
  split at h
  · next symbols trees q hrun => exact ⟨symbols, trees, q, hrun, Option.some.inj h⟩
  · cases h

def sharedSources : List (Text × Text) :=
  [("/s.wv", ""),
    ("/y.wv", "enum E { A }\nlet n = { A: 5 }\nfn f(E) { $in(E.A) $in(n) }\n$in(E.A)\n$in(n.A)\n"),
    ("/m.wv", "import y from \"y.wv\"\n$out(y.E.A)\n$out(y.n.A)\n$out(y.n)\n")]

set_option maxRecDepth 100000 in
theorem means_same_iff_shared :
    ∃ p₀ symbols trees q a, create "/" [] = .ok p₀ ∧
      linkPhases (.ofSources sharedSources) false { stdPath := "/s.wv" } "/m.wv" p₀ =
        .ok (symbols, trees) q ∧
      q.meanings trees =
        [(some (.entry ⟨"y", "E", "A", 1⟩), some (.entry ⟨"y", "E", "A", 1⟩)),
          (some (.binding 0 "y:n" "A"), some (.binding 0 "y:n" "A")),
          (some (.binding 0 "y:n" ""), some (.binding 0 "y:n" ""))] ∧
      a ∈ q.readPairs trees ∧ a.SameName q ∧
      a.site.meaning? q a.home.owner = some (.entry ⟨"y", "E", "A", 1⟩) ∧
      ¬(((q.spaceAt a.home.owner).enum? (q.reference a.read.reference).name).isSome = true ∧
        (q.reference a.read.reference).name ∈ Stmt.declaredNames a.home.statements) := by
  have hruns : linkedMeanings? sharedSources =
      some [(some (.entry ⟨"y", "E", "A", 1⟩), some (.entry ⟨"y", "E", "A", 1⟩)),
        (some (.binding 0 "y:n" "A"), some (.binding 0 "y:n" "A")),
        (some (.binding 0 "y:n" ""), some (.binding 0 "y:n" ""))] := by
    decide +kernel
  obtain ⟨symbols, trees, q, hrun, hmeanings⟩ := exists_of_linkedMeanings? hruns
  obtain ⟨a, ha, hsame, hinside, houtside⟩ :=
    exists_of_mem_meanings (hmeanings ▸ List.mem_cons_self)
  obtain ⟨-, -, -, -, hiff⟩ := means_same_iff (.ofSources sharedSources) "/" false
    { stdPath := "/s.wv" } "/m.wv" (create_nil "/" Glob.reader) hrun ha hsame
  exact ⟨_, symbols, trees, q, a, rfl, hrun, hmeanings, ha, hsame, hinside,
    hiff.mp (hinside.trans houtside.symm)⟩

/-- A file that declares a name both as an enum and at its top level. -/
def twiceSources : List (Text × Text) :=
  [("/s.wv", ""), ("/y.wv", "enum E { A }\nlet E = { A: 5 }\n$in(E.A)\n"),
    ("/m.wv", "import y from \"y.wv\"\n$out(y.E.A)\n")]

set_option maxRecDepth 100000 in
/-- The file itself reads the binding, and the file that imports it the entry of the enum. -/
theorem twice_declared_means_both :
    ∃ p₀ symbols trees q a, create "/" [] = .ok p₀ ∧
      linkPhases (.ofSources twiceSources) false { stdPath := "/s.wv" } "/m.wv" p₀ =
        .ok (symbols, trees) q ∧
      a ∈ q.readPairs trees ∧ a.SameName q ∧
      a.site.meaning? q a.home.owner = some (.binding 0 "y:E" "A") ∧
      q.meaning? a.read = some (.entry ⟨"y", "E", "A", 1⟩) := by
  have hruns : linkedMeanings? twiceSources =
      some [(some (.binding 0 "y:E" "A"), some (.entry ⟨"y", "E", "A", 1⟩))] := by
    decide +kernel
  obtain ⟨symbols, trees, q, hrun, hmeanings⟩ := exists_of_linkedMeanings? hruns
  obtain ⟨a, ha, hsame, hinside, houtside⟩ :=
    exists_of_mem_meanings (hmeanings ▸ List.mem_cons_self)
  exact ⟨_, symbols, trees, q, a, rfl, hrun, ha, hsame, hinside, houtside⟩

end Program

end Splice

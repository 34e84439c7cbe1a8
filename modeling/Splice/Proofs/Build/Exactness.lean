import Splice.Proofs.Build.Attachment
import Splice.Proofs.Build.Resolution
import Splice.Proofs.Build.Sequence

/-!
# Cross-linking is exact

A reading node is known to linking twice: by its reference, which code is generated
from, and by the record it is attached to, which decides what dead code removal keeps.
Both are settled by functions of their own, but from the same namespace, alias and name,
so they come to the same end (`Program.Attaches.agreement`).  Every record has a reader,
so linking fails only if a reference names nothing, and what a reference may name is
read off the trees and the enums (`Program.LinkReady.resolution?_isSome_iff`).
-/

namespace Splice

/-- A node that reads another namespace: its place, its reference and its record. -/
structure ForeignRead where
  offset : Nat
  reference : ReferenceId
  record : Option ForeignId
deriving DecidableEq, Repr, Inhabited

/-- The foreign read that a node is: a name behind an alias, or one of the standard
library. -/
def Node.foreignRead? : Node → Option ForeignRead
  | expr (.name o _ (.std r record)) => some ⟨o, r, record⟩
  | expr (.imported o r _ record) => some ⟨o, r, record⟩
  | _ => none

def Mention.foreignRead? : Mention → Option ForeignRead
  | name o _ (.std r record) => some ⟨o, r, record⟩
  | imported o r record => some ⟨o, r, record⟩
  | _ => none

theorem exists_mention_of_foreignRead? {t : Tree} {node : Node} {x : ForeignRead}
    (hnode : node ∈ t.nodes) (hx : node.foreignRead? = some x) :
    ∃ m ∈ Stmt.mentionsOfAll t.statements, m.foreignRead? = some x := by
  have hmention : ∃ m, node.mention? = some m ∧ m.foreignRead? = some x := by
    cases node with
    | stmt s => cases hx
    | expr e =>
        cases e with
        | name o n read =>
            cases read with
            | unbound => cases hx
            | own s usage => cases hx
            | std r record => exact ⟨_, rfl, hx⟩
        | imported o r m record => exact ⟨_, rfl, hx⟩
        | number o v => cases hx
        | string o v => cases hx
        | bool o v => cases hx
        | nil o => cases hx
        | member o y n p entry => cases hx
        | call o callee args => cases hx
        | syscall o n args => cases hx
        | object o keys values => cases hx
        | binary o op a b => cases hx
        | unary o op a => cases hx
  obtain ⟨m, hm, hread⟩ := hmention
  refine ⟨m, ?_, hread⟩
  have hmem : m ∈ t.nodes.filterMap Node.mention? := List.mem_filterMap.mpr ⟨node, hnode, hm⟩
  rw [Tree.nodes, Stmt.filterMap_mention?_nodesOfAll] at hmem
  exact (List.mem_filter.mp hmem).1

namespace Mention

variable {m : Mention} {x : ForeignRead}

theorem read?_of_foreignRead? (hx : m.foreignRead? = some x) :
    m.read? = some ⟨x.offset, none, x.record⟩ := by
  cases m with
  | name o n read =>
      cases read with
      | unbound => cases hx
      | own s usage => cases hx
      | std r record => cases hx; rfl
  | imported o r record => cases hx; rfl
  | property s => cases hx
  | binding n s => cases hx

theorem exists_foreignRead? {r : Read} {f : ForeignId} (hr : m.read? = some r)
    (hf : r.record = some f) : ∃ x, m.foreignRead? = some x := by
  cases m with
  | name o n read =>
      cases read with
      | unbound => cases hr
      | own s usage =>
          cases hr
          cases hf
      | std r record => exact ⟨_, rfl⟩
  | imported o r record => exact ⟨_, rfl⟩
  | property s => cases hr
  | binding n s => cases hr

theorem Attached.of_foreignRead? {c : Naming} (h : m.Attached c) (hx : m.foreignRead? = some x) :
    ∃ f, x.record = some f ∧ c.foreign x.reference f := by
  cases m with
  | name o n read =>
      cases read with
      | unbound => cases hx
      | own s usage => cases hx
      | std r record => cases hx; exact h
  | imported o r record => cases hx; exact h
  | property s => cases hx
  | binding n s => cases hx

theorem Valid.of_foreignRead? {p : Program} {n : NamespaceId} (h : m.Valid p n)
    (hx : m.foreignRead? = some x) : x.reference ∈ (p.spaceAt n).references := by
  cases m with
  | name o n read =>
      cases read with
      | unbound => cases hx
      | own s usage => cases hx
      | std r record => cases hx; exact h.1
  | imported o r record => cases hx; exact h.1
  | property s => cases hx
  | binding n s => cases hx

end Mention

namespace Program

variable {p q : Program} {n m : NamespaceId} {r : ReferenceId} {f : ForeignId} {x : ForeignRead}
  {root : ScopeId} {t : Tree} {trees : List Tree} {readPattern : PatternReader}

/-! ## Before linking -/

/-- What holds of analysed trees before they are linked. -/
structure LinkReady (p : Program) (trees : List Tree) : Prop where
  linkable : Linkable p trees
  prepared : ∀ t ∈ trees, ∃ root, Prepared p root t
  unlinked : p.ledger.Unlinked
  owners : (trees.map Tree.owner).Nodup
  unresolved : ∀ r, (p.reference r).resolution = .unresolved
  targets : ∀ t ∈ trees, ∀ qualifier m, p.importTarget? t.owner qualifier = some m →
    ∃ u ∈ trees, u.owner = m
  ids : ∀ n name, ∀ s ∈ p.symbolsOf n name,
    (p.symbol s).id = Symbol.idOf (p.spaceAt n).id name

theorem LinkReady.follows (h : LinkReady p trees) : p.Follows p where
  toSameTargets := SameTargets.refl p
  resolved _ r _ := Or.inl (h.unresolved r)
  tied _ f _ := Or.inl (h.unlinked.loose f)

theorem LinkReady.linkTarget? (h : LinkReady p trees) (ht : t ∈ trees) {qualifier : Text}
    (hm : p.importTarget? t.owner qualifier = some m) :
    ∃ root, p.linkTarget? t.owner qualifier = some (m, root) := by
  obtain ⟨u, hu, rfl⟩ := h.targets t ht qualifier m hm
  obtain ⟨root, hprepared⟩ := h.prepared u hu
  refine ⟨root, ?_⟩
  rw [Program.linkTarget?, hm, Option.bind_some, hprepared.rooted]
  rfl

/-- An answer for a reference is an entry of an enum, or a binding of what is no enum. -/
theorem resolution?_eq_some_iff {resolution : Resolution} :
    p.resolution? n r = some resolution ↔
      ∃ m root, p.linkTarget? n (p.reference r).qualifier = some (m, root) ∧
        ((∃ enum entry, (p.spaceAt m).enum? (p.reference r).name = some enum ∧
            (p.reference r).member ≠ [] ∧ enum.entry? (p.reference r).member = some entry ∧
            resolution = .entry (p.spaceAt m).id enum.name entry.name entry.value) ∨
          ((p.spaceAt m).enum? (p.reference r).name = none ∧
            ∃ u s, p.definedUsage? m root (p.reference r).name = some u ∧
              (p.reference r).target.or (p.symbolsOf m (p.reference r).name).head? = some s ∧
              resolution = .value s)) := by
  unfold resolution?
  constructor
  · intro h
    obtain ⟨⟨m, root⟩, htarget, h⟩ := Option.bind_eq_some_iff.mp h
    refine ⟨m, root, htarget, ?_⟩
    dsimp only at h
    split at h
    · next enum henum =>
        split at h
        · cases h
        · next hmember =>
            obtain ⟨entry, hentry, rfl⟩ := Option.map_eq_some_iff.mp h
            exact Or.inl ⟨enum, entry, henum, by simpa using hmember, hentry, rfl⟩
    · next henum =>
        obtain ⟨u, hu, h⟩ := Option.bind_eq_some_iff.mp h
        obtain ⟨s, hs, rfl⟩ := Option.map_eq_some_iff.mp h
        exact Or.inr ⟨henum, u, s, hu, hs, rfl⟩
  · rintro ⟨m, root, htarget, hcases⟩
    rw [htarget, Option.bind_some]
    dsimp only
    rcases hcases with ⟨enum, entry, henum, hmember, hentry, rfl⟩ | ⟨henum, u, s, hu, hs, rfl⟩
    · rw [henum]
      dsimp only
      rw [if_neg (by simpa using hmember), hentry]
      rfl
    · rw [henum]
      dsimp only
      rw [hu, Option.bind_some, hs]
      rfl

/-- A binding that a namespace defines is one of its own outermost scope. -/
theorem Linkable.own?_of_definedUsage? (h : Linkable p trees)
    (hroot : (p.spaceAt m).root = some root) {name : Text} {u : UsageId}
    (hu : p.definedUsage? m root name = some u) :
    p.ledger.own? root (Symbol.idOf (p.spaceAt m).id name) = some u ∧
      (p.ledger.usage u).defined = true := by
  obtain ⟨t, -, -, hsound⟩ := h.sound_root hroot
  rw [definedUsage?, h.wellFormed.find?_eq_own? hsound.outermost] at hu
  split at hu
  · next v hv =>
      split at hu
      · next hdefined =>
          cases hu
          exact ⟨hv, hdefined⟩
      · cases hu
  · cases hu

theorem declared?_of_declares {st : Stmt} {name : Text} {u : UsageId} (h : st.Declares name u) :
    st.declared?.map Prod.fst = some name := by
  cases st with
  | let_ o n s v usage => exact congrArg some h.1
  | fn o n s ps bo body usage => exact congrArg some h.1
  | import_ o a p => cases h
  | enum o n es => cases h
  | retain o ns => cases h
  | return_ o v => cases h
  | if_ o c b t e => cases h
  | block o body => cases h
  | assign o n s v u => cases h
  | setMember o t p v => cases h
  | expr y => cases h

theorem exists_binding_of_declaredNames {ss : List Stmt} {name : Text}
    (h : name ∈ Stmt.declaredNames ss) :
    ∃ s, Mention.binding name s ∈ Stmt.mentionsOfAll ss := by
  unfold Stmt.declaredNames at h
  obtain ⟨st, hst, hdeclared⟩ := List.mem_filterMap.mp h
  have hmention : ∃ s, Mention.binding name s ∈ st.mentions := by
    cases st with
    | let_ o n s v u =>
        cases hdeclared
        exact ⟨s, by simp [Stmt.mentions]⟩
    | fn o n s ps bo body u =>
        cases hdeclared
        exact ⟨s, by simp [Stmt.mentions]⟩
    | import_ o a p => cases hdeclared
    | enum o n es => cases hdeclared
    | retain o ns => cases hdeclared
    | return_ o v => cases hdeclared
    | if_ o c b t e => cases hdeclared
    | block o body => cases hdeclared
    | assign o n s v u => cases hdeclared
    | setMember o t p v => cases hdeclared
    | expr y => cases hdeclared
  obtain ⟨s, hs⟩ := hmention
  refine ⟨s, ?_⟩
  clear h
  induction ss with
  | nil => cases hst
  | cons st' rest ih =>
      rcases List.mem_cons.mp hst with rfl | hrest
      · exact List.mem_append_left _ hs
      · exact List.mem_append_right _ (ih hrest)

/-- The bindings of a namespace are what its tree declares at the top level. -/
theorem LinkReady.definedUsage?_isSome_iff (h : LinkReady p trees) (ht : t ∈ trees)
    (hroot : (p.spaceAt t.owner).root = some root) (name : Text) :
    (p.definedUsage? t.owner root name).isSome = true ↔
      name ∈ Stmt.declaredNames t.statements := by
  obtain ⟨root', hsound⟩ := h.linkable.sound t ht
  obtain ⟨root'', hprepared⟩ := h.prepared t ht
  obtain rfl : root' = root := Option.some.inj (hsound.rooted.symm.trans hroot)
  obtain rfl : root'' = root' := Option.some.inj (hprepared.rooted.symm.trans hroot)
  constructor
  · intro hsome
    obtain ⟨u, hu⟩ := Option.isSome_iff_exists.mp hsome
    have hfind := definedUsage?_eq_some hu
    rw [Ledger.find?_eq_lookup] at hfind
    rcases hsound.supported name u hfind trivial with ⟨q, hq, -⟩ | ⟨st, hst, hdeclares⟩
    · cases hq
    · apply List.mem_filterMap.mpr
      exact ⟨st, hst, by rw [declared?_of_declares hdeclares]⟩
  · intro hname
    obtain ⟨u, hu⟩ := Option.isSome_iff_exists.mp (hprepared.exported name hname)
    rw [← h.linkable.wellFormed.find?_eq_own? hsound.outermost] at hu
    have hdefined := h.unlinked.defined u (h.linkable.wellFormed.lt_of_find? hu)
    simp [definedUsage?, hu, hdefined]

/-- A reference names an entry of an enum of the namespace it leads to, or what is no
enum there and is declared at the top level. -/
def Names (p : Program) (trees : List Tree) (n : NamespaceId) (r : ReferenceId) : Prop :=
  ∃ m, p.importTarget? n (p.reference r).qualifier = some m ∧
    ((∃ enum, (p.spaceAt m).enum? (p.reference r).name = some enum ∧
        (p.reference r).member ≠ [] ∧
        (enum.entry? (p.reference r).member).isSome = true) ∨
      ((p.spaceAt m).enum? (p.reference r).name = none ∧
        ∃ t ∈ trees, t.owner = m ∧
          (p.reference r).name ∈ Stmt.declaredNames t.statements))

theorem of_linkTarget? {qualifier : Text} (h : p.linkTarget? n qualifier = some (m, root)) :
    p.importTarget? n qualifier = some m ∧ (p.spaceAt m).root = some root := by
  unfold linkTarget? at h
  obtain ⟨k, hk, hroot⟩ := Option.bind_eq_some_iff.mp h
  obtain ⟨root', hroot', heq⟩ := Option.map_eq_some_iff.mp hroot
  cases heq
  exact ⟨hk, hroot'⟩

/-- A reference has an answer exactly if it names something. -/
theorem LinkReady.resolution?_isSome_iff (h : LinkReady p trees) (ht : t ∈ trees) :
    (p.resolution? t.owner r).isSome = true ↔ p.Names trees t.owner r := by
  constructor
  · intro hsome
    obtain ⟨resolution, hresolution⟩ := Option.isSome_iff_exists.mp hsome
    obtain ⟨m, root, htarget, hcases⟩ := resolution?_eq_some_iff.mp hresolution
    obtain ⟨himport, hroot⟩ := of_linkTarget? htarget
    refine ⟨m, himport, ?_⟩
    rcases hcases with ⟨enum, entry, henum, hmember, hentry, -⟩ | ⟨henum, u, s, hu, -, -⟩
    · left
      refine ⟨enum, henum, hmember, ?_⟩
      rw [hentry]
      rfl
    · right
      obtain ⟨t', ht', rfl⟩ := h.linkable.rooted m root hroot
      refine ⟨henum, t', ht', rfl, ?_⟩
      rw [← h.definedUsage?_isSome_iff ht' hroot, hu]
      rfl
  · rintro ⟨m, himport, hcases⟩
    obtain ⟨root, htarget⟩ := h.linkTarget? ht himport
    rw [Option.isSome_iff_exists]
    rcases hcases with ⟨enum, henum, hmember, hentry⟩ | ⟨henum, t', ht', rfl, hname⟩
    · obtain ⟨entry, hentry⟩ := Option.isSome_iff_exists.mp hentry
      exact ⟨_, resolution?_eq_some_iff.mpr
        ⟨m, root, htarget, Or.inl ⟨enum, entry, henum, hmember, hentry, rfl⟩⟩⟩
    · have hroot := (of_linkTarget? htarget).2
      obtain ⟨u, hu⟩ := Option.isSome_iff_exists.mp
        ((h.definedUsage?_isSome_iff ht' hroot _).mpr hname)
      obtain ⟨root', hsound⟩ := h.linkable.sound t' ht'
      obtain ⟨s, hs⟩ := exists_binding_of_declaredNames hname
      have hvalid : s ∈ p.symbolsOf t'.owner (p.reference r).name := hsound.valid _ hs
      have hhead : ((p.reference r).target.or
          (p.symbolsOf t'.owner (p.reference r).name).head?).isSome = true := by
        rw [Option.isSome_or, Bool.or_eq_true]
        right
        rw [List.isSome_head?]
        exact List.ne_nil_of_mem hvalid
      obtain ⟨v, hv⟩ := Option.isSome_iff_exists.mp hhead
      exact ⟨_, resolution?_eq_some_iff.mpr
        ⟨_, root, htarget, Or.inr ⟨henum, u, v, hu, hv, rfl⟩⟩⟩

/-- A foreign read of a tree together with its record, which stands in a scope of the
tree and has the alias and the name of the reference. -/
structure Attaches (p : Program) (t : Tree) (x : ForeignRead) (f : ForeignId) : Prop where
  record : x.record = some f
  reference : x.reference ∈ (p.spaceAt t.owner).references
  owns : p.Owns t.owner f
  qualifier : (p.ledger.foreignUsage f).qualifier = (p.reference x.reference).qualifier
  name : (p.ledger.foreignUsage f).name = (p.reference x.reference).name
  read : ⟨x.offset, none, some f⟩ ∈ t.reads

theorem LinkReady.attaches (h : LinkReady p trees) (ht : t ∈ trees) {mention : Mention}
    (hmention : mention ∈ Stmt.mentionsOfAll t.statements)
    (hx : mention.foreignRead? = some x) : ∃ f, Attaches p t x f := by
  obtain ⟨root, hprepared⟩ := h.prepared t ht
  obtain ⟨root', hsound⟩ := h.linkable.sound t ht
  obtain ⟨f, hrecord, s, -, hchain, hfiles⟩ :=
    (hprepared.attached mention hmention).of_foreignRead? hx
  refine ⟨f, hrecord, (hsound.valid mention hmention).of_foreignRead? hx,
    ⟨root, s, hprepared.rooted, hchain, hfiles.mem⟩, hfiles.qualifier, hfiles.name, ?_⟩
  rw [Tree.reads_eq_mentions, List.mem_filterMap]
  refine ⟨mention, hmention, ?_⟩
  rw [Mention.read?_of_foreignRead? hx, hrecord]

/-- Every record of a namespace has a reader there. -/
theorem LinkReady.exists_attaches (h : LinkReady p trees) (ht : t ∈ trees)
    (hf : p.Owns t.owner f) : ∃ x, Attaches p t x f := by
  have hreaders := h.unlinked.read f (hf.lt h.linkable.wellFormed)
  obtain ⟨reader, hreader⟩ := List.exists_mem_of_ne_nil _ hreaders
  rw [(h.linkable.accounts.foreign f).mem_iff, Ledger.foreignReadersOf] at hreader
  obtain ⟨e, he, -⟩ := List.mem_map.mp hreader
  obtain ⟨hplaced, hrecord⟩ := List.mem_filter.mp he
  rw [beq_iff_eq] at hrecord
  obtain ⟨t', ht', hplace⟩ := List.mem_flatMap.mp hplaced
  obtain ⟨read, hmem, rfl⟩ := List.mem_map.mp hplace
  rw [Tree.reads_eq_mentions] at hmem
  obtain ⟨mention, hmention, hread⟩ := List.mem_filterMap.mp hmem
  obtain ⟨x, hx⟩ := Mention.exists_foreignRead? hread hrecord
  obtain ⟨g, hattaches⟩ := h.attaches ht' hmention hx
  have hfg : g = f := by
    rw [Mention.read?_of_foreignRead? hx] at hread
    cases hread
    exact Option.some.inj (hattaches.record.symm.trans hrecord)
  subst hfg
  have howner := h.linkable.owner_unique hattaches.owns hf
  have htree : t' = t := List.inj_on_of_nodup_map h.owners ht' ht howner
  exact ⟨x, htree ▸ hattaches⟩

/-- What the answers for a reference and for its record come to. -/
inductive Agreement (p : Program) (n : NamespaceId) (r : ReferenceId) :
    Resolution → Option UsageId → Prop
  | entry {m : NamespaceId} {enum : Enumeration} {entry : EnumEntry}
      (target : p.importTarget? n (p.reference r).qualifier = some m)
      (enum_eq : (p.spaceAt m).enum? (p.reference r).name = some enum)
      (entry_eq : enum.entry? (p.reference r).member = some entry) :
      Agreement p n r (.entry (p.spaceAt m).id enum.name entry.name entry.value) none
  | binding {m : NamespaceId} {root : ScopeId} {u : UsageId} {s : SymbolId}
      (target : p.importTarget? n (p.reference r).qualifier = some m)
      (rooted : (p.spaceAt m).root = some root)
      (usage : p.definedUsage? m root (p.reference r).name = some u)
      (symbol : (p.reference r).target.or (p.symbolsOf m (p.reference r).name).head? = some s) :
      Agreement p n r (.value s) (some u)

/-- The two paths of linking agree. -/
theorem Attaches.agreement (h : Attaches p t x f) {resolution : Resolution}
    (hresolution : p.resolution? t.owner x.reference = some resolution) :
    ∃ target, p.tie? t.owner f = some target ∧
      Agreement p t.owner x.reference resolution target := by
  obtain ⟨m, root, htarget, hcases⟩ := resolution?_eq_some_iff.mp hresolution
  obtain ⟨himport, hroot⟩ := of_linkTarget? htarget
  unfold tie?
  rw [h.qualifier, h.name, htarget, Option.bind_some]
  dsimp only
  rcases hcases with ⟨enum, entry, henum, -, hentry, rfl⟩ | ⟨henum, u, s, hu, hs, rfl⟩
  · rw [henum]
    exact ⟨none, rfl, .entry himport henum hentry⟩
  · rw [henum, hu]
    exact ⟨some u, rfl, .binding himport hroot hu hs⟩

theorem LinkReady.answered (h : LinkReady p trees) (ht : t ∈ trees)
    (hnames : ∀ r ∈ (p.spaceAt t.owner).references, p.Names trees t.owner r) :
    p.Answered t.owner := by
  have hreferences : ∀ r ∈ (p.spaceAt t.owner).references,
      (p.resolution? t.owner r).isSome = true := by
    intro r hr
    exact (h.resolution?_isSome_iff ht).mpr (hnames r hr)
  refine ⟨hreferences, ?_⟩
  intro f hf
  obtain ⟨x, hattaches⟩ := h.exists_attaches ht hf
  obtain ⟨resolution, hresolution⟩ :=
    Option.isSome_iff_exists.mp (hreferences x.reference hattaches.reference)
  obtain ⟨target, htarget, -⟩ := hattaches.agreement hresolution
  rw [htarget]
  rfl

/-! ## After linking -/

theorem LinkReady.ends (h : LinkReady p trees) :
    Ends (linkAll trees) p
      (Refuses (∀ t ∈ trees, p.Answered t.owner) (∀ t ∈ trees, p.Directed t.owner)) fun _ q =>
      p.Follows q ∧ ∀ t ∈ trees, (q.spaceAt t.owner).stage = .crossLinked := by
  refine (ends_linkAll h.linkable h.follows ?_ h.owners ?_).mono fun _ q hq => ⟨hq.1, hq.2.1⟩
  · intro t ht
    obtain ⟨root, hprepared⟩ := h.prepared t ht
    exact ⟨root, hprepared.rooted⟩
  · intro t ht
    obtain ⟨root, hprepared⟩ := h.prepared t ht
    exact hprepared.stage

theorem LinkReady.settled (h : LinkReady p trees) (hrun : linkAll trees p = .ok () q) :
    Linkable q trees ∧ ∀ t ∈ trees, q.Linked t.owner :=
  (yields_linkAll h.linkable (fun _ ht => ht) () q hrun).2

theorem LinkReady.resolution_eq (h : LinkReady p trees) (hrun : linkAll trees p = .ok () q)
    (ht : t ∈ trees) (hr : r ∈ (p.spaceAt t.owner).references) :
    p.resolution? t.owner r = some (q.reference r).resolution := by
  have hfollows := (h.ends.yields () q hrun).1
  have hlinked := (h.settled hrun).2 t ht
  rw [← hfollows.spaceReferences] at hr
  have hclosed := hlinked.references r hr
  rw [hfollows.spaceReferences] at hr
  exact (hfollows.resolved t.owner r hr).resolve_left hclosed

/-- Linking succeeds exactly if every reference names something. -/
theorem LinkReady.succeeds_iff (h : LinkReady p trees) :
    (∃ q, linkAll trees p = .ok () q) ↔
      ∀ t ∈ trees, ∀ r ∈ (p.spaceAt t.owner).references, p.Names trees t.owner r := by
  constructor
  · rintro ⟨q, hrun⟩ t ht r hr
    rw [← h.resolution?_isSome_iff ht, h.resolution_eq hrun ht hr]
    rfl
  · intro hnames
    obtain ⟨_, q, hrun⟩ := h.ends.succeeds fun e he =>
      he.1 fun t ht => h.answered ht (hnames t ht)
    exact ⟨q, hrun⟩

theorem Agreement.sameTargets {resolution : Resolution} {target : Option UsageId}
    (h : Agreement p n r resolution target) (hq : p.SameTargets q) :
    Agreement q n r resolution target := by
  obtain ⟨other, hr⟩ := hq.reference r
  have hqualifier : (q.reference r).qualifier = (p.reference r).qualifier := by rw [hr]
  have hname : (q.reference r).name = (p.reference r).name := by rw [hr]
  have hmember : (q.reference r).member = (p.reference r).member := by rw [hr]
  have hown : (q.reference r).target = (p.reference r).target := by rw [hr]
  cases h with
  | entry htarget henum hentry =>
      rw [← hqualifier, ← hq.importTarget?] at htarget
      rw [← hname, ← hq.enum?] at henum
      rw [← hmember] at hentry
      rw [← hq.id]
      exact .entry htarget henum hentry
  | binding htarget hroot hu hs =>
      rw [← hqualifier, ← hq.importTarget?] at htarget
      rw [← hq.root] at hroot
      rw [← hname, ← hq.definedUsage?] at hu
      rw [← hown, ← hname, ← hq.symbolsOf] at hs
      exact .binding htarget hroot hu hs

theorem LinkReady.agreement (h : LinkReady p trees) (hrun : linkAll trees p = .ok () q)
    (ht : t ∈ trees) (hattaches : Attaches p t x f) :
    Agreement q t.owner x.reference (q.reference x.reference).resolution
        (q.ledger.foreignUsage f).resolved ∧
      (q.ledger.foreignUsage f).isEnum = (q.ledger.foreignUsage f).resolved.isNone := by
  have hfollows := (h.ends.yields () q hrun).1
  obtain ⟨target, htarget, hagreement⟩ :=
    hattaches.agreement (h.resolution_eq hrun ht hattaches.reference)
  have hclosed : ¬q.IsOpen f := by
    obtain ⟨root, s, hroot, hchain, hf⟩ := hattaches.owns
    apply ((h.settled hrun).2 t ht).records root
    · rw [hfollows.root]
      exact hroot
    · rw [hfollows.scopes]
      exact Ledger.lt_of_mem_foreign hf
    · rw [Ledger.chain_congr hfollows.scopes]
      exact hchain
    · rw [Ledger.scope_congr hfollows.scopes]
      exact hf
  obtain ⟨htie, hisEnum⟩ := (hfollows.tied t.owner f hattaches.owns).resolve_left hclosed
  rw [htarget] at htie
  cases htie
  exact ⟨hagreement.sameTargets hfollows.toSameTargets, hisEnum⟩

/-- A reference denotes the entry of an enum that it names, with the entry's value. -/
def DenotesEntry (p : Program) (n : NamespaceId) (r : ReferenceId) : Prop :=
  ∃ m enum entry, p.importTarget? n (p.reference r).qualifier = some m ∧
    (p.spaceAt m).enum? (p.reference r).name = some enum ∧
    enum.entry? (p.reference r).member = some entry ∧
    (p.reference r).resolution = .entry (p.spaceAt m).id enum.name entry.name entry.value

def IsEnumRecord (p : Program) (f : ForeignId) : Prop :=
  (p.ledger.foreignUsage f).isEnum = true ∧ (p.ledger.foreignUsage f).resolved = none

/-- A read denotes the binding that its record is tied to.  It is a defined one of the
outermost scope of the namespace that the reference leads to, and lists the node. -/
def DenotesBinding (p : Program) (n : NamespaceId) (x : ForeignRead) (f : ForeignId) : Prop :=
  ∃ m root u s, p.importTarget? n (p.reference x.reference).qualifier = some m ∧
    (p.spaceAt m).root = some root ∧
    (p.reference x.reference).resolution = .value s ∧
    (p.ledger.foreignUsage f).resolved = some u ∧
    (p.symbol s).id = (p.ledger.usage u).id ∧
    p.ledger.own? root (Symbol.idOf (p.spaceAt m).id (p.reference x.reference).name) = some u ∧
    (p.ledger.usage u).defined = true ∧
    ⟨n, x.offset⟩ ∈ (p.ledger.usage u).readers

/-- What code generation and dead code removal are told of a read is the same. -/
structure LinksExactly (p : Program) (n : NamespaceId) (x : ForeignRead) (f : ForeignId) :
    Prop where
  record : x.record = some f
  entry : p.DenotesEntry n x.reference ↔ p.IsEnumRecord f
  binding : ¬p.IsEnumRecord f → p.DenotesBinding n x f

theorem LinkReady.id_symbol (h : LinkReady p trees) (hrun : linkAll trees p = .ok () q)
    (ht : t ∈ trees) (hr : r ∈ (q.spaceAt t.owner).references)
    (hm : q.importTarget? t.owner (q.reference r).qualifier = some m) {s : SymbolId}
    (hs : (q.reference r).target.or (q.symbolsOf m (q.reference r).name).head? = some s) :
    (q.symbol s).id = Symbol.idOf (q.spaceAt m).id (q.reference r).name := by
  have hfollows := (h.ends.yields () q hrun).1
  have hmem : s ∈ q.symbolsOf m (q.reference r).name := by
    rcases Option.or_eq_some_iff.mp hs with htarget | ⟨-, hhead⟩
    · obtain ⟨m', hm', hmem⟩ := (h.settled hrun).1.targeted t ht r hr s htarget
      rw [hm] at hm'
      cases hm'
      exact hmem
    · exact List.mem_of_mem_head? hhead
  rw [hfollows.symbolsOf] at hmem
  rw [symbol, hfollows.symbols, hfollows.id]
  exact h.ids m _ s hmem

theorem LinkReady.linksExactly (h : LinkReady p trees) (hrun : linkAll trees p = .ok () q)
    (ht : t ∈ trees) (hattaches : Attaches p t x f) : q.LinksExactly t.owner x f := by
  obtain ⟨hagreement, hisEnum⟩ := h.agreement hrun ht hattaches
  have hlinkable := (h.settled hrun).1
  have hreference : x.reference ∈ (q.spaceAt t.owner).references := by
    rw [(h.ends.yields () q hrun).1.spaceReferences]
    exact hattaches.reference
  refine ⟨hattaches.record, ?_, ?_⟩
  · unfold IsEnumRecord
    rw [hisEnum]
    constructor
    · rintro ⟨m, enum, entry, -, -, -, hentry⟩
      generalize hresolution : (q.reference x.reference).resolution = resolution at hagreement
      generalize (q.ledger.foreignUsage f).resolved = target at hagreement
      cases hagreement with
      | entry => exact ⟨rfl, rfl⟩
      | binding =>
          rw [hresolution] at hentry
          cases hentry
    · rintro ⟨-, hresolved⟩
      rw [hresolved] at hagreement
      generalize hresolution : (q.reference x.reference).resolution = resolution at hagreement
      cases hagreement with
      | entry hm henum hentry => exact ⟨_, _, _, hm, henum, hentry, hresolution⟩
  · intro hbinding
    generalize hresolution : (q.reference x.reference).resolution = resolution at hagreement
    generalize hresolved : (q.ledger.foreignUsage f).resolved = target at hagreement
    cases hagreement with
    | entry hm henum hentry =>
        refine absurd ⟨?_, hresolved⟩ hbinding
        rw [hisEnum, hresolved]
        rfl
    | @binding m root u s hm hroot hu hs =>
        obtain ⟨hown, hdefined⟩ := hlinkable.own?_of_definedUsage? hroot hu
        refine ⟨m, root, u, s, hm, hroot, hresolution, hresolved, ?_, hown, hdefined, ?_⟩
        · rw [h.id_symbol hrun ht hreference hm hs, Ledger.id_of_own? hown]
        · have hplaced : (⟨t.owner, ⟨x.offset, none, some f⟩⟩ : PlacedRead) ∈
              placedReads trees :=
            List.mem_flatMap.mpr ⟨t, ht, List.mem_map_of_mem hattaches.read⟩
          apply hlinkable.accounts.mem_readers hplaced
          simp [Ledger.resolves, hresolved]

theorem LinkReady.link_again (h : LinkReady p trees) (hrun : linkAll trees p = .ok () q)
    (ht : t ∈ trees) : link t.owner q = .ok () q := by
  obtain ⟨hlinkable, hlinked⟩ := h.settled hrun
  obtain ⟨root, hsound⟩ := hlinkable.sound t ht
  exact link_eq_of_linked hlinkable.wellFormed (hlinked t ht) hsound.rooted
    ((h.ends.yields () q hrun).2 t ht)

/-- The phases of a build up to the analysis. -/
def checkPhases (loader : Loader) (cancelled : Bool) (o : BuildOptions) (entry : Text) :
    Linking (List MangleEntry × List Tree) := do
  let d ← findPhases loader cancelled o entry
  let symbols ← mangleIfAsked o d.order
  let trees ← Linking.phase "analysis" (checkAll d.orderedTrees)
  return (symbols, trees)

theorem id_ofName (space name : Text) : (Symbol.ofName space name).id = Symbol.idOf space name := by
  unfold Symbol.ofName
  split
  · next hempty =>
      rw [List.isEmpty_iff.mp hempty]
      rfl
  · rfl

theorem yields_mangleIfAsked_id (o : BuildOptions) (order : List NamespaceId) :
    Yields (mangleIfAsked o order) p fun _ p' => ∀ s, (p'.symbol s).id = (p.symbol s).id := by
  simp only [mangleIfAsked]
  split
  · simp only [yields_bind, yields_get, yields_set, yields_pure]
    exact id_symbol_mangleGroups p _
  · simp

theorem enum?_eq_none_iff (ns : Namespace) (name : Text) :
    ns.enum? name = none ↔ name ∉ ns.enums.map Enumeration.name := by
  simp [Namespace.enum?]

theorem BuildOrder.mem_of_importTarget? {d : Discovery} {std : NamespaceId}
    {entry : NamespaceId} (h : BuildOrder p d std entry) (hstd : p.std = some std)
    (hn : n ∈ d.order) {qualifier : Text} (hm : p.importTarget? n qualifier = some m) :
    m ∈ d.order := by
  unfold importTarget? at hm
  split at hm
  · rw [hstd] at hm
    cases hm
    exact (h.complete _).mpr (Or.inl Relation.ReflTransGen.refl)
  · obtain ⟨i, hi, rfl⟩ := Option.map_eq_some_iff.mp hm
    have himports : p.Imports n i.2 := List.mem_map_of_mem (List.mem_of_find?_eq_some hi)
    rw [h.complete] at hn ⊢
    exact hn.imp (·.tail himports) (·.tail himports)

/-- A program whose files were found, valued and analysed can be linked. -/
theorem linkReady_of_checkAll {depth : Nat} {loader : Loader} {workingDir : Text}
    {cancelled : Bool} {o : BuildOptions} {entry : Text} {d : Discovery} {p₀ p₁ p₂ : Program}
    {symbols : List MangleEntry} (hcreate : create workingDir o.retain readPattern = .ok p₀)
    (hdiscover : discoverWithin depth loader cancelled o.stdPath entry p₀ = .ok d q)
    (hassign : assignEnumValues q = .ok () p₁)
    (hmangle : mangleIfAsked o d.order p₁ = .ok symbols p₂)
    (hcheck : checkAll d.orderedTrees p₂ = .ok trees p) : LinkReady p trees := by
  obtain ⟨hsurveys, hfound⟩ := surveys_of_discover hcreate hdiscover
  have hsame := yields_assignEnumValues () p₁ hassign
  have hnames := yields_assignEnumValues_names () p₁ hassign
  have hdiscovers := hfound.sameNames hsame
  have hids := yields_mangleIfAsked_id o d.order symbols p₂ hmangle
  obtain ⟨⟨table, rfl⟩, -⟩ := yields_mangleIfAsked hdiscovers o symbols p₂ hmangle
  have hstart : Analysed (p₁.withSymbols table) [] :=
    analysed_nil hdiscovers.pristine.ledger hdiscovers.pristine.root
  have hfoundTrees : ∀ t ∈ d.orderedTrees, Found (p₁.withSymbols table) t := by
    intro t ht
    exact (hdiscovers.found_orderedTrees ht).mono (grows_withSymbols _ _)
  have hunshadowed : ∀ t ∈ d.orderedTrees,
      Unshadowed (p₁.withSymbols table) t.owner (Stmt.mentionsOfAll t.statements) := by
    intro t ht o text r record hm
    obtain ⟨n, -, hn⟩ := List.mem_filterMap.mp ht
    have hnone := hsurveys.ordered.unshadowed t (List.mem_of_find?_eq_some hn) o text r record hm
    rw [enum?_eq_none_iff] at hnone ⊢
    exact (hnames t.owner).symm ▸ hnone
  have hordered := hdiscovers.map_owner_orderedTrees
  have hnodup : (([] : List Tree).map Tree.owner ++ d.orderedTrees.map Tree.owner).Nodup := by
    rw [hordered]
    exact hdiscovers.order
  obtain ⟨hkeeps, howners, hreferences, hanalysed⟩ :=
    yields_checkAll d.orderedTrees hstart hfoundTrees hnodup trees p hcheck
  have hprepared := yields_checkAll_prepared d.orderedTrees hstart hfoundTrees hunshadowed hnodup
    (fun t ht => nomatch ht) trees p hcheck
  rw [hordered] at howners
  constructor
  · exact hanalysed.linkable hdiscovers hkeeps hreferences howners
  · exact hprepared
  · exact hanalysed.unlinked
  · rw [howners]
    exact hdiscovers.order
  · intro r
    rw [reference, hreferences]
    exact hdiscovers.pristine.unresolved r
  · intro t ht qualifier m hm
    obtain ⟨std, root, hstd, -, -, horder⟩ := hsurveys.sequence
    have hplace : t.owner ∈ d.order := by
      rw [← howners]
      exact List.mem_map_of_mem ht
    rw [importTarget?_congr hkeeps.std (hkeeps.imports _)] at hm
    have hm' : q.importTarget? t.owner qualifier = some m :=
      (importTarget?_congr hsame.std (hsame.imports _) qualifier).symm.trans hm
    have hmem := horder.mem_of_importTarget? hstd hplace hm'
    rw [← howners] at hmem
    exact List.mem_map.mp hmem
  · intro n name s hs
    rw [hkeeps.symbolsOf] at hs
    have hsymbol : p.symbol s = (p₁.withSymbols table).symbol s := by
      rw [symbol, hkeeps.symbols]
      rfl
    rw [hsymbol, hids, hdiscovers.pristine.symbol_eq n name s hs, id_ofName, hkeeps.id]
    rfl

theorem linkReady_of_checkPhases {loader : Loader} {workingDir : Text} {cancelled : Bool}
    {o : BuildOptions} {entry : Text} {p₀ : Program} {symbols : List MangleEntry}
    (hcreate : create workingDir o.retain readPattern = .ok p₀)
    (hrun : checkPhases loader cancelled o entry p₀ = .ok (symbols, trees) p) :
    LinkReady p trees := by
  obtain ⟨d, p₁, hfind, hrest⟩ := exists_of_bind_eq_ok hrun
  obtain ⟨symbols', p₂, hmangle, hrest⟩ := exists_of_bind_eq_ok hrest
  obtain ⟨trees', p₃, hphase, hdone⟩ := exists_of_bind_eq_ok hrest
  cases hdone
  have hcheck := yields_mapFailure (yields_self _) trees p hphase
  obtain ⟨q, hdiscover, hassign⟩ := exists_of_findPhases hfind
  exact linkReady_of_checkAll hcreate hdiscover hassign hmangle hcheck

/-- Cross-linking is exact: once discovery and analysis have succeeded, the link phase
succeeds exactly if every reference names an entry of an enum or a binding where it leads.
Every reading node has one of these references.  What is settled for the node is the same
in its reference and in its record, and linking a namespace again changes nothing. -/
theorem linking_exact (loader : Loader) (workingDir : Text) (cancelled : Bool)
    (o : BuildOptions) (entry : Text) {p₀ : Program} {symbols : List MangleEntry}
    (hcreate : create workingDir o.retain readPattern = .ok p₀)
    (hrun : checkPhases loader cancelled o entry p₀ = .ok (symbols, trees) p) :
    ((∃ q, linkAll trees p = .ok () q) ↔
      ∀ t ∈ trees, ∀ r ∈ (p.spaceAt t.owner).references, p.Names trees t.owner r) ∧
    (∀ t ∈ trees, ∀ node ∈ t.nodes, ∀ x, node.foreignRead? = some x →
      x.reference ∈ (p.spaceAt t.owner).references) ∧
    ∀ q, linkAll trees p = .ok () q →
      (∀ t ∈ trees, ∀ node ∈ t.nodes, ∀ x, node.foreignRead? = some x →
        ∃ f, q.LinksExactly t.owner x f) ∧
      ∀ t ∈ trees, link t.owner q = .ok () q := by
  have hready := linkReady_of_checkPhases hcreate hrun
  have hattached : ∀ t ∈ trees, ∀ node ∈ t.nodes, ∀ x, node.foreignRead? = some x →
      ∃ f, Attaches p t x f := by
    intro t ht node hnode x hx
    obtain ⟨mention, hmention, hread⟩ := exists_mention_of_foreignRead? hnode hx
    exact hready.attaches ht hmention hread
  refine ⟨hready.succeeds_iff, ?_, ?_⟩
  · intro t ht node hnode x hx
    obtain ⟨f, hattaches⟩ := hattached t ht node hnode x hx
    exact hattaches.reference
  · intro q hlink
    refine ⟨?_, fun t ht => hready.link_again hlink ht⟩
    intro t ht node hnode x hx
    obtain ⟨f, hattaches⟩ := hattached t ht node hnode x hx
    exact ⟨f, hready.linksExactly hlink ht hattaches⟩

def checkedReads? (loader : Loader) (o : BuildOptions) (entry : Text) (p₀ : Program) :
    Option (Nat × Bool) :=
  match checkPhases loader false o entry p₀ with
  | .ok (_, trees) p =>
      some ((trees.flatMap fun t => t.nodes.filterMap Node.foreignRead?).length,
        succeeds (linkAll trees p))
  | .error _ _ => none

def crossedSources : List (Text × Text) :=
  [("/s.wv", "let a = 1\nenum E { X, Y }\n"), ("/l.wv", "enum F { A, B }\nlet b = 2\n"),
    ("/m.wv", "import l from \"l.wv\"\nlet x = l.b\nlet y = l.F.B\nlet z = a\nlet w = E.X\n")]

set_option maxRecDepth 100000 in
theorem linking_exact_sample :
    ∃ p₀ symbols trees p q, create "/" [] = .ok p₀ ∧
      checkPhases (.ofSources crossedSources) false { stdPath := "/s.wv" } "/m.wv" p₀ =
        .ok (symbols, trees) p ∧
      linkAll trees p = .ok () q ∧
      (trees.flatMap fun t => t.nodes.filterMap Node.foreignRead?).length = 4 ∧
      (∀ t ∈ trees, ∀ r ∈ (p.spaceAt t.owner).references, p.Names trees t.owner r) ∧
      (∀ t ∈ trees, ∀ node ∈ t.nodes, ∀ x, node.foreignRead? = some x →
        ∃ f, q.LinksExactly t.owner x f) ∧
      ∀ t ∈ trees, link t.owner q = .ok () q := by
  have hcreate := create_nil "/" Glob.reader
  have hruns : checkedReads? (.ofSources crossedSources) { stdPath := "/s.wv" } "/m.wv"
      { workingDir := "/" } = some (4, true) := by
    decide +kernel
  unfold checkedReads? at hruns
  cases hcheck : checkPhases (.ofSources crossedSources) false { stdPath := "/s.wv" } "/m.wv"
      { workingDir := "/" } with
  | error e p =>
      rw [hcheck] at hruns
      cases hruns
  | ok result p =>
      obtain ⟨symbols, trees⟩ := result
      rw [hcheck] at hruns
      simp only [Option.some.injEq, Prod.mk.injEq] at hruns
      obtain ⟨hreads, hlinks⟩ := hruns
      cases hlink : linkAll trees p with
      | error e q =>
          rw [hlink] at hlinks
          cases hlinks
      | ok _ q =>
          obtain ⟨hiff, -, hexact⟩ := linking_exact (.ofSources crossedSources) "/" false
            { stdPath := "/s.wv" } "/m.wv" hcreate hcheck
          obtain ⟨hnodes, hagain⟩ := hexact q hlink
          exact ⟨_, symbols, trees, p, q, hcreate, hcheck, hlink, hreads, hiff.mp ⟨q, hlink⟩,
            hnodes, hagain⟩

end Program

end Splice

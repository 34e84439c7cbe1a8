import Splice.Proofs.Tree.Sites

/-!
# The analysis follows the lexical structure

Binding decides from sets of names, analysis from a tree of scopes with records.  They
agree: the scopes around a site are those of the lists of statements around it, and a
scope has records of the names that its list declares and of no others (`Mirrored`).
So the analysis goes through the sites in order and attaches each of them to the
record of the innermost list that declares its name, up to the first site that is a
mistake (`Site.Trace`).
-/

namespace Splice

namespace Block

/-- The record of a name in the innermost list of statements that declares it. -/
def record? (l : Ledger) (space : Text) (around : List Block) (name : Text) : Option UsageId :=
  (declaring? around name).bind fun s => l.own? s (Symbol.idOf space name)

/-- A scope and the scopes around it are those of some lists of statements, with records
of exactly what these declare. -/
structure Mirrored (l : Ledger) (space : Text) (s : ScopeId) (around : List Block) : Prop where
  lt : s < l.scopes.size
  chain : l.chain s = around.map scope
  own : ∀ b ∈ around, ∀ id,
    (l.own? b.scope id).isSome ↔ ∃ name ∈ b.names, Symbol.idOf space name = id

variable {l l' : Ledger} {space : Text} {s : ScopeId} {around : List Block} {name : Text}

theorem Mirrored.own_name (h : Mirrored l space s around) {b : Block} (hb : b ∈ around) :
    (l.own? b.scope (Symbol.idOf space name)).isSome = b.names.contains name := by
  rw [Bool.eq_iff_iff, h.own b hb, List.contains_iff_mem]
  constructor
  · rintro ⟨other, hother, hid⟩
    rw [← Symbol.idOf_injective space hid]
    exact hother
  · intro hname
    exact ⟨name, hname, rfl⟩

/-- Looking a name up in the ledger is looking for the innermost list that declares it. -/
theorem Mirrored.find?_eq (h : Mirrored l space s around) (name : Text) :
    l.find? s (Symbol.idOf space name) = record? l space around name := by
  have hown : ∀ b ∈ around,
      (l.own? b.scope (Symbol.idOf space name)).isSome = b.names.contains name :=
    fun b hb => h.own_name hb
  rw [Ledger.find?, h.chain]
  clear h
  induction around with
  | nil => rfl
  | cons b outer ih =>
      have hfirst := hown b (List.mem_cons_self ..)
      have hrest := ih fun b hb => hown b (List.mem_cons_of_mem _ hb)
      rw [List.map_cons, List.findSome?_cons, hrest]
      cases hrecord : l.own? b.scope (Symbol.idOf space name) with
      | some u =>
          rw [hrecord, Option.isSome_some] at hfirst
          simp only [record?, declaring?, List.find?_cons, ← hfirst, Option.map_some,
            Option.bind_some, hrecord]
      | none =>
          rw [hrecord, Option.isSome_none] at hfirst
          simp only [record?, declaring?, List.find?_cons, ← hfirst]

theorem Mirrored.isSome_find? (h : Mirrored l space s around) (name : Text) :
    (l.find? s (Symbol.idOf space name)).isSome = isVisible around name := by
  rw [Ledger.find?, h.chain, List.findSome?_map, Bool.eq_iff_iff, List.findSome?_isSome_iff,
    isVisible, List.any_eq_true]
  constructor
  · rintro ⟨b, hb, hown⟩
    exact ⟨b, hb, by rw [← h.own_name hb]; exact hown⟩
  · rintro ⟨b, hb, hname⟩
    exact ⟨b, hb, by rw [Function.comp, h.own_name hb]; exact hname⟩

/-- No scope around a site has a record of a name that is not visible there. -/
theorem Mirrored.own?_eq_none (h : Mirrored l space s around)
    (hname : isVisible around name = false) :
    ∀ t ∈ l.chain s, l.own? t (Symbol.idOf space name) = none := by
  have hfind := h.isSome_find? name
  rw [hname, Option.isSome_eq_false_iff, Option.isNone_iff_eq_none, Ledger.find?,
    List.findSome?_eq_none_iff] at hfind
  exact hfind

theorem Mirrored.later (h : Mirrored l space s around) (hl : l.WellFormed) (hl' : l'.WellFormed)
    (hext : l.Extends l') : Mirrored l' space s around where
  lt := h.lt.trans_le hext.scopes_le
  chain := by rw [hext.chain_eq hl hl' h.lt, h.chain]
  own b hb id := by
    have hmem : b.scope ∈ l.chain s := by
      rw [h.chain]
      exact List.mem_map_of_mem hb
    rw [hext.own?_eq hl ((hl.lt_of_mem_chain hmem).trans_lt h.lt)]
    exact h.own b hb id

theorem Mirrored.record?_later (h : Mirrored l space s around) (hl : l.WellFormed)
    (hl' : l'.WellFormed) (hext : l.Extends l') (name : Text) :
    record? l' space around name = record? l space around name := by
  rw [← h.find?_eq, ← (h.later hl hl' hext).find?_eq, hext.find?_eq hl hl' h.lt]

theorem Mirrored.absent_later (h : Mirrored l space s around) (hl : l.WellFormed)
    (hl' : l'.WellFormed) (hext : l.Extends l') {id : Text}
    (habsent : ∀ t ∈ l.chain s, l.own? t id = none) : ∀ t ∈ l'.chain s, l'.own? t id = none := by
  intro t ht
  rw [hext.chain_eq hl hl' h.lt] at ht
  rw [hext.own?_eq hl ((hl.lt_of_mem_chain ht).trans_lt h.lt)]
  exact habsent t ht

end Block

namespace Site

variable {c : CheckContext}

/-- What the analysis makes of a site in a scope.  A name of the own namespace and a
store are attached to the record of the innermost list that declares the name.  Any
other name has no record in the scopes around it; it is the name of an entry's enum, or
is attached to a record of the standard library's name. -/
inductive Attaches (c : CheckContext) (l : Ledger) (s : ScopeId) (around : List Block) :
    Site → Site → Prop
  | own {o name access symbol usage u} (hrecord : Block.record? l c.space around name = some u) :
      Attaches c l s around (read o name access (.own symbol usage))
        (read o name access (.own symbol (some u)))
  | std {o name access reference record f}
      (habsent : ∀ t ∈ l.chain s, l.own? t (Symbol.idOf c.space name) = none)
      (hfiled : l.Files s [] name f) :
      Attaches c l s around (read o name access (.std reference record))
        (read o name access (.std reference (some f)))
  | entry {o name at_ member given enum entry}
      (habsent : ∀ t ∈ l.chain s, l.own? t (Symbol.idOf c.space name) = none)
      (henum : c.enums.find? (·.name == name) = some enum)
      (hentry : enum.entry? member = some entry) :
      Attaches c l s around (read o name (some ⟨at_, member, given⟩) .unbound)
        (read o name (some ⟨at_, member, some ⟨enum.name, entry.name, entry.value⟩⟩) .unbound)
  | store {o name usage u} (hrecord : Block.record? l c.space around name = some u) :
      Attaches c l s around (store o name usage) (store o name (some u))

/-- The mistakes that a site can be. -/
inductive Fails (c : CheckContext) (around : List Block) : Site → Diagnostic → Prop
  | undeclared {o name usage} (h : Block.isVisible around name = false) :
      Fails c around (store o name usage)
        ⟨"assignment to undeclared name " ++ name, some c.unit, o⟩
  | value {o name} (h : Block.isVisible around name = false) :
      Fails c around (read o name none .unbound)
        ⟨"enum " ++ name ++ " cannot be used as a value", some c.unit, o⟩
  | entry {o name at_ member given enum} (h : Block.isVisible around name = false)
      (henum : c.enums.find? (·.name == name) = some enum) (hentry : enum.entry? member = none) :
      Fails c around (read o name (some ⟨at_, member, given⟩) .unbound)
        ⟨"enum " ++ enum.name ++ " has no entry " ++ member, some c.unit, at_⟩

/-- The names of the own namespace are those that are visible, and of the others those
that are not looked up are enums. -/
def Lexical (c : CheckContext) (around : List Block) : Site → Prop
  | read _ name _ (.own _ _) => Block.isVisible around name = true
  | read _ name _ (.std _ _) =>
      Block.isVisible around name = false ∧ c.enums.find? (·.name == name) = none
  | read _ name _ .unbound =>
      Block.isVisible around name = false ∧ (c.enums.find? (·.name == name)).isSome
  | store _ _ _ => True

theorem Bound.lexical {p : Program} {n : NamespaceId} {around : List Block} {site : Site}
    (h : site.Bound p n around)
    (henums : ∀ name,
      (c.enums.find? (·.name == name)).isSome = ((p.spaceAt n).enum? name).isSome) :
    site.Lexical c around := by
  cases site with
  | store o name usage => trivial
  | read o name access given =>
      cases given with
      | own symbol usage => exact h
      | unbound => exact ⟨h.1, by rw [henums]; exact h.2⟩
      | std r record =>
          refine ⟨h.1, ?_⟩
          rw [← Option.not_isSome_iff_eq_none, henums, h.2.1]
          exact Bool.false_ne_true

theorem Attaches.later {l l' : Ledger} {s : ScopeId} {around : List Block}
    {site site' : Site} (h : Attaches c l s around site site')
    (hmirrored : Block.Mirrored l c.space s around) (hl : l.WellFormed) (hl' : l'.WellFormed)
    (hext : l.Extends l') : Attaches c l' s around site site' := by
  cases h with
  | own hrecord => exact .own (by rw [hmirrored.record?_later hl hl' hext]; exact hrecord)
  | std habsent hfiled =>
      exact .std (hmirrored.absent_later hl hl' hext habsent) (hfiled.extends hl hmirrored.lt hext)
  | entry habsent henum hentry =>
      exact .entry (hmirrored.absent_later hl hl' hext habsent) henum hentry
  | store hrecord => exact .store (by rw [hmirrored.record?_later hl hl' hext]; exact hrecord)

end Site

/-- The analysis of sites one after another, from a state with or without a mistake to
such a state: each site is attached in its turn, in scopes that mirror the lists around
it, until one is a mistake; from then on nothing is done. -/
inductive Site.Trace (c : CheckContext) (l : Ledger) :
    Option Diagnostic → List (List Block × Site) → List (List Block × Site) →
      Option Diagnostic → Prop
  | done (m) : Site.Trace c l m [] [] m
  | stopped (d) (sites) : Site.Trace c l (some d) sites sites (some d)
  | step {s around site site' rest rest' m} (hmirrored : Block.Mirrored l c.space s around)
      (hsite : Site.Attaches c l s around site site') (hrest : Site.Trace c l none rest rest' m) :
      Site.Trace c l none ((around, site) :: rest) ((around, site') :: rest') m
  | failed {around site d} (hsite : Site.Fails c around site d) (rest) :
      Site.Trace c l none ((around, site) :: rest) ((around, site) :: rest) (some d)

section

variable {c : CheckContext} {l l' : Ledger} {m m' m'' : Option Diagnostic}
  {a a' b b' : List (List Block × Site)}

theorem Site.Trace.later (h : Site.Trace c l m a a' m') (hl : l.WellFormed) (hl' : l'.WellFormed)
    (hext : l.Extends l') : Site.Trace c l' m a a' m' := by
  induction h with
  | done m => exact .done m
  | stopped d sites => exact .stopped d sites
  | step hmirrored hsite _ ih =>
      exact .step (hmirrored.later hl hl' hext) (hsite.later hmirrored hl hl' hext) ih
  | failed hsite rest => exact .failed hsite rest

theorem Site.Trace.of_some {d : Diagnostic} (h : Site.Trace c l (some d) a a' m') :
    a' = a ∧ m' = some d := by
  cases h with
  | done => exact ⟨rfl, rfl⟩
  | stopped => exact ⟨rfl, rfl⟩

theorem Site.Trace.append (h : Site.Trace c l m a a' m') (h' : Site.Trace c l m' b b' m'') :
    Site.Trace c l m (a ++ b) (a' ++ b') m'' := by
  induction h with
  | done m => exact h'
  | stopped d sites =>
      obtain ⟨rfl, rfl⟩ := h'.of_some
      exact .stopped d _
  | step hmirrored hsite _ ih => exact .step hmirrored hsite (ih h')
  | failed hsite rest =>
      obtain ⟨rfl, rfl⟩ := h'.of_some
      exact .failed hsite _

end

namespace Check

variable {c : CheckContext} {refs : ReferenceId → Reference} {s : ScopeId} {around : List Block}

/-- The analysis of some sites, in which a number of scopes is opened. -/
structure Goes (c : CheckContext) (k k' : Check) (opened : Nat)
    (before after : List (List Block × Site)) : Prop where
  wellFormed : k'.ledger.WellFormed
  extend : k.ledger.Extends k'.ledger
  size : k'.mistake = none → k'.ledger.scopes.size = k.ledger.scopes.size + opened
  trace : Site.Trace c k'.ledger k.mistake before after k'.mistake

section

variable {k k' k'' : Check} {i j : Nat} {a a' b b' : List (List Block × Site)}

theorem Goes.refl (hk : k.ledger.WellFormed) : Goes c k k 0 [] [] :=
  ⟨hk, Ledger.Extends.refl _, fun _ => rfl, .done _⟩

theorem Goes.stay (hk : k.ledger.WellFormed) (hmistake : k.mistake.isSome) :
    Goes c k k i a a := by
  obtain ⟨d, hd⟩ := Option.isSome_iff_exists.mp hmistake
  refine ⟨hk, Ledger.Extends.refl _, ?_, ?_⟩
  · intro hnone
    rw [hd] at hnone
    cases hnone
  · rw [hd]
    exact .stopped d a

theorem Goes.mistake_of (h : Goes c k k' i a a') (hnone : k'.mistake = none) :
    k.mistake = none := by
  cases hk : k.mistake with
  | none => rfl
  | some d =>
      have htrace := h.trace
      rw [hk] at htrace
      rw [htrace.of_some.2] at hnone
      cases hnone

theorem Goes.append (h : Goes c k k' i a a') (h' : Goes c k' k'' j b b') :
    Goes c k k'' (i + j) (a ++ b) (a' ++ b') where
  wellFormed := h'.wellFormed
  extend := h.extend.trans h'.extend
  size hnone := by rw [h'.size hnone, h.size (h'.mistake_of hnone), Nat.add_assoc]
  trace := (h.trace.later h.wellFormed h'.wellFormed h'.extend).append h'.trace

end

/-! ## Expressions -/

theorem Goes.single {k k' : Check} {site site' : Site} (hk : k.mistake = none)
    (hk' : k'.mistake = none) (hwf : k'.ledger.WellFormed) (hext : k.ledger.Extends k'.ledger)
    (hsize : k'.ledger.scopes.size = k.ledger.scopes.size)
    (hmirrored : Block.Mirrored k'.ledger c.space s around)
    (hsite : Site.Attaches c k'.ledger s around site site') :
    Goes c k k' 0 [(around, site)] [(around, site')] where
  wellFormed := hwf
  extend := hext
  size _ := hsize
  trace := by
    rw [hk, hk']
    exact .step hmirrored hsite (.done none)

theorem Goes.fail {k : Check} {site : Site} (hk : k.mistake = none) (hwf : k.ledger.WellFormed)
    {o : Nat} {message : Text} (hsite : Site.Fails c around site ⟨message, some c.unit, o⟩) :
    Goes c k (Check.fail c o message k).2 0 [(around, site)] [(around, site)] where
  wellFormed := hwf
  extend := Ledger.Extends.refl _
  size h := nomatch h
  trace := by
    rw [hk]
    exact .failed hsite []

theorem size_mentionForeign (l : Ledger) (qualifier name : Text) (r : Reader) :
    (l.mentionForeign s qualifier name (some r)).2.scopes.size = l.scopes.size := by
  have hadd : ∀ (l : Ledger) f, (l.addForeignReader f r).scopes = l.scopes := by
    intro l f
    unfold Ledger.addForeignReader
    dsimp only
    split <;> rfl
  simp only [Ledger.mentionForeign, hadd, Ledger.foreignOrNew]
  split <;> simp

/-- Where a part of a tree is analysed: in scopes that mirror the lists around it. -/
structure Stands (c : CheckContext) (s : ScopeId) (around : List Block) (l : Ledger) : Prop where
  wellFormed : l.WellFormed
  mirrored : Block.Mirrored l c.space s around

theorem Stands.later {l l' : Ledger} (h : Stands c s around l) (hl' : l'.WellFormed)
    (hext : l.Extends l') : Stands c s around l' :=
  ⟨hl', h.mirrored.later h.wellFormed hl' hext⟩

theorem checkName_goes {k : Check} (hk : Stands c s around k.ledger) (hnone : k.mistake = none)
    (o : Nat) (name : Text) (access : Option Access) (given : NameRead)
    (hlexical : (Site.read o name access given).Lexical c around)
    (haccess : access = none ∨ enumOfTarget? c (.name o name given) = none) :
    Goes c k (checkName c s o name given k).2 0 [(around, .read o name access given)]
      [(around, .read o name access (checkName c s o name given k).1)] := by
  cases given with
  | unbound =>
      obtain ⟨hhidden, henum⟩ := hlexical
      obtain rfl | htarget := haccess
      · exact Goes.fail hnone hk.wellFormed (.value hhidden)
      · rw [show c.enums.find? (·.name == name) = none from htarget] at henum
        cases henum
  | std r record =>
      obtain ⟨hwf, hext, hfiled, -⟩ :=
        Ledger.mentionForeign_spec hk.wellFormed hk.mirrored.lt [] name c.file o
      have hlater := hk.mirrored.later hk.wellFormed hwf hext
      exact Goes.single hnone hnone hwf hext (size_mentionForeign _ _ _ _) hlater
        (.std (hlater.own?_eq_none hlexical.1) hfiled)
  | own symbol usage =>
      have hfound := hk.mirrored.isSome_find? name
      rw [hlexical, Option.isSome_iff_exists] at hfound
      obtain ⟨u, hu⟩ := hfound
      rw [checkName_own, hu]
      have hwf := hk.wellFormed.modifyUsage u
        fun usage => { usage with readers := usage.readers ++ [⟨c.file, o⟩] }
      have hext := Ledger.extends_modifyUsage k.ledger u
        (fun usage => { usage with readers := usage.readers ++ [⟨c.file, o⟩] }) fun _ => rfl
      have hlater := hk.mirrored.later hk.wellFormed hwf hext
      rw [hk.mirrored.find?_eq, ← hk.mirrored.record?_later hk.wellFormed hwf hext] at hu
      exact Goes.single hnone hnone hwf hext rfl hlater (.own hu)

theorem exists_name_of_enumOfTarget? {x : Expr} {enum : Enumeration}
    (h : enumOfTarget? c x = some enum) : ∃ o name given, x = .name o name given := by
  cases x with
  | name o name given => exact ⟨o, name, given, rfl⟩
  | _ => cases h

/-- The target of an access that is looked up among the enums is the name of one. -/
theorem unbound_of_enumOfTarget? {o : Nat} {name : Text} {access : Option Access}
    {given : NameRead} {enum : Enumeration}
    (hlexical : (Site.read o name access given).Lexical c around)
    (h : enumOfTarget? c (.name o name given) = some enum) :
    given = .unbound ∧ Block.isVisible around name = false ∧
      c.enums.find? (·.name == name) = some enum := by
  cases given with
  | own symbol usage => cases h
  | unbound => exact ⟨rfl, hlexical.1, h⟩
  | std r record =>
      have hfind : c.enums.find? (·.name == name) = some enum := h
      rw [hlexical.2] at hfind
      cases hfind

mutual

theorem checkExpr_goes (e : Expr) (access : Option Access) (k : Check)
    (hk : Stands c s around k.ledger) (hlexical : ∀ site ∈ e.sites access, site.Lexical c around)
    (haccess : access = none ∨ enumOfTarget? c e = none) :
    Goes c k (checkExpr c refs s e k).2 0 ((e.sites access).map (Prod.mk around))
      (((checkExpr c refs s e k).1.sites access).map (Prod.mk around)) := by
  cases e with
  | name o name given =>
      rw [checkExpr_name]
      split
      · exact Goes.stay hk.wellFormed ‹_›
      · next hnone =>
          exact checkName_goes hk (by simpa using hnone) o name access given
            (hlexical _ (by simp [Expr.sites])) haccess
  | imported o r m record =>
      rw [checkExpr_imported]
      split
      · exact Goes.refl hk.wellFormed
      · next hnone =>
          have hnone : k.mistake = none := by simpa using hnone
          obtain ⟨hwf, hext, -, -⟩ := Ledger.mentionForeign_spec hk.wellFormed hk.mirrored.lt
            (refs r).qualifier (refs r).name c.file o
          exact ⟨hwf, hext, fun _ => size_mentionForeign _ _ _ _, .done _⟩
  | member o x name p entry =>
      rw [checkExpr_member]
      split
      · exact Goes.stay hk.wellFormed ‹_›
      · next hnone =>
          have hnone : k.mistake = none := by simpa using hnone
          cases htarget : enumOfTarget? c x with
          | none => exact checkExpr_goes x (some ⟨o, name, entry⟩) k hk hlexical (.inr htarget)
          | some enum =>
              obtain ⟨at_, target, given, rfl⟩ := exists_name_of_enumOfTarget? htarget
              obtain ⟨rfl, hhidden, henum⟩ :=
                unbound_of_enumOfTarget? (hlexical _ (List.mem_singleton_self _)) htarget
              dsimp only
              cases hentry : enum.entry? name with
              | none => exact Goes.fail hnone hk.wellFormed (.entry hhidden henum hentry)
              | some e =>
                  exact Goes.single hnone hnone hk.wellFormed (Ledger.Extends.refl _) rfl
                    hk.mirrored (.entry (hk.mirrored.own?_eq_none hhidden) henum hentry)
  | call o callee args =>
      rw [checkExpr_call]
      simp only [Expr.sites, List.map_append]
      have hcallee := checkExpr_goes callee none k hk
        (fun site hsite => hlexical site (List.mem_append_left _ hsite)) (.inl rfl)
      exact hcallee.append (checkExprs_goes args _ (hk.later hcallee.wellFormed hcallee.extend)
        fun site hsite => hlexical site (List.mem_append_right _ hsite))
  | syscall o name args =>
      rw [checkExpr_syscall]
      exact checkExprs_goes args k hk hlexical
  | object o keys values =>
      rw [checkExpr_object]
      exact checkExprs_goes values k hk hlexical
  | binary o op left right =>
      rw [checkExpr_binary]
      simp only [Expr.sites, List.map_append]
      have hleft := checkExpr_goes left none k hk
        (fun site hsite => hlexical site (List.mem_append_left _ hsite)) (.inl rfl)
      exact hleft.append (checkExpr_goes right none _ (hk.later hleft.wellFormed hleft.extend)
        (fun site hsite => hlexical site (List.mem_append_right _ hsite)) (.inl rfl))
  | unary o op x =>
      rw [checkExpr_unary]
      exact checkExpr_goes x none k hk hlexical (.inl rfl)
  | number o v => rw [checkExpr]; exact Goes.refl hk.wellFormed
  | string o v => rw [checkExpr]; exact Goes.refl hk.wellFormed
  | bool o v => rw [checkExpr]; exact Goes.refl hk.wellFormed
  | nil o => rw [checkExpr]; exact Goes.refl hk.wellFormed

theorem checkExprs_goes (es : List Expr) (k : Check) (hk : Stands c s around k.ledger)
    (hlexical : ∀ site ∈ Expr.sitesOfAll es, site.Lexical c around) :
    Goes c k (checkExprs c refs s es k).2 0 ((Expr.sitesOfAll es).map (Prod.mk around))
      ((Expr.sitesOfAll (checkExprs c refs s es k).1).map (Prod.mk around)) := by
  cases es with
  | nil =>
      rw [checkExprs_nil]
      exact Goes.refl hk.wellFormed
  | cons x rest =>
      rw [checkExprs_cons]
      simp only [Expr.sitesOfAll, List.map_append]
      have hx := checkExpr_goes x none k hk
        (fun site hsite => hlexical site (List.mem_append_left _ hsite)) (.inl rfl)
      exact hx.append (checkExprs_goes rest _ (hk.later hx.wellFormed hx.extend)
        fun site hsite => hlexical site (List.mem_append_right _ hsite))

end

theorem placed_goes (refs : ReferenceId → Reference) (e : Expr) {k : Check}
    (hk : Stands c s around k.ledger)
    (hlexical : ∀ site ∈ e.placed around, site.2.Lexical c site.1) :
    Goes c k (checkExpr c refs s e k).2 0 (e.placed around)
      ((checkExpr c refs s e k).1.placed around) :=
  checkExpr_goes e none k hk (fun _ hsite => hlexical _ (List.mem_map_of_mem hsite)) (.inl rfl)

/-! ## Statements -/

theorem size_scopes_defineAll (l : Ledger) (ids : List Text) :
    (l.defineAll s ids).scopes.size = l.scopes.size := by
  induction ids generalizing l with
  | nil => rfl
  | cons id rest ih =>
      rw [Ledger.defineAll, List.foldl_cons]
      exact (ih _).trans (Ledger.size_scopes_define l s id)

theorem Stands.ready {l : Ledger} (h : Stands c s around l) : Ready s s l := by
  refine ⟨h.wellFormed, h.mirrored.lt, ?_⟩
  rw [h.wellFormed.chain_eq]
  exact List.mem_cons_self ..

theorem isSome_own?_of_filled {l₀ l : Ledger} {t : ScopeId} {parent : Option ScopeId}
    {names : List Text} (h : Ledger.Filled l₀ l t parent (idsOf c names)) (id : Text) :
    (l.own? t id).isSome ↔ ∃ name ∈ names, Symbol.idOf c.space name = id := by
  constructor
  · intro hsome
    obtain ⟨u, hu⟩ := Option.isSome_iff_exists.mp hsome
    rw [Ledger.own?_eq_lookup] at hu
    exact List.mem_map.mp (h.frame _ (Ledger.mem_of_lookup hu))
  · intro hid
    exact h.own id (List.mem_map.mpr hid)

/-- A new list of statements has its own scope with records of what it declares. -/
theorem mirrored_of_filled {l₀ l : Ledger} {t : ScopeId} {names : List Text}
    (h : Ledger.Filled l₀ l t (some s) (idsOf c names)) (hl₀ : Stands c s around l₀) :
    Block.Mirrored l c.space t (⟨names, t⟩ :: around) where
  lt := h.lt
  chain := by
    rw [h.wellFormed.chain_eq, h.parent, Option.elim_some,
      h.extend.chain_eq hl₀.wellFormed h.wellFormed hl₀.mirrored.lt, hl₀.mirrored.chain]
    rfl
  own b hb id := by
    rcases List.mem_cons.mp hb with rfl | hb
    · exact isSome_own?_of_filled h id
    · exact ((hl₀.mirrored.later hl₀.wellFormed h.wellFormed h.extend).own b hb id)

theorem size_inside (k : Check) (names : List Text) :
    (inside c s k names).ledger.scopes.size = k.ledger.scopes.size + 1 := by
  rw [inside, size_scopes_defineAll]
  simp [Ledger.openChild]

theorem stands_inside {k : Check} (hk : Stands c s around k.ledger) (names : List Text) :
    Stands c k.ledger.scopes.size (⟨names, k.ledger.scopes.size⟩ :: around)
      (inside c s k names).ledger :=
  ⟨(inside_filled hk.ready names).wellFormed, mirrored_of_filled (inside_filled hk.ready names) hk⟩

/-- The sites of a list of statements in braces, seen from outside. -/
theorem Goes.inside {k k' : Check} {names : List Text} {count : Nat}
    {before after : List (List Block × Site)} (hk : Stands c s around k.ledger)
    (h : Goes c (inside c s k names) k' count before after) :
    Goes c k k' (1 + count) before after where
  wellFormed := h.wellFormed
  extend := (inside_filled hk.ready names).extend.trans h.extend
  size hnone := by rw [h.size hnone, size_inside, Nat.add_assoc]
  trace := h.trace

/-- A definition of a name that is declared already. -/
theorem goes_defined {k : Check} {n : Text} (v : Truth) (hk : Stands c s around k.ledger)
    (hown : (k.ledger.own? s (Symbol.idOf c.space n)).isSome) :
    Goes c k (defined c s k n v).2 0 [] [] := by
  obtain ⟨hdefined, -⟩ := defined_spec hk.ready hown v
  obtain ⟨u, hu⟩ := Option.isSome_iff_exists.mp hown
  refine ⟨hdefined.wellFormed, hdefined.extend, fun _ => ?_, .done _⟩
  simp only [defined, Ledger.define_of_own? hu]
  rfl

mutual

theorem listCount_checkStmt (s : ScopeId) (st : Stmt) (k : Check) :
    (checkStmt c refs s st k).1.listCount = st.listCount := by
  cases st with
  | let_ o n sym v u => rw [checkStmt_let]; dsimp only; split <;> rfl
  | fn o n sym ps bo body u =>
      rw [checkStmt_fn]
      split
      · rfl
      · simp only [Stmt.listCount, listCountOfAll_checkStmts]
  | assign o n sym v u =>
      rw [checkStmt_assign]
      dsimp only
      split
      · rfl
      · split <;> rfl
  | setMember o t p v => rw [checkStmt_setMember]; rfl
  | return_ o v => rw [checkStmt_return]; rfl
  | if_ o condition b t e =>
      rw [checkStmt_if]
      dsimp only
      split
      · rfl
      · simp only [Stmt.listCount, listCountOfAll_checkStmts, listCountOfElse_checkElse]
  | block o body =>
      rw [checkStmt_block]
      split
      · rfl
      · simp only [Stmt.listCount, listCountOfAll_checkStmts]
  | expr x => rw [checkStmt_expr]; rfl
  | import_ o q p => rw [checkStmt]; rfl
  | enum o n es => rw [checkStmt]; rfl
  | retain o ns => rw [checkStmt]; rfl

theorem listCountOfAll_checkStmts (s : ScopeId) (ss : List Stmt) (k : Check) :
    Stmt.listCountOfAll (checkStmts c refs s ss k).1 = Stmt.listCountOfAll ss := by
  cases ss with
  | nil => rw [checkStmts_nil]
  | cons st rest =>
      rw [checkStmts_cons]
      simp only [Stmt.listCountOfAll, listCount_checkStmt, listCountOfAll_checkStmts]

theorem listCountOfElse_checkElse (s : ScopeId) (e : Option Stmt) (k : Check) :
    Stmt.listCountOfElse (checkElse c refs s e k).1 = Stmt.listCountOfElse e := by
  cases e with
  | none => rw [checkElse_none]
  | some st =>
      rw [checkElse_some]
      exact listCount_checkStmt s st k

end

def storing (c : CheckContext) (s : ScopeId) (o : Nat) (n : Text) (truth : Truth)
    (usage : Option UsageId) (k : Check) : Option UsageId × Check :=
  if k.mistake.isSome then (usage, k)
  else
    match k.ledger.find? s (Symbol.idOf c.space n) with
    | none => (usage, (fail c o ("assignment to undeclared name " ++ n) k).2)
    | some u => (some u, { k with ledger := (k.ledger.markDefined u).track u truth })

theorem checkStmt_assign_eq (o : Nat) (n : Text) (sym : SymbolId) (v : Expr) (u : Option UsageId)
    (k : Check) :
    checkStmt c refs s (.assign o n sym v u) k =
      let a := checkExpr c refs s v k
      let b := storing c s o n a.1.truth u a.2
      (.assign o n sym a.1 b.1, b.2) := by
  rw [checkStmt_assign]
  dsimp only [storing]
  by_cases hmistake : (checkExpr c refs s v k).2.mistake.isSome
  · simp only [if_pos hmistake]
  · simp only [if_neg hmistake]
    cases (checkExpr c refs s v k).2.ledger.find? s (Symbol.idOf c.space n) <;> rfl

theorem store_goes {k : Check} (hk : Stands c s around k.ledger) (o : Nat) (n : Text)
    (truth : Truth) (usage : Option UsageId) :
    Goes c k (storing c s o n truth usage k).2 0 [(around, .store o n usage)]
      [(around, .store o n (storing c s o n truth usage k).1)] := by
  rw [storing]
  split
  · exact Goes.stay hk.wellFormed ‹_›
  · next hnone =>
      have hnone : k.mistake = none := by simpa using hnone
      have hvisible := hk.mirrored.isSome_find? n
      cases hfind : k.ledger.find? s (Symbol.idOf c.space n) with
      | none =>
          rw [hfind] at hvisible
          exact Goes.fail hnone hk.wellFormed (.undeclared hvisible.symm)
      | some u =>
          have hstore := enters_store (c := c) hk.wellFormed u truth
          have hlater := hk.later hstore.wellFormed hstore.extend
          rw [hk.mirrored.find?_eq,
            ← hk.mirrored.record?_later hk.wellFormed hstore.wellFormed hstore.extend] at hfind
          exact Goes.single hnone hnone hstore.wellFormed hstore.extend rfl hlater.mirrored
            (.store hfind)

mutual

theorem checkStmt_goes {s : ScopeId} {around : List Block} (st : Stmt) (next : ScopeId) (k : Check)
    (hk : Stands c s around k.ledger) (hnext : k.mistake = none → k.ledger.scopes.size = next)
    (hlexical : ∀ site ∈ st.sites next around, site.2.Lexical c site.1) (hregular : st.Regular)
    (hhoisted : ∀ n sym, st.declared? = some (n, sym) →
      (k.ledger.own? s (Symbol.idOf c.space n)).isSome) :
    Goes c k (checkStmt c refs s st k).2 st.listCount (st.sites next around)
      ((checkStmt c refs s st k).1.sites next around) := by
  cases st with
  | let_ o n sym v u =>
      have hv := placed_goes refs v hk hlexical
      rw [checkStmt_let]
      dsimp only
      split
      · exact hv
      · have hk' := hk.later hv.wellFormed hv.extend
        have hown := hhoisted n sym rfl
        rw [← hv.extend.own?_eq hk.wellFormed hk.mirrored.lt] at hown
        have hboth := hv.append (goes_defined (checkExpr c refs s v k).1.truth hk' hown)
        simpa only [Stmt.sites, Stmt.listCount, List.append_nil] using hboth
  | fn o n sym ps bo body u =>
      rw [checkStmt_fn]
      split
      · exact Goes.stay hk.wellFormed ‹_›
      · next hnone =>
          have hnone : k.mistake = none := by simpa using hnone
          have hdefined := goes_defined .truthy hk (hhoisted n sym rfl)
          have hk' := hk.later hdefined.wellFormed hdefined.extend
          have hsize : (defined c s k n .truthy).2.ledger.scopes.size = next := by
            rw [hdefined.size hnone, hnext hnone]
            rfl
          have hinside := stands_inside hk' (ps.map (·.name) ++ Stmt.declaredNames body)
          have hoisted := hoisted_inside (c := c) hk'.ready (ps.map (·.name))
            (Stmt.declaredNames body)
          rw [hsize] at hinside hoisted
          have hbody := checkStmts_goes body (next + 1) _ hinside
            (fun _ => by rw [size_inside, hsize]) hlexical hregular hoisted
          have hboth := hdefined.append (hbody.inside hk')
          simpa only [Stmt.sites, Stmt.listCount, hsize, declaredNames_checkStmts,
            List.nil_append, Nat.zero_add] using hboth
  | assign o n sym v u =>
      have hv := placed_goes refs v hk fun site hsite =>
        hlexical site (List.mem_append_left _ hsite)
      have hstore := store_goes (hk.later hv.wellFormed hv.extend) o n
        (checkExpr c refs s v k).1.truth u
      rw [checkStmt_assign_eq]
      exact hv.append hstore
  | setMember o t p v =>
      have ht := placed_goes refs t hk fun site hsite =>
        hlexical site (List.mem_append_left _ hsite)
      have hv := placed_goes refs v (hk.later ht.wellFormed ht.extend) fun site hsite =>
        hlexical site (List.mem_append_right _ hsite)
      rw [checkStmt_setMember]
      exact ht.append hv
  | return_ o v =>
      rw [checkStmt_return]
      cases v with
      | none => exact Goes.refl hk.wellFormed
      | some x =>
          have hrun : checkOptional c refs s (some x) k =
              (some (checkExpr c refs s x k).1, (checkExpr c refs s x k).2) := rfl
          have hx := placed_goes refs x hk (by simpa [Stmt.sites] using hlexical)
          rw [hrun]
          simpa [Stmt.sites, Stmt.listCount] using hx
  | if_ o condition b t e =>
      have hcondition := placed_goes refs condition hk fun site hsite =>
        hlexical site (List.mem_append_left _ (List.mem_append_left _ hsite))
      have hk' := hk.later hcondition.wellFormed hcondition.extend
      rw [checkStmt_if]
      dsimp only
      split
      · next hsome =>
          have hstay : Goes c _ _ (1 + Stmt.listCountOfAll t + Stmt.listCountOfElse e)
              (Stmt.sitesOfAll (next + 1) (⟨Stmt.declaredNames t, next⟩ :: around) t ++
                Stmt.sitesOfElse (next + 1 + Stmt.listCountOfAll t) around e) _ :=
            Goes.stay hcondition.wellFormed hsome
          have hboth := hcondition.append hstay
          simpa only [Stmt.sites, Stmt.listCount, List.append_assoc, Nat.zero_add] using hboth
      · next hnone =>
          have hnone : (checkExpr c refs s condition k).2.mistake = none := by simpa using hnone
          have hsize : (checkExpr c refs s condition k).2.ledger.scopes.size = next := by
            rw [hcondition.size hnone, hnext (hcondition.mistake_of hnone)]
            rfl
          have hinside := stands_inside hk' (Stmt.declaredNames t)
          have hoisted := hoisted_inside (c := c) hk'.ready [] (Stmt.declaredNames t)
          rw [hsize] at hinside hoisted
          have hthen := checkStmts_goes t (next + 1) _ hinside
            (fun _ => by rw [size_inside, hsize])
            (fun site hsite =>
              hlexical site (List.mem_append_left _ (List.mem_append_right _ hsite)))
            hregular.1 hoisted
          have hbody := hthen.inside hk'
          have helse := checkElse_goes e (next + 1 + Stmt.listCountOfAll t) _
            (hk'.later hbody.wellFormed hbody.extend)
            (fun h => by rw [hbody.size h, hsize, Nat.add_assoc])
            (fun site hsite => hlexical site (List.mem_append_right _ hsite)) hregular.2
          have hall := (hcondition.append hbody).append helse
          simpa only [Stmt.sites, Stmt.listCount, hsize, declaredNames_checkStmts,
            listCountOfAll_checkStmts, Nat.zero_add] using hall
  | block o body =>
      rw [checkStmt_block]
      split
      · exact Goes.stay hk.wellFormed ‹_›
      · next hnone =>
          have hsize := hnext (by simpa using hnone)
          have hinside := stands_inside hk (Stmt.declaredNames body)
          have hoisted := hoisted_inside (c := c) hk.ready [] (Stmt.declaredNames body)
          rw [hsize] at hinside hoisted
          have hbody := checkStmts_goes body (next + 1) _ hinside
            (fun _ => by rw [size_inside, hsize]) hlexical hregular hoisted
          simpa only [Stmt.sites, Stmt.listCount, hsize, declaredNames_checkStmts] using
            hbody.inside hk
  | expr x =>
      rw [checkStmt_expr]
      exact placed_goes refs x hk hlexical
  | import_ o q p => rw [checkStmt]; exact Goes.refl hk.wellFormed
  | enum o n es => rw [checkStmt]; exact Goes.refl hk.wellFormed
  | retain o ns => rw [checkStmt]; exact Goes.refl hk.wellFormed

theorem checkStmts_goes {s : ScopeId} {around : List Block} (ss : List Stmt) (next : ScopeId)
    (k : Check) (hk : Stands c s around k.ledger)
    (hnext : k.mistake = none → k.ledger.scopes.size = next)
    (hlexical : ∀ site ∈ Stmt.sitesOfAll next around ss, site.2.Lexical c site.1)
    (hregular : Stmt.RegularAll ss) (hhoisted : Hoisted c s k.ledger (Stmt.declaredNames ss)) :
    Goes c k (checkStmts c refs s ss k).2 (Stmt.listCountOfAll ss) (Stmt.sitesOfAll next around ss)
      (Stmt.sitesOfAll next around (checkStmts c refs s ss k).1) := by
  cases ss with
  | nil =>
      rw [checkStmts_nil]
      exact Goes.refl hk.wellFormed
  | cons st rest =>
      have hst := checkStmt_goes st next k hk hnext
        (fun site hsite => hlexical site (List.mem_append_left _ hsite)) hregular.1
        (fun n sym hd => hhoisted n (by simp [Stmt.declaredNames, hd]))
      have hrest := checkStmts_goes rest (next + st.listCount) _
        (hk.later hst.wellFormed hst.extend)
        (fun h => by rw [hst.size h, hnext (hst.mistake_of h)])
        (fun site hsite => hlexical site (List.mem_append_right _ hsite)) hregular.2
        (fun n hn => by
          rw [hst.extend.own?_eq hk.wellFormed hk.mirrored.lt]
          exact hhoisted n (Stmt.declaredNames_subset_cons st rest hn))
      rw [checkStmts_cons]
      simpa only [Stmt.sitesOfAll, Stmt.listCountOfAll, listCount_checkStmt] using hst.append hrest

theorem checkElse_goes {s : ScopeId} {around : List Block} (e : Option Stmt) (next : ScopeId)
    (k : Check) (hk : Stands c s around k.ledger)
    (hnext : k.mistake = none → k.ledger.scopes.size = next)
    (hlexical : ∀ site ∈ Stmt.sitesOfElse next around e, site.2.Lexical c site.1)
    (hregular : Stmt.RegularElse e) :
    Goes c k (checkElse c refs s e k).2 (Stmt.listCountOfElse e) (Stmt.sitesOfElse next around e)
      (Stmt.sitesOfElse next around (checkElse c refs s e k).1) := by
  cases e with
  | none =>
      rw [checkElse_none]
      exact Goes.refl hk.wellFormed
  | some st =>
      rw [checkElse_some]
      exact checkStmt_goes st next k hk hnext hlexical hregular.2
        fun n sym h => by rw [hregular.1] at h; cases h

end

def rooted (c : CheckContext) (l : Ledger) (names : List Text) : Ledger :=
  l.openRoot.2.defineAll l.scopes.size (idsOf c names)

theorem rooted_filled {l : Ledger} (hl : l.WellFormed) (names : List Text) :
    Ledger.Filled l (rooted c l names) l.scopes.size none (idsOf c names) :=
  (Ledger.filled_openRoot hl).defineAll le_rfl (idsOf c names)

theorem stands_rooted {l : Ledger} (hl : l.WellFormed) (names : List Text) :
    Stands c l.scopes.size [⟨names, l.scopes.size⟩] (rooted c l names) := by
  have hfilled := rooted_filled (c := c) hl names
  refine ⟨hfilled.wellFormed, hfilled.lt, ?_, ?_⟩
  · rw [hfilled.wellFormed.chain_eq, hfilled.parent]
    rfl
  · intro b hb id
    rw [List.mem_singleton.mp hb]
    exact isSome_own?_of_filled hfilled id

theorem root_goes (refs : ReferenceId → Reference) {l : Ledger} (hl : l.WellFormed) (t : Tree)
    (hlexical : ∀ site ∈ t.sites l.scopes.size, site.2.Lexical c site.1)
    (hregular : Stmt.RegularAll t.statements) :
    Goes c { ledger := rooted c l (Stmt.declaredNames t.statements) }
      (checkStmts c refs l.scopes.size t.statements
        { ledger := rooted c l (Stmt.declaredNames t.statements) }).2
      (Stmt.listCountOfAll t.statements) (t.sites l.scopes.size)
      (Stmt.sitesOfAll (l.scopes.size + 1)
        [⟨Stmt.declaredNames t.statements, l.scopes.size⟩]
        (checkStmts c refs l.scopes.size t.statements
          { ledger := rooted c l (Stmt.declaredNames t.statements) }).1) := by
  apply checkStmts_goes _ _ _ (stands_rooted hl _) ?_ hlexical hregular
  · intro name hname
    exact (rooted_filled hl _).own _ (List.mem_map_of_mem hname)
  · intro _
    change (rooted c l _).scopes.size = _
    rw [rooted, size_scopes_defineAll]
    simp [Ledger.openRoot]

end Check

end Splice

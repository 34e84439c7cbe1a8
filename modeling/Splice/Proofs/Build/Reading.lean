import Splice.Proofs.Build.Identities

/-!
# What analysed trees read

The analysis of a bound tree leaves every site with what it reads: a visible name with the
record of the innermost list of statements that declares it, and any other one with an entry
of an enum or a name of the standard library (`Site.Reads`).  The analyses of other trees do
not change this, so it holds for all trees of a program that is to be linked
(`LinkRun.readsFound`).
-/

namespace Splice

/-- Where a site of some statements stands: inside the lists of statements around them and, if
it reads, in one of their expressions. -/
structure Site.LiesIn (around : List Block) (values : List Expr) (e : List Block × Site) :
    Prop where
  around : around ⊆ e.1
  value : ∀ o name access given, e.2 = .read o name access given → ∃ x ∈ values, e.2 ∈ x.sites none

namespace Site.LiesIn

variable {around around' : List Block} {values values' : List Expr} {x : Expr}
  {e : List Block × Site}

theorem mono (h : LiesIn around values e) (haround : around' ⊆ around)
    (hvalues : values ⊆ values') : LiesIn around' values' e where
  around := List.Subset.trans haround h.around
  value o name access given he := by
    obtain ⟨x, hx, hsite⟩ := h.value o name access given he
    exact ⟨x, hvalues hx, hsite⟩

theorem of_placed (he : e ∈ x.placed around) : LiesIn around [x] e := by
  obtain ⟨site, hsite, rfl⟩ := List.mem_map.mp he
  exact ⟨List.Subset.refl around, fun _ _ _ _ _ => ⟨x, List.mem_cons_self, hsite⟩⟩

end Site.LiesIn

namespace Stmt

variable {around : List Block} {e : List Block × Site}

mutual

theorem liesIn_of_mem_sites (s : Stmt) {next : ScopeId} {around : List Block}
    (he : e ∈ s.sites next around) : Site.LiesIn around s.values e := by
  cases s with
  | let_ o name sym v u => exact .of_placed he
  | fn o name sym params bo body u =>
      exact (liesIn_of_mem_sitesOfAll body he).mono (List.subset_cons_self _ _)
        (List.Subset.refl _)
  | assign o name sym v u =>
      rcases List.mem_append.mp he with he | he
      · exact .of_placed he
      · rw [List.mem_singleton.mp he]
        exact ⟨List.Subset.refl around, fun _ _ _ _ h => nomatch h⟩
  | setMember o target p v =>
      rcases List.mem_append.mp he with he | he
      · exact (Site.LiesIn.of_placed he).mono (List.Subset.refl _) (by simp [values])
      · exact (Site.LiesIn.of_placed he).mono (List.Subset.refl _) (by simp [values])
  | return_ o v =>
      obtain ⟨x, hx, he⟩ := List.mem_flatMap.mp he
      exact (Site.LiesIn.of_placed he).mono (List.Subset.refl _)
        (by simpa [values] using hx)
  | if_ o c b t f =>
      rw [Stmt.sites, List.append_assoc] at he
      rcases List.mem_append.mp he with he | he
      · exact (Site.LiesIn.of_placed he).mono (List.Subset.refl _) (by simp [values])
      · rcases List.mem_append.mp he with he | he
        · exact (liesIn_of_mem_sitesOfAll t he).mono (List.subset_cons_self _ _)
            (by simp [values])
        · exact (liesIn_of_mem_sitesOfElse f he).mono (List.Subset.refl _) (by simp [values])
  | block o body =>
      exact (liesIn_of_mem_sitesOfAll body he).mono (List.subset_cons_self _ _)
        (List.Subset.refl _)
  | expr x => exact .of_placed he
  | import_ o q path => cases he
  | enum o name es => cases he
  | retain o names => cases he

theorem liesIn_of_mem_sitesOfAll (ss : List Stmt) {next : ScopeId} {around : List Block}
    (he : e ∈ sitesOfAll next around ss) : Site.LiesIn around (valuesOfAll ss) e := by
  cases ss with
  | nil => cases he
  | cons s rest =>
      rcases List.mem_append.mp he with he | he
      · exact (liesIn_of_mem_sites s he).mono (List.Subset.refl _)
          (List.subset_append_left _ _)
      · exact (liesIn_of_mem_sitesOfAll rest he).mono (List.Subset.refl _)
          (List.subset_append_right _ _)

theorem liesIn_of_mem_sitesOfElse (f : Option Stmt) {next : ScopeId} {around : List Block}
    (he : e ∈ sitesOfElse next around f) : Site.LiesIn around (valuesOfElse f) e := by
  cases f with
  | none => cases he
  | some s => exact liesIn_of_mem_sites s he

end

end Stmt

namespace Tree

variable {t : Tree} {root : ScopeId} {around : List Block}

/-- The outermost list of statements of a tree is around all its sites. -/
theorem outermost_mem {e : List Block × Site} (he : e ∈ t.sites root) :
    ⟨Stmt.declaredNames t.statements, root⟩ ∈ e.1 :=
  (Stmt.liesIn_of_mem_sitesOfAll t.statements he).around List.mem_cons_self

theorem mention_of_mem_sites {o : Nat} {name : Text} {access : Option Access} {given : NameRead}
    (hsite : (around, Site.read o name access given) ∈ t.sites root) :
    Mention.name o name given ∈ Stmt.mentionsOfAll t.statements := by
  obtain ⟨x, hx, hread⟩ :=
    (Stmt.liesIn_of_mem_sitesOfAll t.statements hsite).value o name access given rfl
  exact Stmt.mentions_of_mem_valuesOfAll t.statements hx (Expr.mention_of_site x none hread)

end Tree

/-- What a site reads after an analysis without a mistake.  A visible name has the record
of the innermost list of statements that declares it; any other one is an enum of which an
entry is read, or a name of the standard library. -/
inductive Site.Reads (c : CheckContext) (l : Ledger) (around : List Block) : Site → Prop
  | own {o name access symbol u} (hrecord : Block.record? l c.space around name = some u) :
      Reads c l around (read o name access (.own symbol (some u)))
  | entry {o name at_ member enum entry} (hhidden : Block.isVisible around name = false)
      (henum : c.enums.find? (·.name == name) = some enum)
      (hentry : enum.entry? member = some entry) :
      Reads c l around
        (read o name (some ⟨at_, member, some ⟨enum.name, entry.name, entry.value⟩⟩) .unbound)
  | std {o name access reference record} (hhidden : Block.isVisible around name = false)
      (hnone : c.enums.find? (·.name == name) = none) :
      Reads c l around (read o name access (.std reference record))
  | store {o name usage} : Reads c l around (store o name usage)

section

variable {c c' : CheckContext} {l l' : Ledger} {s : ScopeId} {around : List Block}
  {site site' : Site} {sites sites' : List (List Block × Site)} {start mistake : Option Diagnostic}
  {name : Text} {u : UsageId}

theorem Block.record?_extends (hl : l.WellFormed) (hext : l.Extends l') {space : Text}
    (h : Block.record? l space around name = some u) :
    Block.record? l' space around name = some u := by
  obtain ⟨s, hs, hown⟩ := Option.bind_eq_some_iff.mp h
  have hlt : s < l.scopes.size := by
    by_contra hle
    rw [Ledger.own?, Ledger.scope_of_size_le (Nat.le_of_not_lt hle)] at hown
    cases hown
  rw [Block.record?, hs, Option.bind_some, hext.own?_eq hl hlt]
  exact hown

theorem Site.Attaches.reads (h : Site.Attaches c l s around site site')
    (hlexical : site.Lexical c around) : site'.Reads c l around := by
  cases h with
  | own hrecord => exact .own hrecord
  | std habsent hfiled => exact .std hlexical.1 hlexical.2
  | entry habsent henum hentry => exact .entry hlexical.1 henum hentry
  | store hrecord => exact .store

theorem Site.Trace.reads (h : Site.Trace c l start sites sites' mistake) (hstart : start = none)
    (hmistake : mistake = none) (hlexical : ∀ e ∈ sites, e.2.Lexical c e.1) :
    ∀ e ∈ sites', e.2.Reads c l e.1 := by
  induction h with
  | done => exact fun e he => nomatch he
  | stopped => cases hstart
  | step _ hsite _ ih =>
      intro e he
      rcases List.mem_cons.mp he with rfl | hrest
      · exact hsite.reads (hlexical _ List.mem_cons_self)
      · exact ih rfl hmistake (fun e he => hlexical e (List.mem_cons_of_mem _ he)) e hrest
  | failed => cases hmistake

theorem Site.Reads.later (h : site.Reads c l around) (hl : l.WellFormed) (hext : l.Extends l')
    (hspace : c'.space = c.space) (henums : c'.enums = c.enums) : site.Reads c' l' around := by
  cases h with
  | own hrecord => exact .own (by rw [hspace]; exact Block.record?_extends hl hext hrecord)
  | entry hhidden henum hentry => exact .entry hhidden (by rw [henums]; exact henum) hentry
  | std hhidden hnone => exact .std hhidden (by rw [henums]; exact hnone)
  | store => exact .store

end

namespace Program

variable {p p' q : Program} {t t' : Tree} {trees : List Tree}

/-- The sites of a tree read what its analysis has found. -/
def ReadsFound (p : Program) (t : Tree) : Prop :=
  ∀ root, (p.spaceAt t.owner).root = some root →
    ∀ e ∈ t.sites root, e.2.Reads (p.checkContext t.owner) p.ledger e.1

theorem ReadsFound.keeps (h : p.ReadsFound t) (hl : p.ledger.WellFormed) (hp : p.Keeps p')
    (hroot : ∃ root, (p.spaceAt t.owner).root = some root) : p'.ReadsFound t := by
  obtain ⟨root, hroot⟩ := hroot
  intro root' hroot' e he
  obtain rfl : root' = root :=
    Option.some.inj (hroot'.symm.trans (hp.root _ _ hroot))
  exact (h root' hroot e he).later hl hp.extend (hp.id t.owner) (hp.enums t.owner)

theorem check_readsFound (hfound : Found p t) (hbound : BoundTree p t) (hl : p.ledger.WellFormed)
    (hrun : check t p = ((t', none), p')) : p'.ReadsFound t' := by
  have hspace := spaceAt_check hfound hrun
  obtain ⟨hok, rfl, rfl⟩ := check_eq_ok hfound.root hrun
  intro root hroot e he
  obtain rfl : p.ledger.scopes.size = root := by
    dsimp only at hroot
    rw [hspace] at hroot
    exact Option.some.inj hroot
  rw [analysis_sites] at he
  have hreads := (analysis_trace hbound hl fun _ => rfl).reads rfl hok
    (fun e he => (hbound.bound _ e he).lexical fun _ => rfl) e he
  refine hreads.later ?_ (Ledger.Extends.refl _) ?_ ?_
  · exact (analysis_goes hbound hl fun _ => rfl).wellFormed
  · rw [checkContext, hspace]
    rfl
  · rw [checkContext, hspace]
    rfl

theorem yields_checkAll_readsFound (trees : List Tree) {before : List Tree}
    (h : Analysed p before) (hfound : ∀ t ∈ trees, Found p t)
    (hbound : ∀ t ∈ trees, BoundTree p t)
    (howners : (before.map Tree.owner ++ trees.map Tree.owner).Nodup)
    (hbefore : ∀ t ∈ before, p.ReadsFound t) :
    Yields (checkAll trees) p fun trees' p' => ∀ t ∈ before ++ trees', p'.ReadsFound t := by
  refine (yields_checkAll_of (motive := fun done rest q => Checking q done rest ∧
    (∀ t ∈ rest, BoundTree q t) ∧ ∀ t ∈ done, q.ReadsFound t) ?_ before trees
    ⟨⟨h, hfound, howners⟩, hbound, hbefore⟩).mono fun _ _ hall => hall.2.2
  rintro done t rest q t' q' ⟨hchecking, hbound, hdone⟩ hcheck
  have hwellFormed := hchecking.analysed.wellFormed
  obtain ⟨hkeeps, -, hreferences, hchecking'⟩ := hchecking.check hcheck
  refine ⟨hchecking', ?_, ?_⟩
  · intro u hu
    have hleads : SameLeads q q' :=
      ⟨hreferences, hkeeps.std, hkeeps.spaceReferences, hkeeps.imports⟩
    exact (hbound u (List.mem_cons_of_mem _ hu)).retains
      (hleads.retains (.of_enums (hkeeps.enums u.owner)))
  · refine List.forall_mem_append.mpr ⟨?_, List.forall_mem_singleton.mpr ?_⟩
    · intro u hu
      obtain ⟨root, hsound⟩ := hchecking.analysed.sound u hu
      exact (hdone u hu).keeps hwellFormed hkeeps ⟨root, hsound.rooted⟩
    · exact check_readsFound (hchecking.found t List.mem_cons_self)
        (hbound t List.mem_cons_self) hwellFormed hcheck

section

variable {loader : Loader} {workingDir : Text} {o : BuildOptions} {entry : Text} {d : Discovery}
  {p₀ p₁ p₂ p₃ : Program} {symbols : List MangleEntry} {readPattern : PatternReader}

theorem LinkRun.readsFound (h : LinkRun loader o entry p₀ d p₁ p₂ p₃ p symbols trees q)
    (hcreate : create workingDir o.retain readPattern = .ok p₀) : ∀ t ∈ trees, p.ReadsFound t := by
  have hcharted := h.charted hcreate
  have hdiscovers := h.discovers hcreate
  obtain ⟨table, rfl, -⟩ := h.checks hcreate
  have hleads : SameLeads p₁ (p₂.withSymbols table) :=
    (sameLeads_assignEnumValues h.assign).trans ⟨rfl, rfl, fun _ => rfl, fun _ => rfl⟩
  have hbound : ∀ t ∈ d.orderedTrees, BoundTree (p₂.withSymbols table) t := by
    intro t ht
    obtain ⟨n, -, hn⟩ := List.mem_filterMap.mp ht
    exact (hcharted.bound t (List.mem_of_find?_eq_some hn)).retains
      (hleads.retains (sameEnumNames_assignEnumValues h.assign t.owner))
  have hnodup : (([] : List Tree).map Tree.owner ++ d.orderedTrees.map Tree.owner).Nodup := by
    rw [hdiscovers.map_owner_orderedTrees]
    exact hdiscovers.order
  exact yields_checkAll_readsFound d.orderedTrees
    (analysed_nil (p := p₂.withSymbols table) hdiscovers.pristine.ledger hdiscovers.pristine.root)
    (fun t ht => (hdiscovers.found_orderedTrees ht).mono (grows_withSymbols _ _))
    hbound hnodup (fun t ht => nomatch ht) trees p h.check

end

end Program

end Splice

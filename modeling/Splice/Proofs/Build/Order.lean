import Splice.Proofs.Build.Discovery
import Mathlib.Logic.Relation

/-!
# The order of discovery

A namespace is seen before its imports are visited and takes its place after them.
While a namespace is visited, those that are seen and have no place yet are the ones
on the way to it, so each of them reaches it.  When it takes its place, an import of
it has a place already or is on the way, and then reaches it back.  The imports of a
namespace become known during the visit, but those of a namespace that has been seen
change no more once the visit is over, and one that was not seen has none; so what is
reached stays reached.
-/

namespace Splice.Program

variable {p p' p'' : Program} {n m a b : NamespaceId} {d d' d'' : Discovery} {loader : Loader}

def Imports (p : Program) (a b : NamespaceId) : Prop := b ∈ (p.spaceAt a).imports.map Prod.snd

def Reaches (p : Program) : NamespaceId → NamespaceId → Prop :=
  Relation.ReflTransGen p.Imports

theorem Reaches.mono (himports : ∀ a b, p.Imports a b → p'.Imports a b)
    (h : p.Reaches a b) : p'.Reaches a b :=
  Relation.ReflTransGen.mono himports _ _ h

theorem imports_congr (h : (p'.spaceAt a).imports = (p.spaceAt a).imports) :
    p'.Imports a b ↔ p.Imports a b := by
  unfold Imports
  rw [h]

theorem sameFiles_bindReferences :
    Yields (bindReferences n) p fun _ p' => p.SameFiles p' := by
  simp only [bindReferences, yields_bind, yields_get, yields_pure]
  refine Yields.forIn_list (fun _ p' => p.SameFiles p') ?_ (SameFiles.refl p)
  intro before r after hsplit p₁ h₁
  simp only [yields_bind, yields_get]
  split
  · simp only [yields_bind, yields_get]
    refine (yields_importTarget _).mono ?_
    rintro m p₂ ⟨rfl, htarget⟩
    split
    · simp only [yields_bind, yields_set, yields_pure, true_and]
      have hadd := sameFiles_addSymbol p₂ m (p₂.reference r).name
      exact h₁.trans ⟨hadd.workingDir, hadd.size, hadd.file⟩
    · simpa only [yields_pure, true_and] using h₁
  · simpa only [yields_pure, true_and] using h₁

theorem part_openAt {α : Type} (part : Namespace → α)
    (hpart : ∀ id unit key,
      part { id, unit, key } = part { id := [], unit := ⟨[], []⟩, key := [] })
    {location : Text} {opened : NamespaceId × Bool}
    (h : openAt (some loader) location p = .ok opened p') (m : NamespaceId) :
    part (p'.spaceAt m) = part (p.spaceAt m) := by
  obtain ⟨-, -, rfl⟩ | ⟨-, text, -, -, rfl⟩ := openAt_cases h
  · rfl
  · rw [spaceAt_register]
    split
    · next hm =>
        rw [hm, spaceAt_of_size_le le_rfl]
        exact hpart _ _ _
    · rfl

theorem spaceAt_bindImport_ne (hm : m ≠ n) (qualifier : Text) (target : NamespaceId) :
    (p.bindImport n qualifier target).spaceAt m = p.spaceAt m := by
  rw [bindImport, spaceAt_modifySpace, if_neg (fun h => hm h.1.symm)]

/-- A new alias is added behind the others. -/
theorem spaceAt_bindImport (hn : n < p.namespaces.size) {qualifier : Text}
    (hnew : qualifier ∉ (p.spaceAt n).imports.map Prod.fst) (target : NamespaceId) :
    (p.bindImport n qualifier target).spaceAt n =
      { p.spaceAt n with imports := (p.spaceAt n).imports ++ [(qualifier, target)] } := by
  have hany : ((p.spaceAt n).imports.any fun i => i.1 == qualifier) = false := by
    rw [List.any_eq_false]
    intro i hi heq
    apply hnew
    rw [← beq_iff_eq.mp heq]
    exact List.mem_map_of_mem hi
  rw [bindImport, spaceAt_modifySpace, if_pos ⟨rfl, hn⟩, hany]
  rfl

/-! ## The invariant -/

/-- What holds of the order between any two steps: a namespace that was not seen is
empty, and an import of a namespace that has a place comes before it, or leads back. -/
structure Ordered (p : Program) (d : Discovery) : Prop where
  fresh : ∀ m, m ∉ d.trees.map Tree.owner → (p.spaceAt m).content = ([], [], [])
  tidy : ∀ m, (p.spaceAt m).Tidy
  unshadowed : ∀ t ∈ d.trees, Unshadowed p t.owner (Stmt.mentionsOfAll t.statements)
  placed : ∀ a ∈ d.order, ∀ b, p.Imports a b →
    b ∈ d.trees.map Tree.owner ∧ ([b, a].Sublist d.order ∨ p.Reaches b a)

/-- Only namespaces that were seen have imports, so it is enough that theirs stay. -/
theorem Ordered.imports_mono (h : Ordered p d)
    (hkept : ∀ m ∈ d.trees.map Tree.owner, (p.spaceAt m).imports ⊆ (p'.spaceAt m).imports) :
    ∀ a b, p.Imports a b → p'.Imports a b := by
  intro a b hab
  by_cases hseen : a ∈ d.trees.map Tree.owner
  · obtain ⟨i, hi, rfl⟩ := List.mem_map.mp hab
    exact List.mem_map_of_mem (hkept a hseen hi)
  · have hnil : (p.spaceAt a).imports = [] := congrArg Prod.fst (h.fresh a hseen)
    rw [Imports, hnil] at hab
    cases hab

theorem Ordered.sameContent (h : Ordered p d)
    (hsame : ∀ m, (p'.spaceAt m).content = (p.spaceAt m).content) : Ordered p' d := by
  have himports : ∀ m, (p'.spaceAt m).imports = (p.spaceAt m).imports :=
    fun m => congrArg Prod.fst (hsame m)
  constructor
  · intro m hm
    rw [hsame]
    exact h.fresh m hm
  · intro m
    exact (h.tidy m).of_content (hsame m)
  · intro t ht
    exact (h.unshadowed t ht).of_enums (congrArg (fun c => c.2.2) (hsame t.owner))
  · intro a ha b hab
    rw [imports_congr (himports a)] at hab
    obtain ⟨hseen, hplace⟩ := h.placed a ha b hab
    refine ⟨hseen, hplace.imp_right ?_⟩
    exact Reaches.mono fun x y hxy => (imports_congr (himports x)).mpr hxy

/-- Reading a namespace that was not seen makes it seen. -/
theorem Ordered.read (h : Ordered p d) {t : Tree}
    (howner : t.owner ∉ d.trees.map Tree.owner) (hreads : Reads t.owner p t p') :
    Ordered p' { d with trees := d.trees ++ [t] } := by
  have himports := hreads.fills.imports
  have hcontent : ∀ m ≠ t.owner, (p'.spaceAt m).content = (p.spaceAt m).content :=
    fun m hm => hreads.fills.content hm
  constructor
  · intro m hm
    simp only [List.map_append, List.map_cons, List.map_nil, List.mem_append,
      List.mem_singleton, not_or] at hm
    rw [hcontent m hm.2]
    exact h.fresh m hm.1
  · intro m
    by_cases hm : m = t.owner
    · rw [hm]
      exact hreads.tidy (h.tidy t.owner)
    · exact (h.tidy m).of_content (hcontent m hm)
  · intro u hu
    rcases List.mem_append.mp hu with hold | hnew
    · have hne : u.owner ≠ t.owner := fun heq => howner (heq ▸ List.mem_map_of_mem hold)
      exact (h.unshadowed u hold).of_enums
        (congrArg (fun c => c.2.2) (hcontent u.owner hne))
    · rw [List.mem_singleton.mp hnew]
      exact hreads.unshadowed
  · intro a ha b hab
    rw [imports_congr (himports a)] at hab
    obtain ⟨hseen, hbefore⟩ := h.placed a ha b hab
    refine ⟨?_, hbefore.imp_right ?_⟩
    · rw [List.map_append]
      exact List.mem_append_left _ hseen
    · exact Reaches.mono fun x y hxy => (imports_congr (himports x)).mpr hxy

/-- Changing a namespace that is seen and has no place yet, without taking imports
from it. -/
theorem Ordered.change (h : Ordered p d) (hn : n ∈ d.trees.map Tree.owner) (hplace : n ∉ d.order)
    (hothers : ∀ m ≠ n, (p'.spaceAt m).content = (p.spaceAt m).content)
    (hgrown : (p.spaceAt n).imports ⊆ (p'.spaceAt n).imports)
    (henums : (p'.spaceAt n).enums = (p.spaceAt n).enums) (htidy : (p'.spaceAt n).Tidy) :
    Ordered p' d := by
  have hmono : ∀ a b, p.Imports a b → p'.Imports a b := by
    apply h.imports_mono
    intro m _
    by_cases hm : m = n
    · rw [hm]
      exact hgrown
    · rw [show (p'.spaceAt m).imports = _ from congrArg Prod.fst (hothers m hm)]
      exact List.Subset.refl _
  constructor
  · intro m hm
    have hne : m ≠ n := fun heq => hm (heq ▸ hn)
    rw [hothers m hne]
    exact h.fresh m hm
  · intro m
    by_cases hm : m = n
    · rw [hm]
      exact htidy
    · exact (h.tidy m).of_content (hothers m hm)
  · intro t ht
    apply (h.unshadowed t ht).of_enums
    by_cases hm : t.owner = n
    · rw [hm]
      exact henums
    · exact congrArg (fun c => c.2.2) (hothers t.owner hm)
  · intro a ha b hab
    have hne : a ≠ n := fun heq => hplace (heq ▸ ha)
    rw [imports_congr (congrArg Prod.fst (hothers a hne))] at hab
    obtain ⟨hseen, hbefore⟩ := h.placed a ha b hab
    exact ⟨hseen, hbefore.imp_right (Reaches.mono hmono)⟩

/-- A namespace takes its place when all its imports are seen; those without a place
must reach it. -/
theorem Ordered.place (h : Ordered p d)
    (himports : ∀ b, p.Imports n b → b ∈ d.trees.map Tree.owner)
    (hopen : ∀ b ∈ d.trees.map Tree.owner, b ∉ d.order → p.Reaches b n) :
    Ordered p { d with order := d.order ++ [n] } where
  fresh := h.fresh
  tidy := h.tidy
  unshadowed := h.unshadowed
  placed a ha b hab := by
    rcases List.mem_append.mp ha with hold | hlast
    · obtain ⟨hseen, hbefore⟩ := h.placed a hold b hab
      refine ⟨hseen, hbefore.imp_left fun hsub => ?_⟩
      exact hsub.trans (List.sublist_append_left _ _)
    · rw [List.mem_singleton.mp hlast] at hab ⊢
      refine ⟨himports b hab, ?_⟩
      by_cases hb : b ∈ d.order
      · left
        exact (List.singleton_sublist.mpr hb).append (List.Sublist.refl [n])
      · right
        exact hopen b (himports b hab) hb

/-- What a part of the visit of a namespace leads to: nothing that was seen before
loses its place or what it declares, and what is seen anew is reached from the
namespace. -/
structure Walks (loader : Loader) (n : NamespaceId) (d : Discovery) (p : Program)
    (d' : Discovery) (p' : Program) : Prop where
  history : History loader (· = StandardLibrary.unit) p p'
  ordered : Ordered p' d'
  std : p'.std = p.std
  extend : d.order <+: d'.order
  seen : d.trees.map Tree.owner ⊆ d'.trees.map Tree.owner
  content : ∀ m ∈ d.trees.map Tree.owner, (p'.spaceAt m).content = (p.spaceAt m).content
  reached : ∀ m ∈ d'.trees.map Tree.owner, m ∈ d.trees.map Tree.owner ∨ p'.Reaches n m

/-- A whole visit: the namespace is seen, and all that was seen on the way has its
place. -/
structure Tours (loader : Loader) (n : NamespaceId) (d : Discovery) (p : Program)
    (d' : Discovery) (p' : Program) : Prop extends Walks loader n d p d' p' where
  visited : n ∈ d'.trees.map Tree.owner
  done : ∀ m ∈ d'.trees.map Tree.owner, m ∉ d'.order → m ∈ d.trees.map Tree.owner ∧ m ∉ d.order

/-- The visit of a namespace after some of its imports. -/
structure Passes (loader : Loader) (n : NamespaceId) (before : List PendingImport)
    (d : Discovery) (p : Program) (d' : Discovery) (p' : Program) : Prop
    extends Walks loader n d p d' p' where
  visited : n ∈ d'.trees.map Tree.owner
  done : ∀ m ∈ d'.trees.map Tree.owner, m ∉ d'.order →
    m = n ∨ (m ∈ d.trees.map Tree.owner ∧ m ∉ d.order)
  pending : (p'.spaceAt n).pending = []
  bound : (p'.spaceAt n).imports.map Prod.fst = before.map PendingImport.qualifier
  targets : ∀ b, p'.Imports n b → b ∈ d'.trees.map Tree.owner

theorem Walks.imports_mono (h : Walks loader n d p d' p') (hordered : Ordered p d) :
    ∀ a b, p.Imports a b → p'.Imports a b := by
  apply hordered.imports_mono
  intro m hm
  rw [show (p'.spaceAt m).imports = _ from congrArg Prod.fst (h.content m hm)]
  exact List.Subset.refl _

theorem Tours.of_seen (h : Ordered p d) (hn : n ∈ d.trees.map Tree.owner) :
    Tours loader n d p d p where
  history := History.refl p
  ordered := h
  std := rfl
  extend := List.prefix_refl _
  seen := List.Subset.refl _
  content _ _ := rfl
  reached _ hm := Or.inl hm
  visited := hn
  done _ hm hplace := ⟨hm, hplace⟩

/-- Opening an import opens its location and adds the alias. -/
theorem openImport_cases {i : PendingImport} (h : openImport loader n i p = .ok m p') :
    ∃ opened q, openAt (some loader) i.location p = .ok opened q ∧ m = opened.1 ∧
      p' = q.bindImport n i.qualifier opened.1 := by
  have hyields : Yields (openImport loader n i) p fun m p' =>
      ∃ opened q, openAt (some loader) i.location p = .ok opened q ∧ m = opened.1 ∧
        p' = q.bindImport n i.qualifier opened.1 := by
    simp only [openImport, yields_bind, yields_get]
    apply yields_mapFailure
    intro opened q hopen
    simp only [yields_modify, yields_pure]
    exact ⟨opened, q, hopen, rfl, rfl⟩
  exact hyields m p' h

theorem samePlaces_bindImport (p : Program) (n : NamespaceId) (qualifier : Text)
    (target : NamespaceId) : p.SamePlaces (p.bindImport n qualifier target) :=
  samePlaces_modifySpace p n (fun _ => rfl) (fun _ => rfl) fun _ => rfl

theorem History.openImport {i : PendingImport} {units : SourceUnit → Prop}
    (h : openImport loader n i p = .ok m p') : History loader units p p' := by
  obtain ⟨opened, q, hopen, rfl, rfl⟩ := openImport_cases h
  exact ((History.refl p).openAt hopen).work (samePlaces_bindImport q n i.qualifier opened.1)

theorem std_openAt {location : Text} {opened : NamespaceId × Bool}
    (h : openAt (some loader) location p = .ok opened p') : p'.std = p.std := by
  obtain ⟨-, -, rfl⟩ | ⟨-, text, -, -, rfl⟩ := openAt_cases h
  · rfl
  · rfl

theorem std_openImport {i : PendingImport} (h : openImport loader n i p = .ok m p') :
    p'.std = p.std := by
  obtain ⟨opened, q, hopen, rfl, rfl⟩ := openImport_cases h
  have hstd : q.std = p.std := std_openAt hopen
  exact hstd

theorem content_openImport_ne {i : PendingImport} {k : NamespaceId}
    (h : openImport loader n i p = .ok m p') (hk : k ≠ n) :
    (p'.spaceAt k).content = (p.spaceAt k).content := by
  obtain ⟨opened, q, hopen, rfl, rfl⟩ := openImport_cases h
  rw [spaceAt_bindImport_ne hk]
  exact part_openAt Namespace.content (fun _ _ _ => rfl) hopen k

theorem content_openImport {i : PendingImport} (hn : n < p.namespaces.size)
    (h : openImport loader n i p = .ok m p')
    (hnew : i.qualifier ∉ (p.spaceAt n).imports.map Prod.fst) :
    (p'.spaceAt n).content =
      ((p.spaceAt n).imports ++ [(i.qualifier, m)], (p.spaceAt n).pending,
        (p.spaceAt n).enums) := by
  obtain ⟨opened, q, hopen, rfl, rfl⟩ := openImport_cases h
  have hcontent := part_openAt Namespace.content (fun _ _ _ => rfl) hopen n
  simp only [Namespace.content, Prod.mk.injEq] at hcontent
  obtain ⟨himports, hpending, henums⟩ := hcontent
  have hn' : n < q.namespaces.size := hn.trans_le (keepsPlaces_openAt hopen).size_le
  rw [← himports] at hnew
  rw [spaceAt_bindImport hn' hnew]
  simp only [Namespace.content, himports, hpending, henums]

/-- A visit begins by reading the source and taking out its imports. -/
theorem Passes.start (hordered : Ordered p d) {t : Tree} (hn : t.owner < p'.namespaces.size)
    (hseen : t.owner ∉ d.trees.map Tree.owner) (hplace : t.owner ∉ d.order)
    (hreads : Reads t.owner p t p') (hstd : p'.std = p.std) :
    Passes loader t.owner [] d p { d with trees := d.trees ++ [t] }
      (p'.drainImports t.owner).2 := by
  have hread := hordered.read hseen hreads
  have himports := hreads.fills.imports
  have hnil : (p'.spaceAt t.owner).imports = [] := by
    rw [himports]
    exact congrArg Prod.fst (hordered.fresh t.owner hseen)
  have hother : ∀ m ≠ t.owner, (p'.drainImports t.owner).2.spaceAt m = p'.spaceAt m := by
    intro m hm
    rw [drainImports, spaceAt_modifySpace, if_neg (fun h => hm h.1.symm)]
  have hown : (p'.drainImports t.owner).2.spaceAt t.owner =
      { p'.spaceAt t.owner with pending := [] } := by
    rw [drainImports, spaceAt_modifySpace, if_pos ⟨rfl, hn⟩]
  have hmem : t.owner ∈ (d.trees ++ [t]).map Tree.owner := by simp
  have htidy : (p'.spaceAt t.owner).Tidy := hread.tidy t.owner
  refine ⟨⟨?_, ?_, hstd, List.prefix_refl _, ?_, ?_, ?_⟩, hmem, ?_, ?_, ?_, ?_⟩
  · exact hreads.fills.samePlaces.history.work
      (samePlaces_modifySpace p' t.owner (fun _ => rfl) (fun _ => rfl) fun _ => rfl)
  · refine hread.change hmem hplace (fun m hm => by rw [hother m hm]) ?_ ?_ ?_
    · rw [hown]
      exact List.Subset.refl _
    · rw [hown]
    · rw [hown]
      exact ⟨by simp [Namespace.aliases, hnil], htidy.enums, htidy.words, htidy.entries⟩
  · rw [List.map_append]
    exact List.subset_append_left _ _
  · intro m hm
    have hne : m ≠ t.owner := fun heq => hseen (heq ▸ hm)
    rw [hother m hne]
    exact hreads.fills.content hne
  · intro m hm
    simp only [List.map_append, List.map_cons, List.map_nil, List.mem_append,
      List.mem_singleton] at hm
    rcases hm with hold | rfl
    · exact Or.inl hold
    · exact Or.inr Relation.ReflTransGen.refl
  · intro m hm hmplace
    simp only [List.map_append, List.map_cons, List.map_nil, List.mem_append,
      List.mem_singleton] at hm
    rcases hm with hold | hnew
    · exact Or.inr ⟨hold, hmplace⟩
    · exact Or.inl hnew
  · rw [hown]
  · rw [hown]
    simp [hnil]
  · intro b hb
    rw [Imports, hown] at hb
    simp [hnil] at hb

section

variable {before : List PendingImport} {i : PendingImport}

/-- Opening the next import of a namespace that is being visited keeps the order. -/
theorem Passes.opened (h : Passes loader n before d p d' p') (hn : n < p'.namespaces.size)
    (hplace : n ∉ d'.order) (hnew : i.qualifier ∉ before.map PendingImport.qualifier)
    (hopen : openImport loader n i p' = .ok m p'') :
    Ordered p'' d' ∧ p''.Imports n m ∧ ∀ a b, p'.Imports a b → p''.Imports a b := by
  rw [← h.bound] at hnew
  have hcontent := content_openImport hn hopen hnew
  have hothers := fun k (hk : k ≠ n) => content_openImport_ne hopen hk
  have himports : (p''.spaceAt n).imports = (p'.spaceAt n).imports ++ [(i.qualifier, m)] :=
    congrArg Prod.fst hcontent
  have hpending : (p''.spaceAt n).pending = [] :=
    (congrArg (fun c => c.2.1) hcontent).trans h.pending
  have henums : (p''.spaceAt n).enums = (p'.spaceAt n).enums :=
    congrArg (fun c => c.2.2) hcontent
  have hgrown : (p'.spaceAt n).imports ⊆ (p''.spaceAt n).imports := by
    rw [himports]
    exact List.subset_append_left _ _
  refine ⟨h.ordered.change h.visited hplace hothers hgrown henums ?_, ?_, ?_⟩
  · have htidy := h.ordered.tidy n
    have haliases : ((p'.spaceAt n).imports.map Prod.fst).Nodup := by
      have := htidy.aliases
      rw [Namespace.aliases] at this
      exact (List.nodup_append.mp this).1
    constructor
    · rw [Namespace.aliases, hpending, himports]
      simpa using Namespace.nodup_append_singleton haliases hnew
    · rw [henums]
      exact htidy.enums
    · rw [henums]
      exact htidy.words
    · rw [henums]
      exact htidy.entries
  · rw [Imports, himports]
    simp
  · apply h.ordered.imports_mono
    intro k _
    by_cases hk : k = n
    · rw [hk]
      exact hgrown
    · rw [show (p''.spaceAt k).imports = _ from congrArg Prod.fst (hothers k hk)]
      exact List.Subset.refl _

/-- Between two imports, all that is open on the way reaches the next import. -/
theorem Passes.next (h : Passes loader n before d p d' p') (hn : n < p'.namespaces.size)
    (hplace : n ∉ d'.order) (hnew : i.qualifier ∉ before.map PendingImport.qualifier)
    (hopen : openImport loader n i p' = .ok m p'') (hordered : Ordered p d)
    (hgray : ∀ a ∈ d.trees.map Tree.owner, a ∉ d.order → p.Reaches a n) :
    ∀ a ∈ d'.trees.map Tree.owner, a ∉ d'.order → p''.Reaches a m := by
  obtain ⟨-, hedge, hmono⟩ := h.opened hn hplace hnew hopen
  intro a ha haplace
  refine Relation.ReflTransGen.tail ?_ hedge
  rcases h.done a ha haplace with rfl | ⟨hseen, hopenA⟩
  · exact Relation.ReflTransGen.refl
  · have hearlier := (hgray a hseen hopenA).mono (h.imports_mono hordered)
    exact hearlier.mono hmono

theorem Passes.step (h : Passes loader n before d p d' p') (hn : n < p'.namespaces.size)
    (hnseen : n ∉ d.trees.map Tree.owner) (hplace : n ∉ d'.order)
    (hnew : i.qualifier ∉ before.map PendingImport.qualifier)
    (hopen : openImport loader n i p' = .ok m p'') {q : Program}
    (htour : Tours loader m d' p'' d'' q) :
    Passes loader n (before ++ [i]) d p d'' q := by
  obtain ⟨hordered, hedge, -⟩ := h.opened hn hplace hnew hopen
  have hmono := htour.imports_mono hordered
  have hown : (q.spaceAt n).content =
      ((p'.spaceAt n).imports ++ [(i.qualifier, m)], (p'.spaceAt n).pending,
        (p'.spaceAt n).enums) := by
    rw [htour.content n h.visited]
    exact content_openImport hn hopen (by rw [h.bound]; exact hnew)
  have himports : (q.spaceAt n).imports = (p'.spaceAt n).imports ++ [(i.qualifier, m)] :=
    congrArg Prod.fst hown
  refine ⟨⟨?_, htour.ordered, ?_, h.extend.trans htour.extend, ?_, ?_, ?_⟩, ?_, ?_, ?_, ?_, ?_⟩
  · exact (h.history.trans (History.openImport hopen)).trans htour.history
  · exact htour.std.trans ((std_openImport hopen).trans h.std)
  · exact List.Subset.trans h.seen htour.seen
  · intro k hk
    have hne : k ≠ n := fun heq => hnseen (heq ▸ hk)
    rw [htour.content k (h.seen hk), content_openImport_ne hopen hne, h.content k hk]
  · intro k hk
    rcases htour.reached k hk with hold | hnext
    · rcases h.reached k hold with hseen | hreached
      · exact Or.inl hseen
      · exact Or.inr ((hreached.mono (h.opened hn hplace hnew hopen).2.2).mono hmono)
    · exact Or.inr (Relation.ReflTransGen.head (hmono n m hedge) hnext)
  · exact htour.seen h.visited
  · intro k hk hkplace
    obtain ⟨hseen, hopenK⟩ := htour.done k hk hkplace
    exact h.done k hseen hopenK
  · rw [show (q.spaceAt n).pending = _ from congrArg (fun c => c.2.1) hown]
    exact h.pending
  · rw [himports, List.map_append, h.bound, List.map_append]
    rfl
  · intro b hb
    rw [Imports, himports, List.map_append] at hb
    rcases List.mem_append.mp hb with hold | hlast
    · exact htour.seen (h.targets b hold)
    · rw [List.mem_singleton.mp hlast]
      exact htour.visited

/-- A visit ends by giving the namespace its place. -/
theorem Passes.finish (h : Passes loader n before d p d' p') (hordered : Ordered p d)
    (hgray : ∀ a ∈ d.trees.map Tree.owner, a ∉ d.order → p.Reaches a n)
    (hfiles : p'.SameFiles p'') (hstd : p''.std = p'.std) :
    Tours loader n d p { d' with order := d'.order ++ [n] } p'' := by
  have hsame : ∀ k, (p''.spaceAt k).content = (p'.spaceAt k).content := hfiles.content
  have hmono : ∀ a b, p'.Imports a b → p''.Imports a b :=
    fun a b hab => (imports_congr (hfiles.imports a)).mpr hab
  refine ⟨⟨?_, ?_, hstd.trans h.std, ?_, h.seen, ?_, ?_⟩, h.visited, ?_⟩
  · exact h.history.work hfiles.samePlaces
  · apply (h.ordered.sameContent hsame).place
    · intro b hb
      exact h.targets b ((imports_congr (hfiles.imports n)).mp hb)
    · intro b hb hbplace
      rcases h.done b hb hbplace with rfl | ⟨hseen, hopen⟩
      · exact Relation.ReflTransGen.refl
      · have hearlier := (hgray b hseen hopen).mono (h.imports_mono hordered)
        exact hearlier.mono hmono
  · exact h.extend.trans (List.prefix_append _ _)
  · intro k hk
    rw [hsame, h.content k hk]
  · intro k hk
    exact (h.reached k hk).imp_right fun hreached => hreached.mono hmono
  · intro k hk hkplace
    simp only [List.mem_append, List.mem_singleton, not_or] at hkplace
    rcases h.done k hk hkplace.1 with heq | hopen
    · exact absurd heq hkplace.2
    · exact hopen

end

/-! ## Visits -/

/-- A namespace is about to be visited: what is open on the way reaches it. -/
structure Approaches (p : Program) (d : Discovery) (n : NamespaceId) : Prop where
  discovers : Discovers p d
  ordered : Ordered p d
  lt : n < p.namespaces.size
  way : ∀ a ∈ d.trees.map Tree.owner, a ∉ d.order → p.Reaches a n

/-- The visit of a namespace that was read as a tree, after some of its imports. -/
structure Visits (loader : Loader) (t : Tree) (before : List PendingImport) (d : Discovery)
    (p : Program) (d' : Discovery) (p' : Program) : Prop
    extends Passes loader t.owner before d p d' p' where
  explores : Explores { d with trees := d.trees ++ [t] } p' d'

section

variable {before : List PendingImport} {i : PendingImport} {t : Tree}

theorem Approaches.not_placed (h : Approaches p d n) (hseen : n ∉ d.trees.map Tree.owner) :
    n ∉ d.order :=
  fun hmem => hseen (h.discovers.seen n hmem)

theorem Visits.not_placed (h : Visits loader t before d p d' p') (hplace : t.owner ∉ d.order) :
    t.owner ∉ d'.order :=
  h.explores.not_placed (by simp) hplace

theorem Visits.lt (h : Visits loader t before d p d' p') : t.owner < p'.namespaces.size :=
  h.explores.discovers.lt h.visited

theorem Approaches.start (loader : Loader) (h : Approaches p d n)
    (hseen : n ∉ d.trees.map Tree.owner) :
    Yields (parse n) p fun t p₁ => t.owner = n ∧
      ((p₁.spaceAt n).pending.map PendingImport.qualifier).Nodup ∧
      Visits loader t [] d p { d with trees := d.trees ++ [t] } (p₁.drainImports n).2 := by
  have hplace := h.not_placed hseen
  refine (yields_parse h.discovers.pristine h.lt).mono ?_
  rintro t p₁ ⟨hparse, rfl, ht, hreads⟩
  have hdrain := adds_drainImports (n := t.owner) hparse.pristine
  have htree := ((h.discovers.adds hplace hparse).addTree ht hseen).adds hplace hdrain
  have haliases := (hreads.tidy (h.ordered.tidy t.owner)).aliases
  rw [Namespace.aliases] at haliases
  exact ⟨rfl, (List.nodup_append.mp haliases).2.1,
    Passes.start h.ordered ht.lt hseen hplace hreads hparse.std, Explores.refl htree⟩

/-- The next import is approached when it is opened. -/
theorem Visits.approaches (h : Visits loader t before d p d' p')
    (happroaches : Approaches p d t.owner) (hseen : t.owner ∉ d.trees.map Tree.owner)
    (hnew : i.qualifier ∉ before.map PendingImport.qualifier)
    (hopen : openImport loader t.owner i p' = .ok m p'') : Approaches p'' d' m := by
  have hplace := h.not_placed (happroaches.not_placed hseen)
  obtain ⟨hadds, hm⟩ := yields_openImport loader i h.explores.discovers.pristine m p'' hopen
  exact ⟨h.explores.discovers.adds hplace hadds, (h.opened h.lt hplace hnew hopen).1, hm,
    h.next h.lt hplace hnew hopen happroaches.ordered happroaches.way⟩

theorem Visits.step (h : Visits loader t before d p d' p')
    (happroaches : Approaches p d t.owner) (hseen : t.owner ∉ d.trees.map Tree.owner)
    (hnew : i.qualifier ∉ before.map PendingImport.qualifier)
    (hopen : openImport loader t.owner i p' = .ok m p'') {q : Program}
    (hexplores : Explores d' q d'') (htour : Tours loader m d' p'' d'' q) :
    Visits loader t (before ++ [i]) d p d'' q := by
  have hplace := h.not_placed (happroaches.not_placed hseen)
  exact ⟨h.toPasses.step h.lt hseen hplace hnew hopen htour, h.explores.trans hexplores⟩

end

theorem not_mem_of_nodup_split {qualifiers before after : List PendingImport} {i : PendingImport}
    (h : (qualifiers.map PendingImport.qualifier).Nodup)
    (hsplit : qualifiers = before ++ i :: after) :
    i.qualifier ∉ before.map PendingImport.qualifier := by
  rw [hsplit, List.map_append, List.map_cons] at h
  intro hmem
  exact List.disjoint_of_nodup_append h hmem List.mem_cons_self

theorem yields_visit_tours (loader : Loader) (cancelled : Bool) (fuel : Nat)
    (h : Approaches p d n) :
    Yields (visit loader cancelled fuel n d) p fun d' p' => Tours loader n d p d' p' := by
  induction fuel generalizing p n d with
  | zero => simp [visit]
  | succ fuel ih =>
      simp only [visit]
      by_cases hseen : d.isSeen n = true
      · rw [if_pos hseen]
        simp only [yields_pure]
        exact Tours.of_seen h.ordered ((isSeen_iff d n).mp hseen)
      rw [if_neg hseen]
      by_cases hcancelled : cancelled = true
      · simp [hcancelled]
      rw [if_neg hcancelled]
      rw [isSeen_iff] at hseen
      simp only [yields_bind]
      refine (h.start loader hseen).mono ?_
      rintro t p₁ ⟨rfl, hqualifiers, hstart⟩
      simp only [yields_get, yields_set, yields_pure]
      refine (Yields.foldlM_list (fun before d' p' => Visits loader t before d p d' p') ?_
        hstart).mono ?_
      · intro before i after hsplit d₂ p₂ h₂
        have hnew := not_mem_of_nodup_split hqualifiers hsplit
        simp only [yields_bind]
        intro m p₃ hopen
        have h₃ := h₂.approaches h hseen hnew hopen
        refine ((yields_visit loader cancelled fuel h₃.discovers h₃.lt).and (ih h₃)).mono ?_
        rintro d₄ p₄ ⟨hexplores, htour⟩
        exact h₂.step h hseen hnew hopen hexplores htour
      · intro d₂ p₂ h₂
        have hplace := h₂.not_placed (h.not_placed hseen)
        have huntargeted := h₂.explores.discovers.untargeted t.owner hplace
        refine (yields_mapFailure ((yields_bindReferences h₂.explores.discovers.pristine
          huntargeted).and sameFiles_bindReferences)).mono ?_
        rintro _ p₃ ⟨hretargets, hfiles⟩
        refine ((yields_advance _).and (sameFiles_advance _)).mono ?_
        rintro _ p₄ ⟨hsame, hfiles'⟩
        exact h₂.toPasses.finish h.ordered h.way (hfiles.trans hfiles')
          (hsame.std.trans hretargets.std)

/-- The namespace was opened for a location, or for another spelling of it. -/
def StandsFor (p : Program) (location : Text) (n : NamespaceId) : Prop :=
  (p.spaceAt n).key = p.normalLocation location ∨
    (p.spaceAt n).unit.location = p.normalLocation location

theorem StandsFor.keepsPlaces {location : Text} (h : p.StandsFor location n)
    (hn : n < p.namespaces.size) (hkeeps : p.KeepsPlaces p') : p'.StandsFor location n := by
  unfold StandsFor
  rw [hkeeps.key n hn, hkeeps.unit n hn, normalLocation_congr hkeeps.workingDir]
  exact h

theorem standsFor_openAt {location : Text} {opened : NamespaceId × Bool}
    (h : openAt (some loader) location p = .ok opened p') : p'.StandsFor location opened.1 := by
  obtain ⟨hfind, -, rfl⟩ | ⟨-, text, -, rfl, rfl⟩ := openAt_cases h
  · exact Or.inl (key_of_findKey? hfind)
  · right
    rw [spaceAt_register, if_pos rfl]
    rfl

def stdLocation (stdPath : Text) : Text :=
  if stdPath.isEmpty then StandardLibrary.location else stdPath

/-- Opening the standard library opens a location or its built-in unit. -/
theorem openStd_cases {stdPath : Text} (h : openStd loader stdPath p = .ok n p') :
    (∃ isNew, openAt (some loader) (stdLocation stdPath) p = .ok (n, isNew) p') ∨
      (stdLocation stdPath = StandardLibrary.location ∧
        n = (p.openUnit StandardLibrary.unit).1.1 ∧ p' = (p.openUnit StandardLibrary.unit).2) := by
  have hyields : Yields (openStd loader stdPath) p fun n p' =>
      (∃ isNew, openAt (some loader) (stdLocation stdPath) p = .ok (n, isNew) p') ∨
        (stdLocation stdPath = StandardLibrary.location ∧
          n = (p.openUnit StandardLibrary.unit).1.1 ∧
          p' = (p.openUnit StandardLibrary.unit).2) := by
    unfold stdLocation
    simp only [openStd]
    split
    · simp only [yields_bind, yields_get, yields_set, yields_pure]
      exact Or.inr ⟨trivial, trivial, trivial⟩
    · simp only [yields_bind, yields_pure]
      intro opened q hopen
      exact Or.inl ⟨opened.2, hopen⟩
  exact hyields n p' h

theorem content_openUnit (unit : SourceUnit) (m : NamespaceId) :
    ((p.openUnit unit).2.spaceAt m).content = (p.spaceAt m).content := by
  unfold openUnit
  split
  · rfl
  · rw [spaceAt_register]
    split
    · next hm =>
        rw [hm, spaceAt_of_size_le le_rfl]
        rfl
    · rfl

theorem standsFor_openUnit (unit : SourceUnit) :
    (p.openUnit unit).2.StandsFor unit.location (p.openUnit unit).1.1 := by
  left
  unfold openUnit
  split
  · next m hm => exact key_of_findKey? hm
  · dsimp only
    rw [spaceAt_register, if_pos (register_id p unit)]
    rfl

theorem openStd_spec {stdPath : Text} (h : openStd loader stdPath p = .ok n p') :
    History loader (· = StandardLibrary.unit) p p' ∧
      (∀ m, (p'.spaceAt m).content = (p.spaceAt m).content) ∧
      p'.StandsFor (stdLocation stdPath) n := by
  obtain ⟨isNew, hopen⟩ | ⟨hlocation, rfl, rfl⟩ := openStd_cases h
  · refine ⟨(History.refl p).openAt hopen, ?_, standsFor_openAt hopen⟩
    exact part_openAt Namespace.content (fun _ _ _ => rfl) hopen
  · refine ⟨(History.refl p).openUnit rfl, content_openUnit _, ?_⟩
    rw [hlocation]
    exact standsFor_openUnit StandardLibrary.unit

/-- The build order of what two roots reach. -/
structure BuildOrder (p : Program) (d : Discovery) (std root : NamespaceId) : Prop where
  complete : ∀ n, n ∈ d.order ↔ p.Reaches std n ∨ p.Reaches root n
  once : d.order.Nodup
  parsed : (d.trees.map Tree.owner).Perm d.order
  importsFirst : ∀ a b, p.Imports a b → ¬Relation.TransGen p.Imports b a →
    [b, a].Sublist d.order
  stdFirst : ∀ n ∈ d.order, ¬p.Reaches std n → [std, n].Sublist d.order

/-- What is known after discovery. -/
structure Surveys (loader : Loader) (stdPath entry : Text) (p : Program) (d : Discovery)
    (p' : Program) : Prop where
  history : History loader (· = StandardLibrary.unit) p p'
  ordered : Ordered p' d
  sequence : ∃ std root, p'.std = some std ∧ p'.StandsFor (stdLocation stdPath) std ∧
    p'.StandsFor entry root ∧ BuildOrder p' d std root

theorem Ordered.mem_of_reaches (h : Ordered p d)
    (hall : ∀ m ∈ d.trees.map Tree.owner, m ∈ d.order) (ha : a ∈ d.order)
    (hreach : p.Reaches a b) : b ∈ d.order := by
  induction hreach with
  | refl => exact ha
  | tail _ hedge ih => exact hall _ (h.placed _ ih _ hedge).1

theorem buildOrder_of_tours {std root : NamespaceId} {d₁ d₂ : Discovery} {p₁ p₂ p₃ : Program}
    (hd₁ : Discovers p₂ d₁) (hd : Discovers p' d₂)
    (hstd : Tours loader std {} p₁ d₁ p₂) (hroot : Tours loader root d₁ p₃ d₂ p')
    (hkept : Ordered p₃ d₁) (himports : ∀ a b, p₂.Imports a b → p₃.Imports a b) :
    BuildOrder p' d₂ std root := by
  have hall₁ : ∀ m ∈ d₁.trees.map Tree.owner, m ∈ d₁.order := by
    intro m hm
    by_contra hplace
    cases (hstd.done m hm hplace).1
  have hall : ∀ m ∈ d₂.trees.map Tree.owner, m ∈ d₂.order := by
    intro m hm
    by_contra hplace
    obtain ⟨hseen, hopen⟩ := hroot.done m hm hplace
    exact hopen (hall₁ m hseen)
  have hstdReached : ∀ m ∈ d₁.trees.map Tree.owner, p'.Reaches std m := by
    intro m hm
    have hreach := (hstd.reached m hm).resolve_left (fun h => nomatch h)
    exact (hreach.mono himports).mono (hroot.imports_mono hkept)
  have hordered := hroot.ordered
  have hstdMem : std ∈ d₂.order := hall _ (hroot.seen hstd.visited)
  constructor
  · intro m
    constructor
    · intro hm
      rcases hroot.reached m (hd.seen m hm) with hearlier | hlater
      · exact Or.inl (hstdReached m hearlier)
      · exact Or.inr hlater
    · rintro (hreach | hreach)
      · exact hordered.mem_of_reaches hall hstdMem hreach
      · exact hordered.mem_of_reaches hall (hall _ hroot.visited) hreach
  · exact hd.order
  · rw [List.perm_ext_iff_of_nodup hd.owners hd.order]
    exact fun m => ⟨hall m, hd.seen m⟩
  · intro a b hab hback
    have ha : a ∈ d₂.order := by
      by_contra hmem
      have hunseen : a ∉ d₂.trees.map Tree.owner := fun hseen => hmem (hall a hseen)
      have hnil : (p'.spaceAt a).imports = [] := congrArg Prod.fst (hordered.fresh a hunseen)
      rw [Imports, hnil] at hab
      cases hab
    refine (hordered.placed a ha b hab).2.resolve_right fun hreach => hback ?_
    rcases Relation.reflTransGen_iff_eq_or_transGen.mp hreach with heq | htrans
    · rw [heq] at hab
      rw [heq]
      exact Relation.TransGen.single hab
    · exact htrans
  · intro m hm hnot
    -- What the library does not reach was placed after the visit of the library.
    obtain ⟨rest, hrest⟩ := hroot.extend
    rw [← hrest] at hm ⊢
    rcases List.mem_append.mp hm with hearly | hlate
    · exact absurd (hstdReached m (hd₁.seen m hearly)) hnot
    · have hfirst : std ∈ d₁.order := hall₁ std hstd.visited
      exact (List.singleton_sublist.mpr hfirst).append (List.singleton_sublist.mpr hlate)

/-- The library is approached first. -/
theorem approaches_std {stdPath : Text} {std : NamespaceId} (hp : p.Pristine)
    (huntargeted : ∀ n, p.Untargeted n) (hblank : ∀ m, (p.spaceAt m).content = ([], [], []))
    (hopen : openStd loader stdPath p = .ok std p') :
    Approaches { p' with std := some std } {} std := by
  have hopened := fun n => yields_openStd (n := n) loader stdPath hp std p' hopen
  obtain ⟨-, hcontent, -⟩ := openStd_spec hopen
  have hlt := (hopened std).2
  have hnil : ∀ m, (p'.spaceAt m).content = ([], [], []) :=
    fun m => (hcontent m).trans (hblank m)
  constructor
  · exact discovers_start ((hopened std).1.pristine.setStd hlt)
      fun n => (hopened n).1.untargeted (huntargeted n)
  · exact ⟨fun m _ => hnil m, fun m => Namespace.tidy_of_content_eq_nil (hnil m),
      fun t ht => (nomatch ht), fun a ha => (nomatch ha)⟩
  · exact hlt
  · exact fun a ha => nomatch ha

/-- The entry is approached when everything seen for the library has its place. -/
theorem Tours.approaches_entry {std : NamespaceId} {entry : Text} {opened : NamespaceId × Bool}
    (h : Tours loader std {} p d' p') (hd : Discovers p' d')
    (hentry : openAt (some loader) entry p' = .ok opened p'') : Approaches p'' d' opened.1 := by
  obtain ⟨hadds, hroot⟩ :=
    yields_openAt p'.namespaces.size loader entry hd.pristine opened p'' hentry
  constructor
  · exact hd.adds hd.size_not_mem hadds
  · exact h.ordered.sameContent (part_openAt Namespace.content (fun _ _ _ => rfl) hentry)
  · exact hroot
  · intro a ha hplace
    cases (h.done a ha hplace).1

/-- Discovery from a program without namespaces. -/
theorem yields_discover_surveys (depth : Nat) (loader : Loader) (cancelled : Bool)
    (stdPath entry : Text) (hp : p.Pristine) (huntargeted : ∀ n, p.Untargeted n)
    (hblank : ∀ m, (p.spaceAt m).content = ([], [], [])) :
    Yields (discoverWithin depth loader cancelled stdPath entry) p fun d p' =>
      Surveys loader stdPath entry p d p' := by
  simp only [discoverWithin, yields_bind, yields_modify]
  intro std p₁ hopen
  have hstart := approaches_std hp huntargeted hblank hopen
  obtain ⟨hhistory, -, hstands⟩ := openStd_spec hopen
  refine ((yields_visit loader cancelled _ hstart.discovers hstart.lt).and
    (yields_visit_tours loader cancelled _ hstart)).mono ?_
  rintro d₂ p₂ ⟨hexplores, htour⟩
  intro opened p₃ hentry
  have hnext := htour.approaches_entry hexplores.discovers hentry
  refine ((yields_visit loader cancelled _ hnext.discovers hnext.lt).and
    (yields_visit_tours loader cancelled _ hnext)).mono ?_
  rintro d₄ p₄ ⟨hexplores₄, htour₄⟩
  have hset : History loader (· = StandardLibrary.unit) p { p₁ with std := some std } :=
    hhistory.work ⟨rfl, rfl, fun _ => rfl, fun _ => rfl, fun _ => rfl⟩
  have hopenEntry : History loader (· = StandardLibrary.unit) p₂ p₃ :=
    (History.refl p₂).openAt hentry
  refine ⟨((hset.trans htour.history).trans hopenEntry).trans htour₄.history, htour₄.ordered,
    std, opened.1, ?_, ?_, ?_, ?_⟩
  · exact htour₄.std.trans ((std_openAt hentry).trans htour.std)
  · have hkeeps := (htour.history.trans hopenEntry).trans htour₄.history |>.keepsPlaces
    exact StandsFor.keepsPlaces (p := { p₁ with std := some std }) hstands hstart.lt hkeeps
  · exact (standsFor_openAt hentry).keepsPlaces hnext.lt htour₄.history.keepsPlaces
  · apply buildOrder_of_tours hexplores.discovers hexplores₄.discovers htour htour₄ hnext.ordered
    intro a b hab
    have hcontent := part_openAt Namespace.content (fun _ _ _ => rfl) hentry a
    exact (imports_congr (congrArg Prod.fst hcontent)).mpr hab

end Splice.Program

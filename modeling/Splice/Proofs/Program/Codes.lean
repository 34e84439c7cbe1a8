import Mathlib.Algebra.Order.Rearrangement
import Mathlib.Data.Fin.Tuple.Sort
import Splice.Proofs.Code.Grammar
import Splice.Proofs.Program.Retention

/-!
# Numbers for names

The numbers that names are given are the best there are.  Small numbers are written with few
bytes, and names are sorted by how often they are used, so that the rearrangement inequality
applies: no other choice of different numbers makes the operands shorter.  Sorting is
stable, and so names that are used equally often keep the order of the namespaces and of
their first use.
-/

namespace Splice

namespace Varint

theorem length_encodeFrom_le (more : Nat) {n m : Nat} (h : n ≤ m) :
    (encodeFrom more n).length ≤ (encodeFrom more m).length := by
  induction more generalizing n m with
  | zero => simp [encodeFrom]
  | succ more ih =>
      rw [encodeFrom, encodeFrom]
      by_cases hm : m < 128
      · rw [if_pos hm, if_pos (by omega)]
        simp
      · rw [if_neg hm]
        split
        · simp
        · simpa using ih (Nat.div_le_div_right h)

theorem toNat_fold {n : Int64} (h : 0 ≤ n.toInt) : (fold n).toNat = 2 * n.toInt.toNat := by
  have hlt := n.toInt_lt
  rw [fold, if_pos h]
  exact toNat_toUInt64 (by omega)

end Varint

def numberLength (n : Nat) : Nat := (Varint.encodeFrom 9 (2 * n)).length + 1

theorem monotone_numberLength : Monotone numberLength := by
  intro n m h
  exact Nat.succ_le_succ (Varint.length_encodeFrom_le 9 (Nat.mul_le_mul_left 2 h))

theorem length_number {k : Int64} (h : 0 ≤ k.toInt) :
    (Code.number k).length = numberLength k.toInt.toNat := by
  rw [Code.number, List.length_cons, Varint.encode, Varint.toNat_fold h, numberLength]

theorem le_of_strictMono {k : Nat} {f : Fin k → Nat} (h : StrictMono f) (i : Fin k) :
    i.val ≤ f i := by
  obtain ⟨i, hi⟩ := i
  induction i with
  | zero => exact Nat.zero_le _
  | succ i ih =>
      have hstep := h (a := ⟨i, by omega⟩) (b := ⟨i + 1, hi⟩) (Nat.lt_succ_self i)
      exact (ih (by omega)).trans_lt hstep

/-- The smallest numbers, in the order of falling weights, cost the least among all
different numbers. -/
theorem sum_mul_le_of_injective {k : Nat} {w f : Fin k → Nat} {cost : Nat → Nat}
    (hw : Antitone w) (hcost : Monotone cost) (hf : Function.Injective f) :
    ∑ i, w i * cost i ≤ ∑ i, w i * cost (f i) := by
  let σ := Tuple.sort f
  have hmono : Monotone (f ∘ σ) := Tuple.monotone_sort f
  have hstrict : StrictMono (f ∘ σ) := hmono.strictMono_of_injective (hf.comp σ.injective)
  have hanti : Antivary w (cost ∘ f ∘ σ) := hw.antivary (hcost.comp hmono)
  calc
    ∑ i, w i * cost i ≤ ∑ i, w i * (cost ∘ f ∘ σ) i :=
      Finset.sum_le_sum fun i _ => Nat.mul_le_mul_left _ (hcost (le_of_strictMono hstrict i))
    _ ≤ ∑ i, w i * (cost ∘ f ∘ σ) (σ⁻¹ i) := hanti.sum_mul_le_sum_mul_comp_perm
    _ = ∑ i, w i * cost (f i) := by simp

/-- There are no more than `2 ^ 63` different numbers that are not negative. -/
theorem le_of_injective {k : Nat} {f : Fin k → Int64} (hf : Function.Injective f)
    (hnonneg : ∀ i, 0 ≤ (f i).toInt) : k ≤ 2 ^ 63 := by
  have hinj : Function.Injective fun i => (⟨(f i).toInt.toNat, by
      have := (f i).toInt_lt
      have := hnonneg i
      omega⟩ : Fin (2 ^ 63)) := by
    intro i j hij
    have hi := hnonneg i
    have hj := hnonneg j
    have hval := congrArg Fin.val hij
    dsimp only at hval
    exact hf (Int64.toInt_inj.mp (by omega))
  simpa using Fintype.card_le_of_injective _ hinj

section

variable {α : Type} {R : α → α → Prop} {l : List α}

theorem falling_trans (w : α → Nat) (a b c : α) :
    decide (w b ≤ w a) = true → decide (w c ≤ w b) = true → decide (w c ≤ w a) = true := by
  simp only [decide_eq_true_eq]
  omega

theorem falling_total (w : α → Nat) (a b : α) :
    (decide (w b ≤ w a) || decide (w a ≤ w b)) = true := by
  simp only [Bool.or_eq_true, decide_eq_true_eq]
  omega

/-- Sorting by falling weight keeps the elements of one weight as they stand. -/
theorem filter_mergeSort_falling (w : α → Nat) (l : List α) (k : Nat) :
    (l.mergeSort fun a b => w b ≤ w a).filter (fun a => w a = k) = l.filter fun a => w a = k := by
  have hsub : (l.filter fun a => w a = k).Sublist (l.mergeSort fun a b => w b ≤ w a) := by
    refine List.sublist_mergeSort (falling_trans w) (falling_total w) ?_ List.filter_sublist
    refine List.pairwise_of_forall_mem_list fun a ha b hb => ?_
    simp only [List.mem_filter, decide_eq_true_eq] at *
    omega
  have hsub' := hsub.filter fun a => decide (w a = k)
  rw [List.filter_filter] at hsub'
  simp only [Bool.and_self] at hsub'
  refine (hsub'.eq_of_length ?_).symm
  exact ((List.mergeSort_perm l _).filter _).length_eq.symm

/-- Elements are sorted by falling weight, and as before if they weigh the same. -/
theorem pairwise_mergeSort_falling (w : α → Nat) (h : l.Pairwise R) :
    (l.mergeSort fun a b => w b ≤ w a).Pairwise fun a b => w b < w a ∨ w b = w a ∧ R a b := by
  have hsorted : (l.mergeSort fun a b => w b ≤ w a).Pairwise fun a b => w b ≤ w a :=
    (List.pairwise_mergeSort (falling_trans w) (falling_total w) l).imp fun h => of_decide_eq_true h
  rw [List.pairwise_iff_forall_sublist] at hsorted ⊢
  intro a b hab
  rcases Nat.lt_or_eq_of_le (hsorted hab) with hlt | heq
  · exact Or.inl hlt
  · refine Or.inr ⟨heq, ?_⟩
    have hboth := hab.filter fun x => decide (w x = w a)
    rw [filter_mergeSort_falling] at hboth
    simp only [List.filter_cons, heq, decide_true, if_true, List.filter_nil] at hboth
    exact List.pairwise_iff_forall_sublist.mp h (hboth.trans List.filter_sublist)

end

def NameGroup.kind (g : NameGroup) : SymbolKind :=
  if g.space = [] then .property else .namespaced

namespace Program

variable {p q p₀ : Program} {n m : NamespaceId} {s t : SymbolId} {name : Text}
  {calls : List PropertyCall} {spaces : List NamespaceId} {g h' : NameGroup}
  {readPattern : PatternReader}

/-! ## The names that take numbers -/

/-- A name that takes a number: it belongs to one of some namespaces or is a property, it is
used, and none of its symbols is retained. -/
structure TakesCode (p : Program) (spaces : List NamespaceId) (g : NameGroup) : Prop where
  space : g.space = [] ∨ ∃ n ∈ spaces, g.space = (p.spaceAt n).id
  members : g.members = p.identities g.space g.name
  used : g.members ≠ []
  free : ∀ s ∈ g.members, (p.symbol s).retained = false

/-- Whether a name comes before another one that is used as often: by the order of the
namespaces, by their first uses, and before properties. -/
inductive Precedes (p : Program) (spaces : List NamespaceId) (g h : NameGroup) : Prop
  | spaces {n m : NamespaceId} : [n, m].Sublist spaces → g.space = (p.spaceAt n).id →
      h.space = (p.spaceAt m).id → Precedes p spaces g h
  | firstUse : g.space = h.space → (∃ s ∈ g.members, ∀ t ∈ h.members, s < t) →
      Precedes p spaces g h
  | property : g.space ≠ [] → h.space = [] → Precedes p spaces g h

namespace Filed

theorem members_eq (hp : p.Filed) (hg : p.IsGroup g) :
    g.members = p.identities g.space g.name := by
  rcases hg with ⟨n, hn, hspace, hmembers⟩ | ⟨hspace, hmembers⟩
  · rw [hmembers, hp.names n hn, hspace]
  · rw [hmembers, hp.properties, hspace]

theorem exists_symbol_eq (hp : p.Filed) (hg : p.IsGroup g) :
    ∃ x : Symbol, (∀ s ∈ g.members, p.symbol s = x) ∧ x.kind = g.kind := by
  rcases hg with ⟨n, hn, hspace, hmembers⟩ | ⟨hspace, hmembers⟩
  · refine ⟨⟨g.name, (p.spaceAt n).id, .namespaced, false, none⟩, fun s hs => ?_, ?_⟩
    · exact hp.pristine.symbol_eq_namespaced (hmembers ▸ hs)
    · rw [NameGroup.kind, hspace, if_neg (hp.pristine.id_ne n hn)]
  · refine ⟨Symbol.ofProperty g.name (p.isRetainedName g.name), fun s hs => ?_, ?_⟩
    · exact hp.pristine.property_eq g.name s (hmembers ▸ hs)
    · rw [NameGroup.kind, if_pos hspace]
      rfl

theorem mem_nameGroups_of_takesCode (hp : p.Filed) (hlt : ∀ n ∈ spaces, n < p.namespaces.size)
    (hg : p.TakesCode spaces g) : g ∈ p.nameGroups spaces := by
  obtain ⟨s, hs⟩ := List.exists_mem_of_ne_nil _ hg.used
  rcases hg.space with hspace | ⟨n, hn, hspace⟩
  · have hmembers : g.members = p.properties.members g.name := by
      rw [hg.members, hspace, hp.properties]
    have hfiled := Groups.mem_of_members hp.pristine.properties_nodup (hmembers ▸ hs)
    exact mem_nameGroups.mpr (Or.inr ⟨hspace, hmembers ▸ hfiled⟩)
  · have hmembers : g.members = p.symbolsOf n g.name := by
      rw [hg.members, hspace, hp.names n (hlt n hn)]
    have hfiled := Groups.mem_of_members (hp.pristine.groups_nodup n) (hmembers ▸ hs)
    exact mem_nameGroups.mpr (Or.inl ⟨n, hn, hspace, hmembers ▸ hfiled⟩)

theorem mem_manglePool_iff (hp : p.Filed) (hlt : ∀ n ∈ spaces, n < p.namespaces.size) :
    g ∈ p.manglePool spaces ↔ p.TakesCode spaces g := by
  rw [mem_manglePool]
  constructor
  · rintro ⟨hg, hmangled⟩
    have hgroup := hp.pristine.isGroup hlt hg
    have hused : g.members ≠ [] := by
      intro hnil
      rw [isMangled, hnil] at hmangled
      cases hmangled
    obtain ⟨x, hsymbol, -⟩ := hp.exists_symbol_eq hgroup
    refine ⟨?_, hp.members_eq hgroup, hused, fun s hs => ?_⟩
    · rcases mem_nameGroups.mp hg with ⟨n, hn, hspace, -⟩ | ⟨hspace, -⟩
      · exact Or.inr ⟨n, hn, hspace⟩
      · exact Or.inl hspace
    · rw [isMangled_eq hsymbol hs, Bool.not_eq_true'] at hmangled
      rw [hsymbol s hs, hmangled]
  · intro hg
    have hmem := hp.mem_nameGroups_of_takesCode hlt hg
    obtain ⟨s, hs⟩ := List.exists_mem_of_ne_nil _ hg.used
    obtain ⟨x, hsymbol, -⟩ := hp.exists_symbol_eq (hp.pristine.isGroup hlt hmem)
    refine ⟨hmem, ?_⟩
    rw [isMangled_eq hsymbol hs, ← hsymbol s hs, hg.free s hs]
    rfl

/-- Names are listed in the order of the namespaces and of their first use. -/
theorem pairwise_precedes (hp : p.Filed) (hlt : ∀ n ∈ spaces, n < p.namespaces.size) :
    (p.nameGroups spaces).Pairwise (p.Precedes spaces) := by
  rw [nameGroups, List.pairwise_append]
  refine ⟨?_, ?_, ?_⟩
  · rw [List.pairwise_flatMap]
    refine ⟨fun n _ => ?_, ?_⟩
    · rw [List.pairwise_map]
      exact (hp.namesByUse n).first.imp fun hfirst => .firstUse rfl hfirst
    · rw [List.pairwise_iff_forall_sublist]
      intro n m hnm g hg h hh
      obtain ⟨g, -, rfl⟩ := List.mem_map.mp hg
      obtain ⟨h, -, rfl⟩ := List.mem_map.mp hh
      exact .spaces hnm rfl rfl
  · rw [List.pairwise_map]
    exact hp.propertiesByUse.first.imp fun hfirst => .firstUse rfl hfirst
  · intro g hg h hh
    obtain ⟨n, hn, hg⟩ := List.mem_flatMap.mp hg
    obtain ⟨g, -, rfl⟩ := List.mem_map.mp hg
    obtain ⟨h, -, rfl⟩ := List.mem_map.mp hh
    exact .property (hp.pristine.id_ne n (hlt n hn)) rfl

/-- Names take numbers by falling weight, and by their order if they weigh the same. -/
theorem pairwise_manglePool (hp : p.Filed) (hlt : ∀ n ∈ spaces, n < p.namespaces.size) :
    (p.manglePool spaces).Pairwise fun g h => h.members.length < g.members.length ∨
      h.members.length = g.members.length ∧ p.Precedes spaces g h :=
  (pairwise_mergeSort_falling (fun g : NameGroup => g.members.length)
    (hp.pairwise_precedes hlt)).filter _

theorem nodup_manglePool (hp : p.Filed) (hlt : ∀ n ∈ spaces, n < p.namespaces.size)
    (hnodup : spaces.Nodup) : (p.manglePool spaces).Nodup := by
  have hdisjoint := pairwise_manglePool_of (fun hd => hd.symm)
    (hp.pristine.pairwise_nameGroups hnodup)
  refine hdisjoint.imp_of_mem fun hg _ hd heq => ?_
  obtain ⟨s, hs⟩ := List.exists_mem_of_ne_nil _ ((hp.mem_manglePool_iff hlt).mp hg).used
  exact hd hs (heq ▸ hs)

end Filed

theorem takesCode_bare : p.bare.TakesCode spaces g ↔ p.TakesCode spaces g := by
  have hid : ∀ n, (p.bare.spaceAt n).id = (p.spaceAt n).id := fun n => by
    rw [spaceAt_bare]
    rfl
  have hretained : ∀ s, (p.bare.symbol s).retained = (p.symbol s).retained := fun s => by
    rw [symbol_bare]
    rfl
  constructor
  · rintro ⟨hspace, hmembers, hused, hfree⟩
    exact ⟨by simpa only [hid] using hspace, by rwa [identities_bare] at hmembers, hused,
      by simpa only [hretained] using hfree⟩
  · rintro ⟨hspace, hmembers, hused, hfree⟩
    exact ⟨by simpa only [hid] using hspace, by rwa [identities_bare], hused,
      by simpa only [hretained] using hfree⟩

theorem Precedes.of_bare (h : p.bare.Precedes spaces g h') : p.Precedes spaces g h' := by
  cases h with
  | spaces hnm hg hh =>
      rw [spaceAt_bare] at hg hh
      exact .spaces hnm hg hh
  | firstUse hspace hfirst => exact .firstUse hspace hfirst
  | property hg hh => exact .property hg hh

section

variable (hp : p.bare.Filed) (hlt : ∀ n ∈ spaces, n < p.namespaces.size)

include hp hlt

theorem Filed.takesCode_iff : g ∈ p.manglePool spaces ↔ p.TakesCode spaces g := by
  rw [← manglePool_bare, hp.mem_manglePool_iff (by simpa using hlt), takesCode_bare]

theorem Filed.kind_symbol (hg : g ∈ p.manglePool spaces) (hs : s ∈ g.members) :
    (p.symbol s).kind = g.kind := by
  have hlt' : ∀ n ∈ spaces, n < p.bare.namespaces.size := by simpa using hlt
  have hmem : g ∈ p.bare.nameGroups spaces := by
    rw [nameGroups_bare]
    exact (mem_manglePool.mp hg).1
  have hgroup := hp.pristine.isGroup hlt' hmem
  obtain ⟨x, hsymbol, hkind⟩ := hp.exists_symbol_eq hgroup
  rw [← hkind, ← hsymbol s hs, symbol_bare]
  rfl

theorem Filed.mangleEntry_eq (hg : g ∈ p.manglePool spaces) (i : Nat) :
    p.mangleEntry g i = ⟨g.space, g.name, g.kind, Int64.ofNat i, g.members.length⟩ := by
  have hleading : g.members.headD 0 ∈ g.members := by
    cases hmembers : g.members with
    | nil => exact absurd hmembers ((hp.takesCode_iff hlt).mp hg).used
    | cons leading rest => exact List.mem_cons_self
  rw [mangleEntry, hp.kind_symbol hlt hg hleading]

/-- All symbols of a name that takes a number are written as this number. -/
theorem Filed.code_mangle (hnodup : spaces.Nodup) {x : NameGroup × Nat}
    (hx : x ∈ (p.manglePool spaces).zipIdx) (hs : s ∈ x.1.members) :
    ((p.mangle spaces).2.symbol s).code = Code.number (Int64.ofNat x.2) := by
  have hg := List.fst_mem_of_mem_zipIdx hx
  have htakes := (hp.takesCode_iff hlt).mp hg
  have hdisjoint := hp.pristine.pairwise_nameGroups hnodup
  rw [nameGroups_bare] at hdisjoint
  refine code_mangle_of_mem (hdisjoint.imp fun hd hs hs' => hd hs hs') hx hs ?_ ?_
  · exact (mem_identities.mp (htakes.members ▸ hs)).1
  · have hkind := hp.kind_symbol hlt hg hs
    have hnot : x.1.kind ≠ .intrinsic := by
      unfold NameGroup.kind
      split <;> decide
    simp [Symbol.takesNumber, htakes.free s hs, hkind, hnot]

end

/-! ## Optimal numbers -/

/-- How many bytes are written for the symbols of some names. -/
def operandBytes (p : Program) (pool : List NameGroup) : Nat :=
  (pool.map fun g => (g.members.map fun s => (p.symbol s).code.length).sum).sum

/-- The table that names are given numbers by, and the program with the numbers.  The pool
holds the names that take numbers, in the order of their numbers. -/
structure OptimalCodes (p : Program) (spaces : List NamespaceId) (table : List MangleEntry)
    (q : Program) (pool : List NameGroup) : Prop where
  nodup : pool.Nodup
  mem_iff : ∀ g, g ∈ pool ↔ p.TakesCode spaces g
  entries : table = pool.zipIdx.map fun x =>
    ⟨x.1.space, x.1.name, x.1.kind, Int64.ofNat x.2, x.1.members.length⟩
  dense : pool.length ≤ 2 ^ 63 →
    table.map (fun e => e.code.toInt) = (List.range pool.length).map Int.ofNat
  written : ∀ x ∈ pool.zipIdx, ∀ s ∈ x.1.members,
    (q.symbol s).code = Code.number (Int64.ofNat x.2)
  order : pool.Pairwise fun g h => h.members.length < g.members.length ∨
    h.members.length = g.members.length ∧ p.Precedes spaces g h
  bytes : q.operandBytes pool =
    (pool.zipIdx.map fun x => x.1.members.length * (Code.number (Int64.ofNat x.2)).length).sum
  least : ∀ f : NameGroup → Int64, (∀ g ∈ pool, 0 ≤ (f g).toInt) →
    (∀ g ∈ pool, ∀ h ∈ pool, f g = f h → g = h) →
      q.operandBytes pool ≤ (pool.map fun g => g.members.length * (Code.number (f g)).length).sum

theorem operandBytes_eq {pool : List NameGroup}
    (h : ∀ x ∈ pool.zipIdx, ∀ s ∈ x.1.members,
      (q.symbol s).code = Code.number (Int64.ofNat x.2)) :
    q.operandBytes pool =
      (pool.zipIdx.map fun x => x.1.members.length * (Code.number (Int64.ofNat x.2)).length).sum := by
  have hfst : pool.map (fun g => (g.members.map fun s => (q.symbol s).code.length).sum) =
      pool.zipIdx.map fun x => (x.1.members.map fun s => (q.symbol s).code.length).sum := by
    conv_lhs => rw [← List.zipIdx_map_fst 0 pool]
    rw [List.map_map]
    rfl
  rw [operandBytes, hfst]
  refine congrArg List.sum (List.map_congr_left fun x hx => ?_)
  have hmembers : x.1.members.map (fun s => (q.symbol s).code.length) =
      x.1.members.map fun _ => (Code.number (Int64.ofNat x.2)).length :=
    List.map_congr_left fun s hs => by rw [h x hx s hs]
  rw [hmembers, List.map_const', List.sum_replicate, smul_eq_mul]

theorem map_toInt_zipIdx {pool : List NameGroup} (h : pool.length ≤ 2 ^ 63) :
    pool.zipIdx.map (fun x => (Int64.ofNat x.2).toInt) =
      (List.range pool.length).map Int.ofNat := by
  have hindices : pool.zipIdx.map Prod.snd = List.range pool.length := by
    rw [List.zipIdx_map_snd, List.range_eq_range']
  rw [← hindices, List.map_map]
  refine List.map_congr_left fun x hx => ?_
  have hlast := (List.mem_zipIdx hx).2.1
  exact Int64.toInt_ofNat_of_lt (by omega)

/-- Names that stand in the order of their weights get the numbers that cost the least. -/
theorem sum_lengths_le {pool : List NameGroup} (hnodup : pool.Nodup)
    (horder : pool.Pairwise fun g h => h.members.length ≤ g.members.length)
    {f : NameGroup → Int64} (hnonneg : ∀ g ∈ pool, 0 ≤ (f g).toInt)
    (hinj : ∀ g ∈ pool, ∀ h ∈ pool, f g = f h → g = h) :
    (pool.zipIdx.map fun x => x.1.members.length * (Code.number (Int64.ofNat x.2)).length).sum ≤
      (pool.map fun g => g.members.length * (Code.number (f g)).length).sum := by
  have hf : Function.Injective fun i : Fin pool.length => f pool[i] := by
    intro i j hij
    have hsame := hinj _ (List.getElem_mem i.2) _ (List.getElem_mem j.2) hij
    exact Fin.ext (hnodup.getElem_inj_iff.mp hsame)
  have hroom : pool.length ≤ 2 ^ 63 := le_of_injective hf fun i => hnonneg _ (List.getElem_mem i.2)
  have hw : Antitone fun i : Fin pool.length => pool[i].members.length := by
    intro i j hij
    rcases hij.eq_or_lt with rfl | hlt
    · exact le_rfl
    · exact List.pairwise_iff_getElem.mp horder i j i.2 j.2 hlt
  have hgiven : pool.zipIdx.map (fun x =>
      x.1.members.length * (Code.number (Int64.ofNat x.2)).length) =
        List.ofFn fun i : Fin pool.length => pool[i].members.length * numberLength i := by
    refine List.ext_getElem (by simp) fun i hi _ => ?_
    have hlt : i < 2 ^ 63 := by
      simp only [List.length_map, List.length_zipIdx] at hi
      omega
    have hint := Int64.toInt_ofNat_of_lt hlt
    have hlength : (Code.number (Int64.ofNat i)).length = numberLength i := by
      rw [length_number (by omega), hint, Int.toNat_natCast]
    simp [hlength]
  have hother : ∀ i : Fin pool.length, (Code.number (f pool[i])).length =
      numberLength (f pool[i]).toInt.toNat := fun i =>
    length_number (hnonneg _ (List.getElem_mem i.2))
  have hnat : Function.Injective fun i : Fin pool.length => (f pool[i]).toInt.toNat := by
    intro i j hij
    have hi := hnonneg _ (List.getElem_mem i.2)
    have hj := hnonneg _ (List.getElem_mem j.2)
    refine hf (Int64.toInt_inj.mp ?_)
    dsimp only [Fin.getElem_fin] at *
    omega
  calc
    _ = ∑ i : Fin pool.length, pool[i].members.length * numberLength i := by
        rw [hgiven, List.sum_ofFn]
    _ ≤ ∑ i : Fin pool.length, pool[i].members.length * numberLength (f pool[i]).toInt.toNat :=
        sum_mul_le_of_injective hw monotone_numberLength hnat
    _ = ∑ i : Fin pool.length, pool[i].members.length * (Code.number (f pool[i])).length := by
        simp only [hother]
    _ = _ := Fin.sum_univ_fun_getElem pool fun g => g.members.length * (Code.number (f g)).length

/-- The numbers of names are dense and optimal: in every program that comes about, and for
different namespaces of it, the names that are not retained get the smallest numbers, by
falling weight and in order if they weigh the same, and no other choice of different
numbers makes the operands of their symbols shorter. -/
theorem mangle_optimal {workingDir : Text} {patterns : List Text}
    (hcreate : create workingDir patterns readPattern = .ok p₀) (h : Develops p₀ calls p)
    (hlt : ∀ n ∈ spaces, n < p.namespaces.size) (hnodup : spaces.Nodup) :
    ∃ pool, OptimalCodes p spaces (p.mangle spaces).1 (p.mangle spaces).2 pool := by
  have hp := h.filed (Filed.create hcreate)
  have hlt' : ∀ n ∈ spaces, n < p.bare.namespaces.size := by simpa using hlt
  have hnodupPool := hp.nodup_manglePool hlt' hnodup
  have horder := hp.pairwise_manglePool hlt'
  rw [manglePool_bare] at hnodupPool horder
  have hentries : (p.mangle spaces).1 = (p.manglePool spaces).zipIdx.map fun x =>
      ⟨x.1.space, x.1.name, x.1.kind, Int64.ofNat x.2, x.1.members.length⟩ :=
    List.map_congr_left fun x hx => hp.mangleEntry_eq hlt (List.fst_mem_of_mem_zipIdx hx) x.2
  have hwritten : ∀ x ∈ (p.manglePool spaces).zipIdx, ∀ s ∈ x.1.members,
      ((p.mangle spaces).2.symbol s).code = Code.number (Int64.ofNat x.2) :=
    fun x hx s hs => hp.code_mangle hlt hnodup hx hs
  refine ⟨p.manglePool spaces, hnodupPool, fun g => hp.takesCode_iff hlt, hentries, ?_, hwritten,
    ?_, operandBytes_eq hwritten, ?_⟩
  · intro hroom
    rw [hentries, List.map_map]
    exact map_toInt_zipIdx hroom
  · exact horder.imp fun hor => hor.imp_right (And.imp_right Precedes.of_bare)
  · intro f hnonneg hinj
    rw [operandBytes_eq hwritten]
    refine sum_lengths_le hnodupPool (horder.imp fun hor => ?_) hnonneg hinj
    omega

/-- Two namespaces with a name each that is used twice, a property that keeps its name, and
one that does not.  The name of the second namespace is used first. -/
def weighedProgram (p : Program) : Program :=
  let p := ((p.register ⟨[], "/a.wv"⟩).2.register ⟨[], "/b.wv"⟩).2
  let p := ((p.addSymbol 1 "g").2.addSymbol 0 "f").2
  let p := (p.addProperty "key").2
  let p := ((p.addSymbol 0 "f").2.addSymbol 1 "g").2
  (p.addProperty "x").2

theorem develops_weighedProgram {globs : List NamePattern} :
    Develops { workingDir := "/", retainGlobs := globs } [.mention "key", .mention "x"]
      (weighedProgram { workingDir := "/", retainGlobs := globs }) := by
  have hopened := (Develops.refl (p := { workingDir := "/", retainGlobs := globs })).register
    ⟨[], "/a.wv"⟩ |>.register ⟨[], "/b.wv"⟩
  have hsize : ∀ n < 2, ∀ q : Program, q.namespaces.size = 2 → n < q.namespaces.size :=
    fun n hn q hq => hq ▸ hn
  have hnamed := (hopened.name "g" (n := 1) (hsize 1 (by decide) _ rfl)).name "f" (n := 0)
    (hsize 0 (by decide) _ rfl)
  have hkey := hnamed.call (.mention "key")
  have hagain := (hkey.name "f" (n := 0) (hsize 0 (by decide) _ rfl)).name "g" (n := 1)
    (hsize 1 (by decide) _ rfl)
  exact hagain.call (.mention "x")

def weighedTable : List MangleEntry :=
  [⟨"a", "f", .namespaced, 0, 2⟩, ⟨"b", "g", .namespaced, 1, 2⟩, ⟨[], "x", .property, 2, 1⟩]

theorem mangle_optimal_weighed :
    ∃ p₀, create "/" ["k*"] = .ok p₀ ∧
      Develops p₀ [.mention "key", .mention "x"] (weighedProgram p₀) ∧
      (∀ n ∈ [0, 1], n < (weighedProgram p₀).namespaces.size) ∧ [0, 1].Nodup ∧
      ((weighedProgram p₀).mangle [0, 1]).1 = weighedTable ∧
      ∃ pool, OptimalCodes (weighedProgram p₀) [0, 1] ((weighedProgram p₀).mangle [0, 1]).1
        ((weighedProgram p₀).mangle [0, 1]).2 pool := by
  have hruns : (create "/" ["k*"]).toOption.map (fun p₀ =>
      let p := weighedProgram p₀
      (decide ((p.nameGroups [0, 1]).Pairwise fun a b => b.members.length ≤ a.members.length),
        ((p.nameGroups [0, 1]).filter p.isMangled).zipIdx.map fun x => p.mangleEntry x.1 x.2)) =
          some (true, weighedTable) := by
    decide +kernel
  cases hcreate : create "/" ["k*"] with
  | error e =>
      rw [hcreate] at hruns
      cases hruns
  | ok p₀ =>
      rw [hcreate] at hruns
      obtain ⟨hordered, htable⟩ := Prod.mk.inj (Option.some.inj hruns)
      obtain ⟨globs, rfl⟩ := exists_create_eq hcreate
      have hlt : ∀ n ∈ [0, 1], n < (weighedProgram
          { workingDir := "/", retainGlobs := globs }).namespaces.size := by
        intro n hn
        have hsize : (weighedProgram
          { workingDir := "/", retainGlobs := globs }).namespaces.size = 2 := rfl
        rw [hsize]
        revert n
        decide
      refine ⟨_, rfl, develops_weighedProgram, hlt, by decide, ?_,
        mangle_optimal hcreate develops_weighedProgram hlt (by decide)⟩
      rw [mangle_fst, manglePool_eq (of_decide_eq_true hordered)]
      exact htable

end Program

end Splice
